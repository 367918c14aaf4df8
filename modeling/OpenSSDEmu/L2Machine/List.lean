import OpenSSDEmu.Core.Links

/-!
# The intrusive list library

`lib/list.c` and `lib/list.h`: circular doubly linked lists threaded through
nodes that live inside other records. `α` is the type of node addresses and
a `Heap` says what each node holds; `none` in a link is `NULL`. A function
returns `none` where the code dereferences `NULL`.

The specifications say, for a list that is well formed (`IsList`), what the
operation makes of it and that every node outside the list keeps its links
(`Frame`). The `Within` lemmas need no list at all: whatever the links look
like, an operation on nodes of a set closed under links writes in that set
only.
-/
namespace OpenSSDEmu.L2.List
open Links

/-- mirrors src/lib/list.h:6-10 -/
structure ListNode (α : Type) where
  prev : Option α
  next : Option α
  deriving DecidableEq, Repr

abbrev Heap (α : Type) := α → ListNode α

variable {α : Type} [DecidableEq α]

def setNext (h : Heap α) (a : α) (p : Option α) : Heap α :=
  fun b => if b = a then { h a with next := p } else h b

def setPrev (h : Heap α) (a : α) (p : Option α) : Heap α :=
  fun b => if b = a then { h a with prev := p } else h b

section Stores
variable (h : Heap α) (a b : α) (p : Option α)

@[simp] theorem setNext_next : (setNext h a p b).next = if b = a then p else (h b).next := by
  unfold setNext; split <;> simp_all
@[simp] theorem setNext_prev : (setNext h a p b).prev = (h b).prev := by
  unfold setNext; split <;> simp_all
@[simp] theorem setPrev_prev : (setPrev h a p b).prev = if b = a then p else (h b).prev := by
  unfold setPrev; split <;> simp_all
@[simp] theorem setPrev_next : (setPrev h a p b).next = (h b).next := by
  unfold setPrev; split <;> simp_all

end Stores

/-- mirrors src/lib/list.c:3-9 -/
def listAdd (h : Heap α) (new : α) (prev next : Option α) : Option (Heap α) := do
  let nextNode ← next
  let h := setPrev h nextNode (some new)
  let h := setNext h new next
  let h := setPrev h new prev
  let prevNode ← prev
  return setNext h prevNode (some new)

/-- A node with a `NULL` link is left alone ("list delete has a bug").
mirrors src/lib/list.c:11-34 -/
def listDelete (h : Heap α) (node : Option α) : Option (Heap α) :=
  match node with
  | none => some h
  | some node =>
    match (h node).next, (h node).prev with
    | none, _ => some h
    | _, none => some h
    | some _, some prevNode => do
      let h := setNext h prevNode (h node).next
      let nextNode ← (h node).next
      let h := setPrev h nextNode (h node).prev
      let h := setPrev h node none
      return setNext h node none

/-- mirrors src/lib/list.c:37-47 -/
def listEmpty (h : Heap α) (head : α) : Bool := (h head).next == some head

/-- mirrors src/lib/list.c:49-57 -/
def listDeleteTail (h : Heap α) (head : α) : Option (Heap α) := listDelete h (h head).prev
def listDeleteHead (h : Heap α) (head : α) : Option (Heap α) := listDelete h (h head).next

/-- mirrors src/lib/list.c:72-80 -/
def listAddTail (h : Heap α) (new head : α) : Option (Heap α) := listAdd h new (h head).prev (some head)
def listAddHead (h : Heap α) (new head : α) : Option (Heap α) := listAdd h new (some head) (h head).next

/-- The links are not tested for `NULL`, and `head->next` is read after `node`
has been unlinked.
mirrors src/lib/list.c:64-70 -/
def listMoveHead (h : Heap α) (node : Option α) (head : α) : Option (Heap α) := do
  let node ← node
  let nextNode ← (h node).next
  let h := setPrev h nextNode (h node).prev
  let prevNode ← (h node).prev
  let h := setNext h prevNode (h node).next
  listAdd h node (some head) (h head).next

/-- mirrors src/lib/list.c:59-62 -/
def listMoveTailToHead (h : Heap α) (head : α) : Option (Heap α) := listMoveHead h (h head).prev head

/-! ## Well-formed lists -/

/-- The list at `head` holds `xs`. -/
def IsList (h : Heap α) (head : α) (xs : List α) : Prop :=
  Circ (fun a => (h a).next) (fun a => (h a).prev) head xs

/-- Nodes outside `xs` keep their links. -/
def Frame (h h' : Heap α) (xs : List α) : Prop := ∀ a, a ∉ xs → h' a = h a

omit [DecidableEq α] in
theorem ListNode.ext_links {m n : ListNode α} (h1 : m.next = n.next) (h2 : m.prev = n.prev) : m = n := by
  cases m; cases n; simp_all

section
variable {h h' : Heap α} {head n x : α} {xs l r : List α}

omit [DecidableEq α] in
theorem getLastD_mem : l.getLastD head ∈ head :: (l ++ r) := by
  rcases List.mem_cons.mp (List.getLastD_mem_cons (l := l) (a := head)) with e | e
  · rw [e]; exact List.mem_cons_self
  · exact List.mem_cons_of_mem _ (List.mem_append_left _ e)

omit [DecidableEq α] in
theorem headD_mem : r.headD head ∈ head :: (l ++ r) := by cases r <;> simp

omit [DecidableEq α] in
theorem IsList.congr (hl : IsList h head xs) (he : ∀ a ∈ head :: xs, h' a = h a) : IsList h' head xs :=
  Circ.congr hl (fun a ha => by rw [he a ha]) fun a ha => by rw [he a ha]

omit [DecidableEq α] in
/-- A list that shares no node with the one operated on is still there. -/
theorem Frame.isList {ys : List α} (f : Frame h h' ys) (hl : IsList h head xs)
    (hd : ∀ a ∈ head :: xs, a ∉ ys) : IsList h' head xs := hl.congr fun a ha => f a (hd a ha)

theorem IsList.empty_iff (hl : IsList h head xs) : listEmpty h head = true ↔ xs = [] := by
  rw [← Circ.empty_iff hl, listEmpty, beq_iff_eq]

/-- Linking a node in between two neighbours. -/
theorem listAdd_spec {p q : α} (hl : IsList h head (l ++ r)) (hn : n ∉ head :: (l ++ r))
    (hp : l.getLastD head = p) (hq : r.headD head = q) :
    ∃ h', listAdd h n (some p) (some q) = some h' ∧ IsList h' head (l ++ n :: r) ∧
      Frame h h' (n :: head :: (l ++ r)) := by
  have hpm : p ∈ head :: (l ++ r) := hp ▸ getLastD_mem
  have hqm : q ∈ head :: (l ++ r) := hq ▸ headD_mem
  have hpn : p ≠ n := fun e => hn (e ▸ hpm)
  have hqn : q ≠ n := fun e => hn (e ▸ hqm)
  simp only [listAdd, Option.bind_eq_bind, Option.bind_some, Option.pure_def]
  refine ⟨_, rfl, ?_, ?_⟩
  · refine Circ.insert hl hn ?_ ?_ ?_ ?_ ?_ ?_ <;> simp only [hp, hq] <;> simp_all [eq_comm]
  · intro a ha
    have h1 : a ≠ n := by
      intro heq
      subst heq
      simp at ha
    have h2 : a ≠ p := by
      intro heq
      subst heq
      exact ha (List.mem_cons_of_mem _ hpm)
    have h3 : a ≠ q := by
      intro heq
      subst heq
      exact ha (List.mem_cons_of_mem _ hqm)
    exact ListNode.ext_links (by simp [h1, h2]) (by simp [h1, h3])

/-- Appending a node that is in no list. -/
theorem listAddTail_spec (hl : IsList h head xs) (hn : n ∉ head :: xs) :
    ∃ h', listAddTail h n head = some h' ∧ IsList h' head (xs ++ [n]) ∧ Frame h h' (n :: head :: xs) := by
  have hlast : (h head).prev = some (xs.getLastD head) := Circ.last hl
  rw [listAddTail, hlast]
  have hl' : IsList h head (xs ++ []) := by simpa using hl
  simpa using listAdd_spec hl' (by simpa using hn) rfl rfl

/-- Prepending a node that is in no list. -/
theorem listAddHead_spec (hl : IsList h head xs) (hn : n ∉ head :: xs) :
    ∃ h', listAddHead h n head = some h' ∧ IsList h' head (n :: xs) ∧ Frame h h' (n :: head :: xs) := by
  have hfirst : (h head).next = some (xs.headD head) := Circ.first hl
  rw [listAddHead, hfirst]
  exact listAdd_spec (l := []) hl hn rfl rfl

omit [DecidableEq α] in
/-- The two neighbours of a member. -/
theorem IsList.member (hl : IsList h head (l ++ x :: r)) :
    ∃ p q, (h x).prev = some p ∧ (h x).next = some q ∧ l.getLastD head = p ∧ r.headD head = q ∧
      x ∉ head :: (l ++ r) ∧ p ∈ head :: (l ++ r) ∧ q ∈ head :: (l ++ r) := by
  have hnd := hl.nodup
  rw [← List.cons_append, List.nodup_middle, List.cons_append, List.nodup_cons] at hnd
  exact ⟨_, _, Circ.prev_of_mem hl, Circ.next_of_mem hl, rfl, rfl, hnd.1, getLastD_mem, headD_mem⟩

omit [DecidableEq α] in
/-- A node outside a list is none of those left when a member is taken out. -/
theorem ne_of_cut {a y : α} (ha : a ∉ head :: (l ++ x :: r)) (hy : y ∈ head :: (l ++ r)) : a ≠ y := by
  intro heq
  subst heq
  refine ha ?_
  simp only [List.mem_cons, List.mem_append] at hy ⊢
  tauto

/-- Unlinking a member, whose links become `NULL`. -/
theorem listDelete_spec (hl : IsList h head (l ++ x :: r)) :
    ∃ h', listDelete h (some x) = some h' ∧ IsList h' head (l ++ r) ∧ h' x = ⟨none, none⟩ ∧
      Frame h h' (head :: (l ++ x :: r)) := by
  obtain ⟨p, q, hpx, hnx, hp, hq, hx, hpm, hqm⟩ := hl.member
  have hxp : x ≠ p := fun e => hx (e ▸ hpm)
  have hxq : x ≠ q := fun e => hx (e ▸ hqm)
  simp only [listDelete, hnx, hpx, setNext_next, hxp, if_false, Option.bind_eq_bind, Option.bind_some,
    Option.pure_def, setNext_prev]
  refine ⟨_, rfl, ?_, ListNode.ext_links (by simp) (by simp), ?_⟩
  · refine Circ.remove hl ?_ ?_ ?_ ?_ <;> simp only [hp, hq] <;> simp_all [eq_comm]
  · intro a ha
    have h1 : a ≠ x := by
      intro heq
      subst heq
      simp at ha
    exact ListNode.ext_links (by simp [h1, ne_of_cut ha hpm]) (by simp [h1, ne_of_cut ha hqm])

/-- Unlinking the first and the last member. -/
theorem listDeleteHead_spec (hl : IsList h head (x :: xs)) :
    ∃ h', listDeleteHead h head = some h' ∧ IsList h' head xs ∧ h' x = ⟨none, none⟩ ∧
      Frame h h' (head :: x :: xs) := by
  have hfirst : (h head).next = some x := Circ.first hl
  rw [listDeleteHead, hfirst]
  exact listDelete_spec (l := []) hl

theorem listDeleteTail_spec (hl : IsList h head (xs ++ [x])) :
    ∃ h', listDeleteTail h head = some h' ∧ IsList h' head xs ∧ h' x = ⟨none, none⟩ ∧
      Frame h h' (head :: (xs ++ [x])) := by
  have hlast : (h head).prev = some x := by simpa using Circ.last hl
  rw [listDeleteTail, hlast]
  simpa using listDelete_spec hl

/-- Unlinking a member and linking it in behind the head. -/
theorem listMoveHead_spec (hl : IsList h head (l ++ x :: r)) :
    ∃ h', listMoveHead h (some x) head = some h' ∧ IsList h' head (x :: (l ++ r)) ∧
      Frame h h' (head :: (l ++ x :: r)) := by
  obtain ⟨p, q, hpx, hnx, hp, hq, hx, hpm, hqm⟩ := hl.member
  have hxp : x ≠ p := fun e => hx (e ▸ hpm)
  have hxq : x ≠ q := fun e => hx (e ▸ hqm)
  -- the list without `x`, whose own links are stale by now
  have hcut : IsList (setNext (setPrev h q (some p)) p (some q)) head (l ++ r) := by
    refine Circ.remove hl ?_ ?_ ?_ ?_ <;> simp only [hp, hq] <;> simp_all
  obtain ⟨h', e, hl', hf⟩ := listAdd_spec (l := []) hcut hx rfl rfl
  have hfirst : (setNext (setPrev h q (some p)) p (some q) head).next = some ((l ++ r).headD head) :=
    Circ.first hcut
  refine ⟨h', ?_, hl', fun a ha => ?_⟩
  · simp only [listMoveHead, Option.bind_eq_bind, Option.bind_some, hnx, hpx, setPrev_prev, hxq, if_false,
      setPrev_next, hfirst]
    exact e
  · have hap := ne_of_cut ha hpm
    have haq := ne_of_cut ha hqm
    have hout : a ∉ x :: head :: ([] ++ (l ++ r)) := by
      simp only [List.nil_append, List.mem_cons, List.mem_append] at ha ⊢
      tauto
    rw [hf a hout]
    exact ListNode.ext_links (by simp [hap]) (by simp [haq])

/-- Moving the last member to the front. -/
theorem listMoveTailToHead_spec (hl : IsList h head (xs ++ [x])) :
    ∃ h', listMoveTailToHead h head = some h' ∧ IsList h' head (x :: xs) ∧
      Frame h h' (head :: (xs ++ [x])) := by
  have hlast : (h head).prev = some x := by simpa using Circ.last hl
  rw [listMoveTailToHead, hlast]
  simpa using listMoveHead_spec hl

/-- On the empty list the head is moved behind itself: every store writes what is there. -/
theorem listMoveTailToHead_nil (hl : IsList h head []) : listMoveTailToHead h head = some h := by
  have hfirst : (h head).next = some head := Circ.first hl
  have hlast : (h head).prev = some head := Circ.last hl
  have hn : setNext h head (some head) = h :=
    funext fun b => ListNode.ext_links (by rw [setNext_next]; split <;> simp_all) (by simp)
  have hp : setPrev h head (some head) = h :=
    funext fun b => ListNode.ext_links (by simp) (by rw [setPrev_prev]; split <;> simp_all)
  simp [listMoveTailToHead, listMoveHead, listAdd, hfirst, hlast, hn, hp]

end

/-! ## Operations on a closed set of nodes -/

/-- No link leads out of `S`. -/
def Within (S : α → Prop) (h : Heap α) : Prop :=
  ∀ a, S a → ∀ p, (h a).next = some p ∨ (h a).prev = some p → S p

/-- What an operation on nodes of `S` leaves alone. -/
structure Local (S : α → Prop) (h h' : Heap α) : Prop where
  within : Within S h'
  frame : ∀ a, ¬ S a → h' a = h a

section
variable {S : α → Prop} {h h' : Heap α} {a n : α} {p : Option α}

omit [DecidableEq α] in
/-- The nodes of a list are such a set. -/
theorem IsList.within {head : α} {xs : List α} (hl : IsList h head xs) : Within (· ∈ head :: xs) h := by
  intro a ha p hp
  rcases List.mem_cons.mp ha with rfl | ha
  · rw [Circ.first hl, Circ.last hl, Option.some.injEq, Option.some.injEq] at hp
    rcases hp with rfl | rfl
    · exact headD_mem (l := [])
    · simpa using getLastD_mem (r := [])
  · obtain ⟨l, r, rfl⟩ := List.append_of_mem ha
    rw [Circ.next_of_mem hl, Circ.prev_of_mem hl, Option.some.injEq, Option.some.injEq] at hp
    have hsub : ∀ y ∈ head :: (l ++ r), y ∈ head :: (l ++ a :: r) := by
      intro y hy
      simp only [List.mem_cons, List.mem_append] at hy ⊢
      tauto
    rcases hp with rfl | rfl
    · exact hsub _ headD_mem
    · exact hsub _ getLastD_mem

omit [DecidableEq α] in
theorem Local.refl (hw : Within S h) : Local S h h := ⟨hw, fun _ _ => rfl⟩

omit [DecidableEq α] in
theorem Local.trans {h'' : Heap α} (h1 : Local S h h') (h2 : Local S h' h'') : Local S h h'' :=
  ⟨h2.within, fun a ha => (h2.frame a ha).trans (h1.frame a ha)⟩

theorem Local.setNext (hw : Within S h) (ha : S a) (hp : ∀ x, p = some x → S x) :
    Local S h (setNext h a p) := by
  refine ⟨fun b hb x hx => ?_, fun b hb => ?_⟩
  · rw [setNext_next, setNext_prev] at hx
    split at hx
    · exact hx.elim (hp x) fun e => hw b hb x (.inr e)
    · exact hw b hb x hx
  · have : b ≠ a := by
      intro heq
      subst heq
      exact hb ha
    simp [L2.List.setNext, this]

theorem Local.setPrev (hw : Within S h) (ha : S a) (hp : ∀ x, p = some x → S x) :
    Local S h (setPrev h a p) := by
  refine ⟨fun b hb x hx => ?_, fun b hb => ?_⟩
  · rw [setPrev_next, setPrev_prev] at hx
    split at hx
    · exact hx.elim (fun e => hw b hb x (.inl e)) (hp x)
    · exact hw b hb x hx
  · have : b ≠ a := by
      intro heq
      subst heq
      exact hb ha
    simp [L2.List.setPrev, this]

theorem listAdd_local {prev next : Option α} (hw : Within S h) (hn : S n)
    (hp : ∀ x, prev = some x → S x) (hx : ∀ x, next = some x → S x)
    (e : listAdd h n prev next = some h') : Local S h h' := by
  simp only [listAdd, Option.bind_eq_bind, Option.bind_eq_some_iff, Option.pure_def, Option.some.injEq] at e
  obtain ⟨q, hq, p, hp', rfl⟩ := e
  have h1 := Local.setPrev (p := some n) hw (hx q hq) (by rintro _ ⟨⟩; exact hn)
  have h2 := h1.trans (Local.setNext h1.within hn hx)
  have h3 := h2.trans (Local.setPrev h2.within hn hp)
  exact h3.trans (Local.setNext h3.within (hp p hp') (by rintro _ ⟨⟩; exact hn))

theorem listDelete_local (hw : Within S h) (hn : ∀ x, p = some x → S x)
    (e : listDelete h p = some h') : Local S h h' := by
  unfold listDelete at e
  split at e
  · cases e; exact .refl hw
  · rename_i node
    have hS := hn node rfl
    split at e
    · cases e; exact .refl hw
    · cases e; exact .refl hw
    · rename_i q pv hq hpv
      simp only [Option.bind_eq_bind, Option.bind_eq_some_iff, Option.pure_def, Option.some.injEq] at e
      obtain ⟨y, hy, rfl⟩ := e
      have h1 := Local.setNext (p := (h node).next) hw (hw node hS pv (.inr hpv))
        fun x hx => hw node hS x (.inl hx)
      have h2 := h1.trans (Local.setPrev (p := (setNext h pv (h node).next node).prev) h1.within
        (h1.within node hS y (.inl hy)) fun x hx => h1.within node hS x (.inr hx))
      have h3 := h2.trans (Local.setPrev (p := none) h2.within hS (by simp))
      exact h3.trans (Local.setNext (p := none) h3.within hS (by simp))

theorem listAddTail_local {head : α} (hw : Within S h) (hn : S n) (hh : S head)
    (e : listAddTail h n head = some h') : Local S h h' :=
  listAdd_local hw hn (fun x hx => hw head hh x (.inr hx)) (by rintro _ ⟨⟩; exact hh) e

theorem listAddHead_local {head : α} (hw : Within S h) (hn : S n) (hh : S head)
    (e : listAddHead h n head = some h') : Local S h h' :=
  listAdd_local hw hn (by rintro _ ⟨⟩; exact hh) (fun x hx => hw head hh x (.inl hx)) e

theorem listDeleteTail_local {head : α} (hw : Within S h) (hh : S head)
    (e : listDeleteTail h head = some h') : Local S h h' :=
  listDelete_local hw (fun x hx => hw head hh x (.inr hx)) e

theorem listDeleteHead_local {head : α} (hw : Within S h) (hh : S head)
    (e : listDeleteHead h head = some h') : Local S h h' :=
  listDelete_local hw (fun x hx => hw head hh x (.inl hx)) e

end

end OpenSSDEmu.L2.List
