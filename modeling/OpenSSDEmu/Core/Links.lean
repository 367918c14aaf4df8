import Mathlib.Data.List.Chain
import Mathlib.Data.List.Nodup

/-!
# Circular doubly linked lists

A list is given by its two link fields, read as partial functions
`nx pv : α → Option α` on the nodes (`none` = a null link). `Circ nx pv h xs`
says that following `nx` from the head `h` visits exactly `xs` and comes
back to `h`, that `pv` is the way back, and that no node repeats.

The update rules (`Circ.insert`, `Circ.remove`, `Circ.congr`) speak of the
new link fields pointwise, so they serve any representation of the nodes:
records in an array that end at a sentinel index as well as nodes in a heap.
-/
namespace OpenSSDEmu.Links

variable {α : Type} {nx pv nx' pv' : α → Option α} {h x n : α} {xs l r : List α}

def Link (nx pv : α → Option α) (a b : α) : Prop := nx a = some b ∧ pv b = some a

structure Circ (nx pv : α → Option α) (h : α) (xs : List α) : Prop where
  chain : List.IsChain (Link nx pv) (h :: xs ++ [h])
  nodup : (h :: xs).Nodup

/-- Following `f` from the pointer `p` visits `xs` and ends at `e`. -/
def Visits (f : α → Option α) (e : α) : Option α → List α → Prop
  | p, [] => p = some e
  | p, x :: xs => p = some x ∧ x ≠ e ∧ Visits f e (f x) xs

/-! ## Reading a list -/

theorem link_congr {l : List α} (hc : List.IsChain (Link nx pv) l)
    (hn : ∀ a ∈ l.dropLast, nx' a = nx a) (hp : ∀ b ∈ l.tail, pv' b = pv b) :
    List.IsChain (Link nx' pv') l := by
  induction hc with
  | nil => exact .nil
  | singleton a => exact .singleton a
  | cons_cons hab hl ih =>
    refine .cons_cons ⟨?_, ?_⟩ (ih (fun a ha => hn a ?_) fun b hb => hp b ?_)
    · rw [hn _ (by simp)]; exact hab.1
    · rw [hp _ (by simp)]; exact hab.2
    · simp [List.dropLast, ha]
    · exact List.mem_of_mem_tail hb

theorem Circ.split (hc : Circ nx pv h (l ++ r)) :
    List.IsChain (Link nx pv) (h :: l) ∧ Link nx pv (l.getLastD h) (r.headD h) ∧
      List.IsChain (Link nx pv) (r ++ [h]) := by
  have hch := hc.chain
  rw [show h :: (l ++ r) ++ [h] = (h :: l) ++ (r ++ [h]) by simp, List.isChain_append] at hch
  refine ⟨hch.1, hch.2.2 _ ?_ _ ?_, hch.2.1⟩
  · simp [List.getLast?_cons]
  · cases r <;> simp

theorem Circ.of_split (h1 : List.IsChain (Link nx pv) (h :: l))
    (h2 : Link nx pv (l.getLastD h) (r.headD h)) (h3 : List.IsChain (Link nx pv) (r ++ [h]))
    (hnd : (h :: (l ++ r)).Nodup) : Circ nx pv h (l ++ r) := by
  refine ⟨?_, hnd⟩
  rw [show h :: (l ++ r) ++ [h] = (h :: l) ++ (r ++ [h]) by simp, List.isChain_append]
  refine ⟨h1, h3, fun a ha b hb => ?_⟩
  have ea : a = l.getLastD h := by simpa [List.getLast?_cons, eq_comm] using ha
  have eb : b = r.headD h := by cases r <;> simpa [eq_comm] using hb
  rw [ea, eb]; exact h2

theorem Circ.first (hc : Circ nx pv h xs) : nx h = some (xs.headD h) :=
  (Circ.split (l := []) hc).2.1.1

theorem Circ.last (hc : Circ nx pv h xs) : pv h = some (xs.getLastD h) := by
  have hc' : Circ nx pv h (xs ++ []) := by simpa using hc
  exact hc'.split.2.1.2

/-- The successor of a member: the next member, or the head after the last. -/
theorem Circ.next_of_mem (hc : Circ nx pv h (l ++ x :: r)) : nx x = some (r.headD h) := by
  have hc' : Circ nx pv h ((l ++ [x]) ++ r) := by simpa using hc
  have := hc'.split.2.1.1
  rwa [List.getLastD_concat] at this

theorem Circ.prev_of_mem (hc : Circ nx pv h (l ++ x :: r)) : pv x = some (l.getLastD h) :=
  hc.split.2.1.2

theorem Circ.head_notMem (hc : Circ nx pv h xs) : h ∉ xs := (List.nodup_cons.mp hc.nodup).1

theorem Circ.nodup_tail (hc : Circ nx pv h xs) : xs.Nodup := (List.nodup_cons.mp hc.nodup).2

theorem Circ.empty_iff (hc : Circ nx pv h xs) : nx h = some h ↔ xs = [] := by
  rw [hc.first]
  constructor
  · cases xs with
    | nil => intro _; rfl
    | cons a t =>
      intro e
      have : a = h := by simpa using e
      exact absurd (this ▸ List.mem_cons_self) hc.head_notMem
  · intro heq
    subst heq
    rfl

theorem Circ.nil (h1 : nx h = some h) (h2 : pv h = some h) : Circ nx pv h [] :=
  ⟨.cons_cons ⟨h1, h2⟩ (.singleton h), by simp⟩

/-- Walking a list forward from its first node visits its members in order
and ends at the head. -/
theorem Circ.visits_next (hc : Circ nx pv h xs) : Visits nx h (nx h) xs := by
  suffices H : ∀ (r l : List α), Circ nx pv h (l ++ r) → Visits nx h (some (r.headD h)) r by
    rw [hc.first]; exact H xs [] hc
  intro r
  induction r with
  | nil => intro _ _; rfl
  | cons a r ih =>
    intro l hl
    refine ⟨rfl, ?_, ?_⟩
    · intro heq
      subst heq
      exact hl.head_notMem (by simp)
    · rw [hl.next_of_mem]; exact ih (l ++ [a]) (by simpa using hl)

/-- Reading a circular list backwards swaps the two link fields. -/
theorem Circ.reverse (hc : Circ nx pv h xs) : Circ pv nx h xs.reverse := by
  refine ⟨?_, ?_⟩
  · have hr : List.IsChain (fun a b => Link nx pv b a) (h :: xs ++ [h]).reverse := by
      rw [List.isChain_reverse]; exact hc.chain
    have e : (h :: xs ++ [h]).reverse = h :: xs.reverse ++ [h] := by simp
    rw [e] at hr
    exact hr.imp fun a b hab => ⟨hab.2, hab.1⟩
  · exact List.nodup_cons.mpr ⟨by simpa using hc.head_notMem, List.nodup_reverse.mpr hc.nodup_tail⟩

theorem Circ.visits_prev (hc : Circ nx pv h xs) : Visits pv h (pv h) xs.reverse :=
  hc.reverse.visits_next

/-- A walk does not read the link of the node it ends at. -/
theorem Visits.congr {f f' : α → Option α} {e : α} {p : Option α} {xs : List α} (h : Visits f e p xs)
    (hf : ∀ a, a ≠ e → f' a = f a) : Visits f' e p xs := by
  induction xs generalizing p with
  | nil => exact h
  | cons x xs ih =>
    obtain ⟨hp, hx, hv⟩ := h
    exact ⟨hp, hx, hf x hx ▸ ih hv⟩

/-! ## Changing a list -/

/-- Link fields that agree on the head and the members describe the same list. -/
theorem Circ.congr (hc : Circ nx pv h xs) (hn : ∀ a ∈ h :: xs, nx' a = nx a)
    (hp : ∀ a ∈ h :: xs, pv' a = pv a) : Circ nx' pv' h xs := by
  refine ⟨link_congr hc.chain (fun a ha => hn a ?_) fun b hb => hp b ?_, hc.nodup⟩
  · rwa [List.dropLast_concat] at ha
  · simpa [or_comm] using hb

section Update
-- the links of `l.getLastD h`, `r.headD h` and `n` may change, all others stay
variable (hnd : (h :: (l ++ r)).Nodup)
  (hnx : ∀ a, a ≠ l.getLastD h → a ≠ n → nx' a = nx a)
  (hpv : ∀ a, a ≠ r.headD h → a ≠ n → pv' a = pv a)
include hnd hnx hpv

/-- The links up to the left neighbour stay. -/
theorem link_left (c : List.IsChain (Link nx pv) (h :: l)) (hn : n ∉ h :: l) :
    List.IsChain (Link nx' pv') (h :: l) := by
  refine link_congr c (fun a ha => hnx a ?_ ?_) fun b hb => hpv b ?_ ?_
  · intro heq
    subst heq
    rw [← List.getLast_eq_getLastD (List.cons_ne_nil h l)] at ha
    have hnd' : ((h :: l).dropLast ++ [(h :: l).getLast (List.cons_ne_nil h l)]).Nodup := by
      rw [List.dropLast_append_getLast]; exact hnd.sublist (by simp)
    exact (List.nodup_append.mp hnd').2.2 _ ha _ (by simp) rfl
  · intro heq
    subst heq
    exact hn (List.dropLast_subset _ ha)
  · intro heq
    subst heq
    have hb' : r.headD h ∈ l := by simpa using hb
    have hh := (List.nodup_cons.mp hnd).1
    cases r with
    | nil => exact hh (by simpa using hb')
    | cons q r =>
      exact (List.nodup_append.mp (List.nodup_cons.mp hnd).2).2.2 q hb' q (by simp) rfl
  · intro heq
    subst heq
    exact hn (List.mem_of_mem_tail hb)

/-- The links from the right neighbour on stay. -/
theorem link_right (c : List.IsChain (Link nx pv) (r ++ [h])) (hn : n ∉ r ++ [h]) :
    List.IsChain (Link nx' pv') (r ++ [h]) := by
  have hh := (List.nodup_cons.mp hnd).1
  have hlr := List.nodup_append.mp (List.nodup_cons.mp hnd).2
  refine link_congr c (fun a ha => hnx a ?_ ?_) fun b hb => hpv b ?_ ?_
  · intro heq
    subst heq
    rw [List.dropLast_concat] at ha
    rcases List.mem_cons.mp (List.getLastD_mem_cons (l := l) (a := h)) with e | e
    · exact hh (by rw [e] at ha; simp [ha])
    · exact hlr.2.2 _ e _ ha rfl
  · intro heq
    subst heq
    exact hn (List.dropLast_subset _ ha)
  · intro heq
    subst heq
    cases r with
    | nil => simp at hb
    | cons q r =>
      simp only [List.cons_append, List.tail_cons, List.headD_cons, List.mem_append,
        List.mem_singleton] at hb
      rcases hb with hb | hb
      · exact (List.nodup_cons.mp hlr.2.1).1 hb
      · exact hh (by simp [← hb])
  · intro heq
    subst heq
    exact hn (List.mem_of_mem_tail hb)

end Update

/-- Hooking `n` in between the neighbours `l.getLastD h` and `r.headD h`. -/
theorem Circ.insert (hc : Circ nx pv h (l ++ r)) (hn : n ∉ h :: (l ++ r))
    (h1 : nx' (l.getLastD h) = some n) (h2 : pv' n = some (l.getLastD h))
    (h3 : nx' n = some (r.headD h)) (h4 : pv' (r.headD h) = some n)
    (hnx : ∀ a, a ≠ l.getLastD h → a ≠ n → nx' a = nx a)
    (hpv : ∀ a, a ≠ r.headD h → a ≠ n → pv' a = pv a) : Circ nx' pv' h (l ++ n :: r) := by
  obtain ⟨c1, -, c3⟩ := hc.split
  have hnl : n ∉ h :: l := fun hm => hn (by simp at hm ⊢; tauto)
  have hnr : n ∉ r ++ [h] := fun hm => hn (by simp at hm ⊢; tauto)
  refine Circ.of_split (r := n :: r) (link_left hc.nodup hnx hpv c1 hnl)
    ⟨h1, by simpa using h2⟩ ?_ ?_
  · have c3' := link_right hc.nodup hnx hpv c3 hnr
    have e : r ++ [h] = r.headD h :: (r ++ [h]).tail := by cases r <;> rfl
    rw [List.cons_append, e]
    exact .cons_cons ⟨h3, h4⟩ (e ▸ c3')
  · have hp : (n :: (h :: (l ++ r))).Nodup := List.nodup_cons.mpr ⟨hn, hc.nodup⟩
    refine (List.Perm.nodup_iff ?_).mp hp
    exact (List.Perm.swap h n _).trans (List.Perm.cons h List.perm_middle.symm)

/-- Unhooking the member `x`: its neighbours are linked to each other. -/
theorem Circ.remove (hc : Circ nx pv h (l ++ x :: r))
    (h1 : nx' (l.getLastD h) = some (r.headD h)) (h2 : pv' (r.headD h) = some (l.getLastD h))
    (hnx : ∀ a, a ≠ l.getLastD h → a ≠ x → nx' a = nx a)
    (hpv : ∀ a, a ≠ r.headD h → a ≠ x → pv' a = pv a) : Circ nx' pv' h (l ++ r) := by
  have hnd : (x :: (h :: (l ++ r))).Nodup :=
    (List.Perm.nodup_iff ((List.Perm.cons h List.perm_middle).trans (List.Perm.swap x h _))).mp
      hc.nodup
  have hx := (List.nodup_cons.mp hnd).1
  have hnd' := (List.nodup_cons.mp hnd).2
  obtain ⟨c1, -, c2⟩ := hc.split
  exact Circ.of_split (link_left hnd' hnx hpv c1 fun hm => hx (by simp at hm ⊢; tauto)) ⟨h1, h2⟩
    (link_right hnd' hnx hpv c2.tail fun hm => hx (by simp at hm ⊢; tauto)) hnd'

end OpenSSDEmu.Links
