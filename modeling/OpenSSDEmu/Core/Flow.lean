import Mathlib.Data.List.Perm.Lattice
import Mathlib.Data.List.Nodup
import Mathlib.Logic.Function.Basic

/-!
# Tokens moving between FIFO places

A component that hands its work items from one queue to the next is a
finite set of places, each holding a list of tokens in order of arrival. A
token enters at the tail of a place, leaves at the head, and a move does
both. Nothing here depends on what the tokens or the places are.

* `push_perm`, `pop_perm`: what arrival and departure do to the tokens as a
  whole.
* `mem_push`, `mem_pop_of_ne`, `notMem_pop`: where a token is afterwards.
* `tokens_advance`, `tokens_pop_head`, `tokens_push_last`, `tokens_pop_sublist`:
  along a line of places, furthest first, a token that moves up one place, or
  out at the front, keeps its position among the others.
* `Sorted.insert`, `Sorted.mem_left_iff`: in a list sorted by a key, what precedes an element
  is decided by the keys.
-/
namespace OpenSSDEmu.Flow
variable {P T : Type} [DecidableEq P]

/-- `x` arrives at `p`. -/
def push (f : P → List T) (p : P) (x : T) : P → List T := Function.update f p (f p ++ [x])

/-- The head of `p` leaves. -/
def pop (f : P → List T) (p : P) : P → List T := Function.update f p (f p).tail

/-- All tokens, place after place. -/
def tokens (ps : List P) (f : P → List T) : List T := ps.flatMap f

section
variable {f : P → List T} {p q : P} {x y : T} {ps : List P} {r : List T}

@[simp] theorem push_self : push f p x p = f p ++ [x] := by simp [push]
@[simp] theorem pop_self : pop f p p = (f p).tail := by simp [pop]
theorem push_of_ne (h : q ≠ p) : push f p x q = f q := by simp [push, h]
theorem pop_of_ne (h : q ≠ p) : pop f p q = f q := by simp [pop, h]

omit [DecidableEq P] in
theorem mem_tokens (hp : ∀ p, p ∈ ps) : x ∈ tokens ps f ↔ ∃ p, x ∈ f p := by
  simp [tokens, hp]

theorem update_perm (hn : ps.Nodup) (hp : p ∈ ps) (ys : List T) :
    (tokens ps (Function.update f p ys) ++ f p).Perm (tokens ps f ++ ys) := by
  obtain ⟨l, r, rfl⟩ := List.append_of_mem hp
  rw [List.nodup_append, List.nodup_cons] at hn
  have hl : l.flatMap (Function.update f p ys) = l.flatMap f :=
    List.flatMap_congr fun q hq => Function.update_of_ne (fun e => hn.2.2 q hq p (by simp) e) _ _
  have hr : r.flatMap (Function.update f p ys) = r.flatMap f :=
    List.flatMap_congr fun q hq => Function.update_of_ne (fun e : q = p => hn.2.1.1 (e ▸ hq)) _ _
  simp only [tokens, List.flatMap_append, List.flatMap_cons, hl, hr, Function.update_self,
    List.append_assoc]
  refine List.Perm.append_left _ ?_
  calc (ys ++ (r.flatMap f ++ f p)).Perm ((r.flatMap f ++ f p) ++ ys) := List.perm_append_comm
    _ |>.Perm (f p ++ r.flatMap f ++ ys) := List.perm_append_comm.append_right _
    _ |>.Perm (f p ++ (r.flatMap f ++ ys)) := by rw [List.append_assoc]

theorem push_perm (hn : ps.Nodup) (hp : p ∈ ps) :
    (tokens ps (push f p x)).Perm (x :: tokens ps f) := by
  have h := update_perm (f := f) hn hp (f p ++ [x])
  refine (List.perm_append_right_iff (f p)).mp (h.trans ?_)
  rw [← List.append_assoc]
  exact List.perm_append_singleton _ _

theorem pop_perm (hn : ps.Nodup) (hp : p ∈ ps) (hx : f p = x :: r) :
    (x :: tokens ps (pop f p)).Perm (tokens ps f) := by
  have h := update_perm (f := f) hn hp (f p).tail
  rw [hx, List.tail_cons] at h
  refine (List.perm_append_right_iff r).mp ?_
  have hm : (x :: tokens ps (pop f p) ++ r).Perm (tokens ps (Function.update f p r) ++ x :: r) := by
    simpa [pop, hx] using List.perm_middle.symm
  exact hm.trans h

theorem mem_push : y ∈ push f p x q ↔ y ∈ f q ∨ (q = p ∧ y = x) := by
  by_cases h : q = p
  · subst h; simp
  · simp [push_of_ne h, h]

theorem mem_of_mem_pop (h : y ∈ pop f p q) : y ∈ f q := by
  by_cases e : q = p
  · subst e; exact List.mem_of_mem_tail (by simpa using h)
  · rwa [pop_of_ne e] at h

theorem mem_pop_of_ne (hx : f p = x :: r) (hy : y ∈ f q) (hne : y ≠ x) : y ∈ pop f p q := by
  by_cases e : q = p
  · subst e
    rw [pop_self, hx, List.tail_cons]
    rw [hx] at hy
    exact (List.mem_cons.mp hy).resolve_left hne
  · rwa [pop_of_ne e]

/-- With no token twice, the token that left is nowhere. -/
theorem notMem_pop (hn : ps.Nodup) (hp : ∀ p, p ∈ ps) (hd : (tokens ps f).Nodup)
    (hx : f p = x :: r) (q : P) : x ∉ pop f p q := by
  intro h
  have := (pop_perm hn (hp p) hx).nodup_iff.mpr hd
  exact (List.nodup_cons.mp this).1 ((mem_tokens hp).mpr ⟨q, h⟩)

end

/-! ## Lines -/

section
variable {f : P → List T} {p q : P} {x : T} {ps a b : List P} {r : List T}

theorem tokens_push_of_notMem (h : p ∉ ps) : tokens ps (push f p x) = tokens ps f :=
  List.flatMap_congr fun _ hq => push_of_ne fun e => h (e ▸ hq)

theorem tokens_pop_of_notMem (h : p ∉ ps) : tokens ps (pop f p) = tokens ps f :=
  List.flatMap_congr fun _ hq => pop_of_ne fun e => h (e ▸ hq)

theorem tokens_pop_sublist : (tokens ps (pop f p)).Sublist (tokens ps f) := by
  induction ps with
  | nil => exact List.Sublist.refl _
  | cons q ps ih =>
    refine List.Sublist.append ?_ ih
    by_cases h : q = p
    · subst h
      rw [pop_self]
      exact List.tail_sublist _
    · rw [pop_of_ne h]

/-- Out at the front. -/
theorem tokens_pop_head (hn : (p :: ps).Nodup) (hx : f p = x :: r) :
    x :: tokens (p :: ps) (pop f p) = tokens (p :: ps) f := by
  have h := tokens_pop_of_notMem (f := f) (List.nodup_cons.mp hn).1
  simp only [tokens, List.flatMap_cons] at h ⊢
  rw [h, pop_self, hx, List.tail_cons, List.cons_append]

/-- Up by one place. -/
theorem tokens_advance (hn : (a ++ q :: p :: b).Nodup) (hx : f p = x :: r) :
    tokens (a ++ q :: p :: b) (push (pop f p) q x) = tokens (a ++ q :: p :: b) f := by
  obtain ⟨-, hqp, hab⟩ := List.nodup_append.mp hn
  obtain ⟨hq, hpb⟩ := List.nodup_cons.mp hqp
  have hne : p ≠ q := fun e => hq (by simp [e])
  have hold : ∀ l, p ∉ l → q ∉ l → tokens l (push (pop f p) q x) = tokens l f := fun l h1 h2 => by
    rw [tokens_push_of_notMem h2, tokens_pop_of_notMem h1]
  have ha := hold a (fun h => hab p h p (by simp) rfl) fun h => hab q h q (by simp) rfl
  have hb := hold b (List.nodup_cons.mp hpb).1 fun h => hq (by simp [h])
  simp only [tokens, List.flatMap_append, List.flatMap_cons] at ha hb ⊢
  rw [ha, hb, push_self, pop_of_ne (Ne.symm hne), push_of_ne hne, pop_self, hx, List.tail_cons]
  simp

/-- In at the end. -/
theorem tokens_push_last (hn : (a ++ [p]).Nodup) :
    tokens (a ++ [p]) (push f p x) = tokens (a ++ [p]) f ++ [x] := by
  have ha : p ∉ a := fun h => (List.nodup_append.mp hn).2.2 p h p (by simp) rfl
  have h := tokens_push_of_notMem (f := f) (x := x) ha
  simp only [tokens, List.flatMap_append, List.flatMap_cons, List.flatMap_nil, List.append_nil] at h ⊢
  rw [h, push_self, List.append_assoc]

/-- The tokens of one kind. -/
def sel (g : T → Bool) (f : P → List T) (p : P) : List T := (f p).filter g

variable {g : T → Bool}

theorem sel_push (h : g x = true) : sel g (push f p x) = push (sel g f) p x := by
  funext q
  by_cases e : q = p
  · subst e
    simp [sel, h]
  · simp [sel, push_of_ne e]

theorem sel_push_of_not (h : g x = false) : sel g (push f p x) = sel g f := by
  funext q
  by_cases e : q = p
  · subst e
    simp [sel, h]
  · simp [sel, push_of_ne e]

theorem sel_pop (hx : f p = x :: r) (h : g x = true) : sel g (pop f p) = pop (sel g f) p := by
  funext q
  by_cases e : q = p
  · subst e
    simp [sel, hx, h]
  · simp [sel, pop_of_ne e]

theorem sel_pop_of_not (hx : f p = x :: r) (h : g x = false) : sel g (pop f p) = sel g f := by
  funext q
  by_cases e : q = p
  · subst e
    simp [sel, hx, h]
  · simp [sel, pop_of_ne e]

end

/-! ## Order by a key -/

/-- Sorted by `key`, ties in any order. -/
def Sorted (key : T → Nat) (l : List T) : Prop := l.Pairwise fun a b => key a ≤ key b

theorem Sorted.insert {key : T → Nat} {a b : List T} {x : T} (h : Sorted key (a ++ b))
    (ha : ∀ y ∈ a, key y ≤ key x) (hb : ∀ y ∈ b, key x ≤ key y) : Sorted key (a ++ x :: b) := by
  obtain ⟨h1, h2, h12⟩ := List.pairwise_append.mp h
  refine List.pairwise_append.mpr ⟨h1, List.pairwise_cons.mpr ⟨hb, h2⟩, fun y hy z hz => ?_⟩
  rcases List.mem_cons.mp hz with rfl | hz
  · exact ha y hy
  · exact h12 y hy z hz

theorem Sorted.mem_left_iff {key : T → Nat} {a b : List T} {x y : T} (h : Sorted key (a ++ x :: b))
    (hy : y ∈ a ++ x :: b) (hne : key y ≠ key x) : y ∈ a ↔ key y < key x := by
  obtain ⟨-, hb, hab⟩ := List.pairwise_append.mp h
  constructor
  · intro ha
    have := hab y ha x (by simp)
    omega
  · intro hlt
    rcases List.mem_append.mp hy with ha | ha
    · exact ha
    rcases List.mem_cons.mp ha with rfl | ha
    · omega
    · have := (List.pairwise_cons.mp hb).1 y ha
      omega

end OpenSSDEmu.Flow
