import Mathlib.Data.List.Basic
import OpenSSDEmu.L2Machine.List

/-!
# Pools of lists

The SQ lists, the cache buckets, the LRU list and the lists of the commands
all thread the same kind of node, so an operation on one of them is stated
with all the others in view: a pool is a heap with a family of heads, whose
lists share no node. `Op.exec` runs an operation of `lib/list.c` on the heap,
`Op.effect` says what it means for the sequence of the list it is called on.
-/
namespace OpenSSDEmu.L2.List

variable {α ι : Type}

/-- The list at the head `hd i` holds `f i`; no node belongs to two lists. -/
structure Pool (hd : ι → α) (h : Heap α) (f : ι → List α) : Prop where
  list : ∀ i, IsList h (hd i) (f i)
  apart : ∀ i j, i ≠ j → List.Disjoint (hd i :: f i) (hd j :: f j)

/-- A call on the list `i`. -/
inductive Op (ι α : Type)
  | addHead (n : α) (i : ι)
  | addTail (n : α) (i : ι)
  | delete (x : α) (i : ι)
  | deleteHead (i : ι)
  | deleteTail (i : ι)
  | moveHead (x : α) (i : ι)
  | moveTailToHead (i : ι)

namespace Op

def target : Op ι α → ι
  | addHead _ i | addTail _ i | delete _ i | deleteHead i | deleteTail i | moveHead _ i
  | moveTailToHead i => i

/-- The node that comes from outside. -/
def fresh : Op ι α → List α
  | addHead n _ | addTail n _ => [n]
  | delete .. | deleteHead _ | deleteTail _ | moveHead .. | moveTailToHead _ => []

/-- What the caller has to know: a node to add is in no list, a node to delete
or move is in the list, and there is something to delete. -/
def Ok (hd : ι → α) (f : ι → List α) : Op ι α → Prop
  | addHead n _ | addTail n _ => ∀ i, n ∉ hd i :: f i
  | delete x i | moveHead x i => x ∈ f i
  | deleteHead i | deleteTail i => f i ≠ []
  | moveTailToHead _ => True

section
variable [DecidableEq α]

def exec (hd : ι → α) (h : Heap α) : Op ι α → Option (Heap α)
  | addHead n i => listAddHead h n (hd i)
  | addTail n i => listAddTail h n (hd i)
  | delete x _ => listDelete h (some x)
  | deleteHead i => listDeleteHead h (hd i)
  | deleteTail i => listDeleteTail h (hd i)
  | moveHead x i => listMoveHead h (some x) (hd i)
  | moveTailToHead i => listMoveTailToHead h (hd i)

/-- The sequence of the list after the call. -/
def effect (xs : List α) : Op ι α → List α
  | addHead n _ => n :: xs
  | addTail n _ => xs ++ [n]
  | delete x _ => xs.erase x
  | deleteHead _ => xs.tail
  | deleteTail _ => xs.dropLast
  | moveHead x _ => x :: xs.erase x
  | moveTailToHead _ => xs.getLast?.toList ++ xs.dropLast

/-- The member that leaves the list. -/
def removed (xs : List α) : Op ι α → Option α
  | delete x _ => some x
  | deleteHead _ => xs.head?
  | deleteTail _ => xs.getLast?
  | addHead .. | addTail .. | moveHead .. | moveTailToHead _ => none

/-- The sequences of the pool after the call. -/
def apply [DecidableEq ι] (f : ι → List α) (o : Op ι α) : ι → List α :=
  Function.update f o.target (o.effect (f o.target))

theorem effect_subset (o : Op ι α) (xs : List α) (hm : ∀ x i, o = .moveHead x i → x ∈ xs) :
    o.effect xs ⊆ o.fresh ++ xs := by
  cases o with
  | addHead n i => exact fun a ha => ha
  | addTail n i =>
    intro a ha
    simp only [effect, fresh, List.mem_append, List.mem_singleton] at ha ⊢
    exact ha.symm
  | delete x i => exact List.erase_subset
  | deleteHead i => exact fun a ha => List.mem_of_mem_tail ha
  | deleteTail i => exact List.dropLast_subset xs
  | moveHead x i => exact List.cons_subset.mpr ⟨hm x i rfl, List.erase_subset⟩
  | moveTailToHead i =>
    refine List.append_subset.mpr ⟨fun a ha => ?_, List.dropLast_subset xs⟩
    exact List.mem_of_getLast? (Option.mem_toList.mp ha)

end

end Op

section
variable {hd : ι → α} {h h' : Heap α} {f : ι → List α}

/-- A node is added to no list that holds it already. -/
theorem Op.Ok.fresh {o : Op ι α} (ho : o.Ok hd f) : ∀ n ∈ o.fresh, ∀ i, n ∉ hd i :: f i := by
  cases o with
  | addHead n i => exact fun m hm => List.mem_singleton.mp hm ▸ ho
  | addTail n i => exact fun m hm => List.mem_singleton.mp hm ▸ ho
  | _ => exact fun m hm => absurd hm List.not_mem_nil

variable [DecidableEq α]

/-- What a call makes of the list it is called on. -/
theorem Op.exec_spec (hp : Pool hd h f) {o : Op ι α} (ho : o.Ok hd f) :
    ∃ h', o.exec hd h = some h' ∧ IsList h' (hd o.target) (o.effect (f o.target)) ∧
      Frame h h' (o.fresh ++ hd o.target :: f o.target) ∧
      ∀ x ∈ o.removed (f o.target), h' x = ⟨none, none⟩ := by
  have hl := hp.list o.target
  cases o with
  | addHead n i =>
    obtain ⟨h', e, hl', hf⟩ := listAddHead_spec hl (ho i)
    exact ⟨h', e, hl', hf, by simp [removed]⟩
  | addTail n i =>
    obtain ⟨h', e, hl', hf⟩ := listAddTail_spec hl (ho i)
    exact ⟨h', e, hl', hf, by simp [removed]⟩
  | delete x i =>
    obtain ⟨l, r, -, hxs, her⟩ := List.exists_erase_eq ho
    rw [hxs] at her
    simp only [target, effect, fresh, removed, exec, her, hxs, List.nil_append] at hl ⊢
    obtain ⟨h', e, hl', hx, hf⟩ := listDelete_spec hl
    exact ⟨h', e, hl', hf, by simpa using hx⟩
  | deleteHead i =>
    obtain ⟨x, xs, hxs⟩ := List.exists_cons_of_ne_nil ho
    simp only [target, effect, fresh, removed, exec, hxs, List.nil_append] at hl ⊢
    obtain ⟨h', e, hl', hx, hf⟩ := listDeleteHead_spec hl
    exact ⟨h', e, hl', hf, by simpa using hx⟩
  | deleteTail i =>
    obtain ⟨xs, x, hxs⟩ := (List.eq_nil_or_concat' (f i)).resolve_left ho
    simp only [target, effect, fresh, removed, exec, hxs, List.nil_append] at hl ⊢
    obtain ⟨h', e, hl', hx, hf⟩ := listDeleteTail_spec hl
    exact ⟨h', e, by simpa using hl', hf, by simpa using hx⟩
  | moveHead x i =>
    obtain ⟨l, r, -, hxs, her⟩ := List.exists_erase_eq ho
    rw [hxs] at her
    simp only [target, effect, fresh, removed, exec, her, hxs, List.nil_append] at hl ⊢
    obtain ⟨h', e, hl', hf⟩ := listMoveHead_spec hl
    exact ⟨h', e, hl', hf, by simp⟩
  | moveTailToHead i =>
    rcases List.eq_nil_or_concat' (f i) with hxs | ⟨xs, x, hxs⟩ <;>
      simp only [target, effect, fresh, removed, exec, hxs, List.nil_append] at hl ⊢
    · exact ⟨h, listMoveTailToHead_nil hl, hl, fun a _ => rfl, by simp⟩
    · obtain ⟨h', e, hl', hf⟩ := listMoveTailToHead_spec hl
      exact ⟨h', e, by simpa using hl', hf, by simp⟩

variable [DecidableEq ι]

omit [DecidableEq α] in
/-- Writing one list, whose new nodes come from outside, keeps the pool. -/
theorem Pool.update (hp : Pool hd h f) {i : ι} (new : List α) {ys : List α}
    (hnew : ∀ n ∈ new, ∀ j, n ∉ hd j :: f j)
    (hy : ys ⊆ new ++ f i) (hl : IsList h' (hd i) ys) (hf : Frame h h' (new ++ hd i :: f i)) :
    Pool hd h' (Function.update f i ys) := by
  have hout : ∀ j, j ≠ i → ∀ a ∈ hd j :: f j, a ∉ new ++ hd i :: f i := by
    intro j hj a ha hm
    rcases List.mem_append.mp hm with hm | hm
    · exact hnew a hm j ha
    · exact hp.apart j i hj ha hm
  have hys : ∀ j, j ≠ i → List.Disjoint (hd j :: f j) (hd i :: ys) := by
    refine fun j hj a ha hm => hout j hj a ha ?_
    rcases List.mem_cons.mp hm with rfl | hm
    · exact List.mem_append_right _ List.mem_cons_self
    · rcases List.mem_append.mp (hy hm) with hm | hm
      · exact List.mem_append_left _ hm
      · exact List.mem_append_right _ (List.mem_cons_of_mem _ hm)
  refine ⟨fun j => ?_, fun j k hjk => ?_⟩
  · by_cases hj : j = i
    · subst hj; rw [Function.update_self]; exact hl
    · rw [Function.update_of_ne hj]; exact hf.isList (hp.list j) (hout j hj)
  · by_cases hj : j = i <;> by_cases hk : k = i
    · exact absurd (hj.trans hk.symm) hjk
    · subst hj; rw [Function.update_self, Function.update_of_ne hk]; exact List.disjoint_comm.mp (hys k hk)
    · subst hk; rw [Function.update_self, Function.update_of_ne hj]; exact hys j hj
    · rw [Function.update_of_ne hj, Function.update_of_ne hk]; exact hp.apart j k hjk

/-- One call: the pool of the new sequences, and what stays as it was. -/
theorem Pool.step (hp : Pool hd h f) {o : Op ι α} (ho : o.Ok hd f) :
    ∃ h', o.exec hd h = some h' ∧ Pool hd h' (o.apply f) ∧
      (∀ x ∈ o.removed (f o.target), h' x = ⟨none, none⟩) ∧
      Frame h h' (o.fresh ++ hd o.target :: f o.target) := by
  obtain ⟨h', e, hl, hf, hx⟩ := Op.exec_spec hp ho
  refine ⟨h', e, hp.update o.fresh ho.fresh (o.effect_subset _ ?_) hl hf, hx, hf⟩
  rintro x i rfl
  exact ho

/-- The calls of `os` are allowed one after the other. -/
def Op.Oks (hd : ι → α) : (ι → List α) → List (Op ι α) → Prop
  | _, [] => True
  | f, o :: os => o.Ok hd f ∧ Op.Oks hd (o.apply f) os

/-- Every run of allowed calls works on the sequences. -/
theorem Pool.run (os : List (Op ι α)) {h : Heap α} {f : ι → List α} (hp : Pool hd h f)
    (ho : Op.Oks hd f os) :
    ∃ h', os.foldlM (fun h o => o.exec hd h) h = some h' ∧
      Pool hd h' (os.foldl (fun f o => o.apply f) f) := by
  induction os generalizing h f with
  | nil => exact ⟨h, rfl, hp⟩
  | cons o os ih =>
    obtain ⟨h1, e1, hp1, -⟩ := hp.step ho.1
    obtain ⟨h2, e2, hp2⟩ := ih hp1 ho.2
    exact ⟨h2, by rw [List.foldlM_cons, e1]; exact e2, hp2⟩

/-- The library refines finite sequences: on a pool of lists that share no node
every allowed call succeeds, makes of the sequence it is called on what the
sequence operation makes of it, and changes no link of another list or of any
node that is neither new nor in the list. A deleted node is left with `NULL`
links, and `list_empty` tells the empty sequence. -/
theorem lists_refine_seqs (hp : Pool hd h f) :
    (∀ i, listEmpty h (hd i) = true ↔ f i = []) ∧
    ∀ o : Op ι α, o.Ok hd f →
      ∃ h', o.exec hd h = some h' ∧ Pool hd h' (o.apply f) ∧
        (∀ x ∈ o.removed (f o.target), h' x = ⟨none, none⟩) ∧
        (∀ j, j ≠ o.target → o.apply f j = f j ∧ ∀ a ∈ hd j :: f j, h' a = h a) ∧
        ∀ a, a ∉ o.fresh ++ hd o.target :: f o.target → h' a = h a := by
  refine ⟨fun i => (hp.list i).empty_iff, fun o ho => ?_⟩
  obtain ⟨h', e, hp', hx, hf⟩ := hp.step ho
  refine ⟨h', e, hp', hx, fun j hj => ⟨Function.update_of_ne hj _ _, fun a ha => hf a fun hm => ?_⟩, hf⟩
  rcases List.mem_append.mp hm with hm | hm
  · exact ho.fresh a hm j ha
  · exact hp.apart j o.target hj ha hm

/-- Two lists, `2, 3` at the head 0 and nothing at the head 1: moving the tail to
the front of the first, and of the empty one. -/
theorem lists_refine_seqs_two :
    let h : Heap Nat := fun a => match a with
      | 0 => ⟨some 3, some 2⟩
      | 2 => ⟨some 0, some 3⟩
      | 3 => ⟨some 2, some 0⟩
      | a => ⟨some a, some a⟩
    (∃ h', listMoveTailToHead h 0 = some h' ∧ IsList h' 0 [3, 2]) ∧ listMoveTailToHead h 1 = some h := by
  intro h
  let hd : Bool → Nat := fun i => if i then 0 else 1
  have hp : Pool hd h (fun i => if i then [2, 3] else []) := by
    refine ⟨fun i => ?_, fun i j hij => ?_⟩
    · cases i with
      | true => exact ⟨by simp [Links.Link, h, hd], by decide⟩
      | false => exact Links.Circ.nil rfl rfl
    · cases i <;> cases j <;> simp_all [hd, List.Disjoint]
  obtain ⟨h1, e1, hp1, -⟩ := (lists_refine_seqs hp).2 (.moveTailToHead true) trivial
  exact ⟨⟨h1, e1, hp1.list true⟩, listMoveTailToHead_nil (hp.list false)⟩

end

end OpenSSDEmu.L2.List
