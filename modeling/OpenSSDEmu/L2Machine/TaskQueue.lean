/-!
# The task queue ring

`ftl/ftl_taskqueue.c:65-139`. One queue is a ring of `TASK_QUEUE_MAX`
pointers with 8-bit `head` and `tail` and a 16-bit `cnt`. Head and tail
coincide both when the ring is empty and when it is full; only `cnt` tells
the two apart. The element type is arbitrary (the source stores
`host_cmd_entry *`); `none` in a ring position is `NULL`.

`Rep q xs` relates a ring to the FIFO list it stands for. `addTail_spec`,
`addTail_full`, `removeHead_cons` and `removeHead_nil` say that the two
operations are those of a bounded FIFO, across any number of wrap-arounds.
-/
namespace OpenSSDEmu.L2

/-- mirrors src/ftl/ftl_taskqueue.h:10-19; `status` and `func` are fixed per
queue and left to the caller. -/
structure TaskQueue (α : Type) where
  head : UInt8
  tail : UInt8
  cnt : UInt16
  queue : Nat → Option α

namespace TaskQueue
variable {α : Type}

/-- mirrors src/ftl/ftl_taskqueue.h:7 -/
def TASK_QUEUE_MAX : Nat := 256

/-- mirrors src/ftl/ftl_taskqueue.c:38-44 -/
def init : TaskQueue α := ⟨0, 0, 0, fun _ => none⟩

/-- mirrors src/ftl/ftl_taskqueue.c:65-68 -/
def isEmpty (q : TaskQueue α) : Bool := q.cnt.toNat == 0

/-- mirrors src/ftl/ftl_taskqueue.c:78-81 -/
def isFull (q : TaskQueue α) : Bool := q.cnt.toNat == TASK_QUEUE_MAX

/-- mirrors src/ftl/ftl_taskqueue.c:92-109 -/
def removeHead (q : TaskQueue α) : Option α × TaskQueue α :=
  if isEmpty q then (none, q)
  else
    let oldHead := q.head
    let newHead := UInt8.ofNat ((oldHead.toNat + 1) % TASK_QUEUE_MAX)
    (q.queue oldHead.toNat, { q with cnt := q.cnt - 1, head := newHead })

/-- `true` = `SUCCESS`.
mirrors src/ftl/ftl_taskqueue.c:120-139 -/
def addTail (q : TaskQueue α) (x : α) : Bool × TaskQueue α :=
  if isFull q then (false, q)
  else
    let oldTail := q.tail
    let newTail := UInt8.ofNat ((oldTail.toNat + 1) % TASK_QUEUE_MAX)
    (true, { q with cnt := q.cnt + 1, tail := newTail,
                    queue := fun j => if j = oldTail.toNat then some x else q.queue j })

/-- The ring positions in use, oldest first. -/
def contents (q : TaskQueue α) : List (Option α) :=
  (List.range q.cnt.toNat).map fun k => q.queue ((q.head.toNat + k) % TASK_QUEUE_MAX)

/-- The ring `q` stands for the FIFO list `xs`. -/
structure Rep (q : TaskQueue α) (xs : List α) : Prop where
  cnt : q.cnt.toNat = xs.length
  le : xs.length ≤ TASK_QUEUE_MAX
  tail : q.tail.toNat = (q.head.toNat + xs.length) % TASK_QUEUE_MAX
  item : ∀ k (hk : k < xs.length), q.queue ((q.head.toNat + k) % TASK_QUEUE_MAX) = some xs[k]

theorem rep_init : Rep (init : TaskQueue α) [] := by
  refine ⟨rfl, by simp, by simp [init], fun k hk => by simp at hk⟩

theorem Rep.contents_eq {q : TaskQueue α} {xs : List α} (h : Rep q xs) :
    contents q = xs.map some := by
  apply List.ext_getElem
  · simp [contents, h.cnt]
  · intro k h1 h2
    have hk : k < xs.length := by simpa using h2
    simp [contents, h.item k hk]

theorem Rep.isEmpty_iff {q : TaskQueue α} {xs : List α} (h : Rep q xs) :
    isEmpty q = true ↔ xs = [] := by
  simp [isEmpty, h.cnt]

theorem Rep.isFull_iff {q : TaskQueue α} {xs : List α} (h : Rep q xs) :
    isFull q = true ↔ xs.length = TASK_QUEUE_MAX := by
  simp [isFull, h.cnt]

/-- Distinct offsets below the ring size are distinct positions. -/
theorem pos_ne {a i j : Nat} (hi : i < j) (hj : j < TASK_QUEUE_MAX) :
    (a + i) % TASK_QUEUE_MAX ≠ (a + j) % TASK_QUEUE_MAX := by
  unfold TASK_QUEUE_MAX at *; omega

theorem succ_toNat (b : UInt8) :
    (UInt8.ofNat ((b.toNat + 1) % TASK_QUEUE_MAX)).toNat = (b.toNat + 1) % TASK_QUEUE_MAX := by
  simp [TASK_QUEUE_MAX]

/-- A queue with room takes the element at its tail. -/
theorem addTail_spec {q : TaskQueue α} {xs : List α} (h : Rep q xs) (x : α)
    (hlt : xs.length < TASK_QUEUE_MAX) :
    (addTail q x).1 = true ∧ Rep (addTail q x).2 (xs ++ [x]) := by
  have hf : ¬ isFull q = true := fun e => by have := h.isFull_iff.mp e; omega
  have ht := h.tail
  simp only [addTail, hf]
  refine ⟨rfl, ?_, by simpa using Nat.succ_le_of_lt hlt, ?_, fun k hk => ?_⟩
  · have := h.cnt
    simp only [Bool.false_eq_true, if_false, UInt16.toNat_add, UInt16.toNat_one,
      List.length_append, List.length_cons, List.length_nil]
    unfold TASK_QUEUE_MAX at hlt; omega
  · simp only [Bool.false_eq_true, if_false, List.length_append, List.length_cons,
      List.length_nil]
    rw [succ_toNat, ht]; unfold TASK_QUEUE_MAX; omega
  · simp only [Bool.false_eq_true, if_false, ht]
    simp only [List.length_append, List.length_cons, List.length_nil] at hk
    by_cases hkl : k = xs.length
    · subst hkl; simp
    · have hk' : k < xs.length := by omega
      rw [if_neg (pos_ne hk' hlt), h.item k hk', List.getElem_append_left hk']

/-- A full queue refuses and is left as it was. -/
theorem addTail_full {q : TaskQueue α} {xs : List α} (h : Rep q xs) (x : α)
    (hfull : xs.length = TASK_QUEUE_MAX) : addTail q x = (false, q) := by
  simp [addTail, h.isFull_iff.mpr hfull]

theorem removeHead_nil {q : TaskQueue α} (h : Rep q []) : removeHead q = (none, q) := by
  simp [removeHead, h.isEmpty_iff.mpr rfl]

/-- A queue that is not empty gives its oldest element. -/
theorem removeHead_cons {q : TaskQueue α} {x : α} {xs : List α} (h : Rep q (x :: xs)) :
    (removeHead q).1 = some x ∧ Rep (removeHead q).2 xs := by
  have he : ¬ isEmpty q = true := fun e => by cases h.isEmpty_iff.mp e
  have hc := h.cnt
  have hle := h.le
  have ht := h.tail
  simp only [List.length_cons] at hc hle ht
  simp only [removeHead, he, Bool.false_eq_true, if_false]
  have hhd : q.head.toNat % TASK_QUEUE_MAX = q.head.toNat :=
    Nat.mod_eq_of_lt q.head.toNat_lt
  refine ⟨?_, ?_, by omega, ?_, fun k hk => ?_⟩
  · have := h.item 0 (by simp)
    simpa [hhd] using this
  · have h1 : (1 : UInt16) ≤ q.cnt := by
      rw [UInt16.le_iff_toNat_le, UInt16.toNat_one]; omega
    rw [UInt16.toNat_sub_of_le _ _ h1, UInt16.toNat_one]; omega
  · simp only [succ_toNat, ht]; unfold TASK_QUEUE_MAX; omega
  · have := h.item (k + 1) (by simpa using hk)
    simp only [succ_toNat]
    rw [show ((q.head.toNat + 1) % TASK_QUEUE_MAX + k) % TASK_QUEUE_MAX =
      (q.head.toNat + (k + 1)) % TASK_QUEUE_MAX by unfold TASK_QUEUE_MAX; omega, this]
    simp

end TaskQueue

end OpenSSDEmu.L2
