import OpenSSDEmu.Core.LTS
import OpenSSDEmu.L4Pipeline.Handlers

/-!
# The six task queues

The queues of the device under any sequence of `FTL_sendhcmd` and
`FTL_task_queue_remove_head` calls, from `FTL_int_task_queue` on. `QueueOp.fifo`
is what a call means for six FIFO lists that hold at most `TASK_QUEUE_MAX`
commands each; the rings answer every call as the lists do.
-/
namespace OpenSSDEmu.L4.Pipeline
open L2.Hcl L2.TaskQueue

/-- mirrors src/ftl/ftl_taskqueue.c:32-55 -/
def intTaskQueue (d : Dev) : Dev := { d with tq := fun _ => L2.TaskQueue.init }

/-- mirrors src/ftl/ftl_taskqueue.c:92-109 -/
def taskQueueRemoveHead (d : Dev) (s : Status) : Option Nat × Dev :=
  let (hcmd, q) := removeHead (d.tq s)
  (hcmd, { d with tq := fun t => if t = s then q else d.tq t })

inductive QueueOp
  | send (hcmd : Nat) (s : Status)
  | remove (s : Status)

inductive QueueReply
  | sent (ok : Bool)
  | removed (hcmd : Option Nat)

def QueueOp.status : QueueOp → Status
  | send _ s | remove s => s

def QueueOp.exec (d : Dev) : QueueOp → QueueReply × Dev
  | send i s => (.sent (sendhcmd d i s).1, (sendhcmd d i s).2)
  | remove s => (.removed (taskQueueRemoveHead d s).1, (taskQueueRemoveHead d s).2)

/-- The call on bounded FIFO lists. -/
def QueueOp.fifo (f : Status → List Nat) : QueueOp → QueueReply × (Status → List Nat)
  | send i s =>
    if (f s).length < TASK_QUEUE_MAX then (.sent true, Function.update f s (f s ++ [i]))
    else (.sent false, f)
  | remove s => (.removed (f s).head?, Function.update f s (f s).tail)

/-- The rings of `d` stand for the lists `f`. -/
def Rings (d : Dev) (f : Status → List Nat) : Prop := ∀ s, Rep (d.tq s) (f s)

section
variable {d : Dev} {f : Status → List Nat} {q : L2.TaskQueue Nat} {xs : List Nat} {s : Status}

theorem rings_init : Rings (intTaskQueue d) fun _ => [] := fun _ => rep_init

/-- Writing back the ring of one queue. -/
theorem Rings.update (h : Rings d f) (hq : Rep q xs) :
    Rings { d with tq := fun t => if t = s then q else d.tq t } (Function.update f s xs) := by
  intro t
  by_cases ht : t = s
  · subst ht
    simpa using hq
  · simpa [ht] using h t

theorem sendhcmd_room (h : Rings d f) (i : Nat) (hl : (f s).length < TASK_QUEUE_MAX) :
    (sendhcmd d i s).1 = true ∧ Rings (sendhcmd d i s).2 (Function.update f s (f s ++ [i])) := by
  obtain ⟨hok, hrep⟩ := addTail_spec (h s) i hl
  exact ⟨hok, h.update hrep⟩

theorem tq_restore : { d with tq := fun t => if t = s then d.tq s else d.tq t } = d := by
  have htq : (fun t => if t = s then d.tq s else d.tq t) = d.tq := by
    funext t
    split
    · rename_i e; rw [e]
    · rfl
  rw [htq]

/-- A full queue refuses and nothing changes. -/
theorem sendhcmd_full (h : Rings d f) (i : Nat) (hl : (f s).length = TASK_QUEUE_MAX) :
    sendhcmd d i s = (false, d) := by
  simp only [sendhcmd, addTail_full (h s) i hl, tq_restore]

theorem taskQueueRemoveHead_spec (h : Rings d f) :
    (taskQueueRemoveHead d s).1 = (f s).head? ∧
      Rings (taskQueueRemoveHead d s).2 (Function.update f s (f s).tail) := by
  have hs := h s
  cases hxs : f s with
  | nil =>
    rw [hxs] at hs
    rw [taskQueueRemoveHead, removeHead_nil hs]
    exact ⟨rfl, h.update hs⟩
  | cons x xs =>
    rw [hxs] at hs
    obtain ⟨hx, hrep⟩ := removeHead_cons hs
    exact ⟨hx, h.update hrep⟩

/-- One call is answered as by the lists and keeps the rings those of the lists. -/
theorem QueueOp.exec_fifo (h : Rings d f) (o : QueueOp) :
    (o.exec d).1 = (o.fifo f).1 ∧ Rings (o.exec d).2 (o.fifo f).2 := by
  cases o with
  | send i s =>
    by_cases hl : (f s).length < TASK_QUEUE_MAX
    · obtain ⟨hok, hr⟩ := sendhcmd_room h i hl
      simp only [exec, fifo, hl, if_true, hok]
      exact ⟨trivial, hr⟩
    · have hfull : (f s).length = TASK_QUEUE_MAX := Nat.le_antisymm (h s).le (Nat.le_of_not_lt hl)
      simp only [exec, fifo, hl, if_false, sendhcmd_full h i hfull]
      exact ⟨trivial, h⟩
  | remove s =>
    obtain ⟨hx, hr⟩ := taskQueueRemoveHead_spec (s := s) h
    exact ⟨congrArg QueueReply.removed hx, hr⟩

theorem QueueOp.exec_other (o : QueueOp) {t : Status} (ht : t ≠ o.status) : (o.exec d).2.tq t = d.tq t := by
  cases o <;> exact if_neg ht

end

/-- The rings refine bounded FIFO lists: after any calls from the initial queues
on, every reply was that of the lists; a removal gives the oldest command, and
`NULL` only if there is none; a send fails exactly on a list of
`TASK_QUEUE_MAX` commands and then changes nothing; a call on one queue leaves
the others as they are; and `head`, `tail` and `cnt` agree. -/
theorem queues_refine_fifo (d : Dev) (os : List QueueOp) :
    let run := serve QueueOp.exec (intTaskQueue d) os
    let lists := serve QueueOp.fifo (fun _ => []) os
    let d' := run.2
    let f := lists.2
    run.1 = lists.1 ∧
      (∀ s, contents (d'.tq s) = (f s).map some ∧ (taskQueueRemoveHead d' s).1 = (f s).head? ∧
        ((taskQueueRemoveHead d' s).1 = none ↔ f s = [])) ∧
      (∀ i s, ((sendhcmd d' i s).1 = false ↔ (f s).length = TASK_QUEUE_MAX) ∧
        ((f s).length = TASK_QUEUE_MAX → (sendhcmd d' i s).2 = d')) ∧
      (∀ (o : QueueOp) t, t ≠ o.status → (o.exec d').2.tq t = d'.tq t) ∧
      ∀ s, ((d'.tq s).head.toNat + (d'.tq s).cnt.toNat) % 256 = (d'.tq s).tail.toNat ∧
        (d'.tq s).cnt.toNat ≤ TASK_QUEUE_MAX := by
  obtain ⟨hreplies, hr⟩ := serve_refines (f := QueueOp.exec) (g := QueueOp.fifo) (p := fun _ _ => True)
    (fun _ _ o h _ => QueueOp.exec_fifo h o) (rings_init (d := d)) (allowed_of_forall (fun _ _ =>
      trivial) _ os)
  refine ⟨hreplies, fun s => ⟨(hr s).contents_eq, ?_, ?_⟩,
    fun i s => ⟨⟨fun hf => ?_, fun hl => ?_⟩, fun hl => ?_⟩,
    fun o t ht => o.exec_other ht, fun s => ⟨?_, ?_⟩⟩
  · exact (taskQueueRemoveHead_spec hr).1
  · rw [(taskQueueRemoveHead_spec hr).1, List.head?_eq_none_iff]
  · by_contra hne
    have hlt := Nat.lt_of_le_of_ne (hr s).le hne
    rw [(sendhcmd_room hr i hlt).1] at hf
    cases hf
  · rw [sendhcmd_full hr i hl]
  · rw [sendhcmd_full hr i hl]
  · rw [(hr s).tail, (hr s).cnt]; rfl
  · rw [(hr s).cnt]; exact (hr s).le

end OpenSSDEmu.L4.Pipeline
