import OpenSSDEmu.Core.LTS

/-!
# Slots going round between a submitter and a server

The protocol the two slot lists of shared memory implement, without the
memory. A slot is taken from the FREE list, filled and put on the RDY list;
the server takes it from there with its command and either accepts the
command and returns the slot, or puts both back on the RDY list. Both lists
are FIFO.

* `step_cases`: everything a step can do.
* `step_progress`, `step_inOrder`: what it does to the commands that wait. Only
  putting back changes their order, and only if others wait.
* `fifo_step`, `Fifo.slot_free`: slots are handed out in the order in which they
  came back, so of `n` slots take number `n + k` is of the slot of acceptance
  number `k`.
-/
namespace OpenSSDEmu.L4
variable {α β : Type}

/-- What the server holds. -/
inductive Desk.Hand (α β : Type)
  | empty | got (i : α) (c : β) | free (i : α) | put (i : α) (c : β)

/-- `taken` is the slot in the submitter's hand. -/
structure Desk (α β : Type) where
  free : List α
  rdy : List (α × β)
  taken : Option α
  hand : Desk.Hand α β
  submitted : List β
  accepted : List (α × β)

namespace Desk

/-- The command in the server's hand, neither accepted nor put back. -/
def Hand.cmds : Hand α β → List β
  | .got _ c | .put _ c => [c]
  | _ => []

/-- The slot of an accepted command that is not back yet. -/
def Hand.freeing : Hand α β → List α
  | .free i => [i]
  | _ => []

inductive Act (β : Type) | take | put (c : β) | get | accept | refuse | giveBack | putBack

def step (d : Desk α β) : Act β → Option (Desk α β)
  | .take =>
    match d.taken, d.free with
    | none, i :: free => some { d with free := free, taken := some i }
    | _, _ => none
  | .put c =>
    match d.taken with
    | some i => some { d with taken := none, rdy := d.rdy ++ [(i, c)], submitted := d.submitted ++ [c] }
    | none => none
  | .get =>
    match d.hand, d.rdy with
    | .empty, (i, c) :: rdy => some { d with hand := .got i c, rdy := rdy }
    | _, _ => none
  | .accept =>
    match d.hand with
    | .got i c => some { d with hand := .free i, accepted := d.accepted ++ [(i, c)] }
    | _ => none
  | .refuse =>
    match d.hand with
    | .got i c => some { d with hand := .put i c }
    | _ => none
  | .giveBack =>
    match d.hand with
    | .free i => some { d with hand := .empty, free := d.free ++ [i] }
    | _ => none
  | .putBack =>
    match d.hand with
    | .put i c => some { d with hand := .empty, rdy := d.rdy ++ [(i, c)] }
    | _ => none

/-- Everything a step can do. -/
theorem step_cases {d d' : Desk α β} {a : Act β} (h : step d a = some d') :
    (∃ i free, a = .take ∧ d.taken = none ∧ d.free = i :: free ∧
        d' = { d with free := free, taken := some i }) ∨
      (∃ i c, a = .put c ∧ d.taken = some i ∧
        d' = { d with taken := none, rdy := d.rdy ++ [(i, c)], submitted := d.submitted ++ [c] }) ∨
      (∃ i c rdy, a = .get ∧ d.hand = .empty ∧ d.rdy = (i, c) :: rdy ∧
        d' = { d with hand := .got i c, rdy := rdy }) ∨
      (∃ i c, a = .accept ∧ d.hand = .got i c ∧
        d' = { d with hand := .free i, accepted := d.accepted ++ [(i, c)] }) ∨
      (∃ i c, a = .refuse ∧ d.hand = .got i c ∧ d' = { d with hand := .put i c }) ∨
      (∃ i, a = .giveBack ∧ d.hand = .free i ∧ d' = { d with hand := .empty, free := d.free ++ [i] }) ∨
      ∃ i c, a = .putBack ∧ d.hand = .put i c ∧
        d' = { d with hand := .empty, rdy := d.rdy ++ [(i, c)] } := by
  cases a with
  | take =>
    simp only [step] at h
    split at h
    · rename_i i free ht hf
      exact .inl ⟨i, free, rfl, ht, hf, by simpa using h.symm⟩
    · cases h
  | put c =>
    simp only [step] at h
    split at h
    · rename_i i ht
      exact .inr (.inl ⟨i, c, rfl, ht, by simpa using h.symm⟩)
    · cases h
  | get =>
    simp only [step] at h
    split at h
    · rename_i i c rdy hh hr
      exact .inr (.inr (.inl ⟨i, c, rdy, rfl, hh, hr, by simpa using h.symm⟩))
    · cases h
  | accept =>
    simp only [step] at h
    split at h
    · rename_i i c hh
      exact .inr (.inr (.inr (.inl ⟨i, c, rfl, hh, by simpa using h.symm⟩)))
    · cases h
  | refuse =>
    simp only [step] at h
    split at h
    · rename_i i c hh
      exact .inr (.inr (.inr (.inr (.inl ⟨i, c, rfl, hh, by simpa using h.symm⟩))))
    · cases h
  | giveBack =>
    simp only [step] at h
    split at h
    · rename_i i hh
      exact .inr (.inr (.inr (.inr (.inr (.inl ⟨i, rfl, hh, by simpa using h.symm⟩)))))
    · cases h
  | putBack =>
    simp only [step] at h
    split at h
    · rename_i i c hh
      exact .inr (.inr (.inr (.inr (.inr (.inr ⟨i, c, rfl, hh, by simpa using h.symm⟩)))))
    · cases h

/-! ## The order of the commands -/

/-- The commands accepted so far, those not accepted yet, first the one in
the server's hand and then the waiting ones, and those submitted so far. -/
structure Progress (β : Type) where
  accepted : List β
  waiting : List β
  submitted : List β
  deriving DecidableEq, Repr

def progress (d : Desk α β) : Progress β :=
  ⟨d.accepted.map Prod.snd, d.hand.cmds ++ d.rdy.map Prod.snd, d.submitted⟩

/-- A submission goes to the end of the line, an acceptance takes its first
command, and one that is refused goes to the end again. -/
inductive Progress.Step : Progress β → Progress β → Prop
  | same (p : Progress β) : Step p p
  | submit (a w s : List β) (c : β) : Step ⟨a, w, s⟩ ⟨a, w ++ [c], s ++ [c]⟩
  | accept (a w s : List β) (c : β) : Step ⟨a, c :: w, s⟩ ⟨a ++ [c], w, s⟩
  | requeue (a w s : List β) (c : β) : Step ⟨a, c :: w, s⟩ ⟨a, w ++ [c], s⟩

/-- Nobody was overtaken. -/
def Progress.InOrder (p : Progress β) : Prop := p.accepted ++ p.waiting = p.submitted

section
variable {d d' : Desk α β} {a : Act β}

theorem step_progress (h : step d a = some d') : Progress.Step d.progress d'.progress := by
  obtain ⟨i, free, -, -, -, rfl⟩ | ⟨i, c, -, -, rfl⟩ | ⟨i, c, rdy, -, hh, hr, rfl⟩ | ⟨i, c, -, hh, rfl⟩ |
    ⟨i, c, -, hh, rfl⟩ | ⟨i, -, hh, rfl⟩ | ⟨i, c, -, hh, rfl⟩ := step_cases h
  · exact .same _
  · have hp := Progress.Step.submit (d.accepted.map Prod.snd) (d.hand.cmds ++ d.rdy.map Prod.snd)
      d.submitted c
    simpa [progress] using hp
  · simpa [progress, Hand.cmds, hh, hr] using Progress.Step.same d.progress
  · have hp := Progress.Step.accept (d.accepted.map Prod.snd) (d.rdy.map Prod.snd) d.submitted c
    simpa [progress, Hand.cmds, hh] using hp
  · simpa [progress, Hand.cmds, hh] using Progress.Step.same d.progress
  · simpa [progress, Hand.cmds, hh] using Progress.Step.same d.progress
  · have hp := Progress.Step.requeue (d.accepted.map Prod.snd) (d.rdy.map Prod.snd) d.submitted c
    simpa [progress, Hand.cmds, hh] using hp

/-- Nobody is overtaken as long as commands are put back only when no other
waits. -/
theorem step_inOrder (h : step d a = some d') (ha : a = .putBack → d.rdy = [])
    (hi : d.progress.InOrder) : d'.progress.InOrder := by
  unfold Progress.InOrder progress at *
  obtain ⟨i, free, -, -, -, rfl⟩ | ⟨i, c, -, -, rfl⟩ | ⟨i, c, rdy, -, hh, hr, rfl⟩ | ⟨i, c, -, hh, rfl⟩ |
    ⟨i, c, -, hh, rfl⟩ | ⟨i, -, hh, rfl⟩ | ⟨i, c, hb, hh, rfl⟩ := step_cases h
  · exact hi
  · have := congrArg (· ++ [c]) hi
    simpa using this
  · simpa [Hand.cmds, hh, hr] using hi
  · simpa [Hand.cmds, hh] using hi
  · simpa [Hand.cmds, hh] using hi
  · simpa [Hand.cmds, hh] using hi
  · simpa [Hand.cmds, hh, ha hb] using hi

end

/-! ## The order of the slots -/

/-- The number of slots taken so far. -/
def takes (d : Desk α β) : Nat := d.submitted.length + d.taken.toList.length

/-- The slots to be taken next are the initial ones, then those of the
accepted commands, in order. -/
structure Fifo (init : List α) (d : Desk α β) : Prop where
  slots : d.free ++ d.hand.freeing = (init ++ d.accepted.map Prod.fst).drop d.takes
  le : d.takes ≤ init.length + d.accepted.length

section
variable {d d' : Desk α β} {a : Act β} {init : List α}

theorem fifo_step (h : step d a = some d') (hf : Fifo init d) : Fifo init d' := by
  have hs := hf.slots
  have hle := hf.le
  obtain ⟨i, free, -, ht, hfree, rfl⟩ | ⟨i, c, -, ht, rfl⟩ | ⟨i, c, rdy, -, hh, hr, rfl⟩ |
    ⟨i, c, -, hh, rfl⟩ | ⟨i, c, -, hh, rfl⟩ | ⟨i, -, hh, rfl⟩ | ⟨i, c, -, hh, rfl⟩ := step_cases h
  · -- the first of the list is taken
    rw [hfree, List.cons_append] at hs
    have htakes : d.takes = d.submitted.length := by simp [takes, ht]
    rw [htakes] at hs
    have hlt : d.submitted.length < (init ++ d.accepted.map Prod.fst).length := by
      refine Nat.lt_of_not_le fun hge => ?_
      rw [List.drop_eq_nil_of_le hge] at hs
      cases hs
    refine ⟨?_, ?_⟩
    · have := congrArg List.tail hs
      rwa [List.tail_cons, List.tail_drop] at this
    · rw [List.length_append, List.length_map] at hlt
      simpa [takes] using Nat.succ_le_of_lt hlt
  · exact ⟨by simpa [takes, ht] using hs, by simpa [takes, ht] using hle⟩
  · exact ⟨by simpa [takes, Hand.freeing, hh] using hs, hle⟩
  · -- the slot of the accepted command will be the last
    have hlen : d.takes ≤ (init ++ d.accepted.map Prod.fst).length := by simpa using hle
    rw [hh] at hs
    refine ⟨?_, ?_⟩
    · show d.free ++ [i] = (init ++ (d.accepted ++ [(i, c)]).map Prod.fst).drop d.takes
      rw [List.map_append, ← List.append_assoc, List.drop_append_of_le_length hlen, ← hs]
      simp [Hand.freeing]
    · rw [List.length_append]
      exact Nat.le_succ_of_le hle
  · exact ⟨by simpa [takes, Hand.freeing, hh] using hs, hle⟩
  · exact ⟨by simpa [takes, Hand.freeing, hh] using hs, hle⟩
  · exact ⟨by simpa [takes, Hand.freeing, hh] using hs, hle⟩

/-- Only a take is counted. -/
theorem takes_step (h : step d a = some d') :
    (a = .take ∧ d.takes = d.submitted.length ∧ d'.takes = d.takes + 1 ∧ d'.accepted = d.accepted) ∨
      d'.takes = d.takes := by
  obtain ⟨i, free, ha, ht, -, rfl⟩ | ⟨i, c, -, ht, rfl⟩ | ⟨i, c, rdy, -, -, -, rfl⟩ | ⟨i, c, -, -, rfl⟩ |
    ⟨i, c, -, -, rfl⟩ | ⟨i, -, -, rfl⟩ | ⟨i, c, -, -, rfl⟩ := step_cases h
  · exact .inl ⟨ha, by simp [takes, ht], by simp [takes, ht], rfl⟩
  · exact .inr (by simp [takes, ht])
  · exact .inr rfl
  · exact .inr rfl
  · exact .inr rfl
  · exact .inr rfl
  · exact .inr rfl

/-- While the slots go round, that of acceptance number `k` is still free, or
about to be, until take number `init.length + k`. -/
theorem Fifo.slot_free (h : Fifo init d) {k : Nat} (hk : k < d.accepted.length)
    (ht : d.takes ≤ init.length + k) :
    (d.free ++ d.hand.freeing)[init.length + k - d.takes]? = some (d.accepted[k]).1 := by
  rw [h.slots, List.getElem?_drop, show d.takes + (init.length + k - d.takes) = init.length + k by omega,
    List.getElem?_append_right (by omega), Nat.add_sub_cancel_left, List.getElem?_map,
    List.getElem?_eq_getElem hk]
  rfl

end

end Desk

end OpenSSDEmu.L4
