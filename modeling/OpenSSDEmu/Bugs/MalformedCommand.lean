import OpenSSDEmu.Bugs.LeakedCommand
import OpenSSDEmu.L4Pipeline.Acceptance

/-!
# A malformed command keeps its entry

`FTL_nvme_req_polling` reports a command that is neither a read nor a write
("get wrong cmd from shm", src/ftl/ftl_nvme.c:79) and goes on with it: the
entry is filled and sent to the cache check, its slot is given back.
`op_code` is left as the recycled entry has it, which is 0, neither
`HCE_READ` nor `HCE_WRITE`; `FTL_handle_checkcache` (src/ftl/ftl_core0.c:67-76)
sends the command on for these two only and has no other branch. No queue
holds the entry then and nothing reclaims it.

Counterexample (`wrong_cmd_stays`): one command with `ops` 3.

Holds when: never.

A malformed command is one that does not fit (`Bugs.LeakedCommand`).

* `exists_quiet`: any commands of which fewer than 256 do not fit can be run
  to their end.
* `malformed_leaves_entry`: a malformed command costs one entry, whatever was
  accepted before it and after it.
-/
namespace OpenSSDEmu.Bugs.MalformedCommand
open L2.Hcl L2.Shmem
open L4.Pipeline
open LeakedCommand (Fits allocated_eq exists_served)

/-- mirrors src/ftl/ftl_nvme.c:71-80 (the branch that reports it) -/
def Malformed (c : HostCmd) : Prop := c.ops ≠ SHM_READ_OPS ∧ c.ops ≠ SHM_WRITE_OPS

/-- The commands of a list of acceptances. -/
def cmds (accs : List Acc) : List HostCmd := accs.map fun a => a.cmd

/-- A run without the command: the same others were accepted, and nothing is
left to do. -/
structure Without (mb : BitVec 32) (others : List HostCmd) (s : Sys) : Prop where
  reach : (sys mb).Reachable s
  quiet : quiet s = true
  cmds : cmds s.accs = others

/-- The slot of `a` is free again, and as many entries are in use as without
it. -/
structure NoTrace (mb : BitVec 32) (s : Sys) (a : Acc) (others : List HostCmd) : Prop where
  slot : a.entry.nvmeCmdSlot.toNat ∈ slotsOf s.shm .free
  entries : ∀ s', Without mb others s' → allocated s.dev.hcl = allocated s'.dev.hcl

/-- One command with `ops` 3, up to its cache check. -/
def wrongSchedule : List Lbl := submit 0 ⟨3, 20, 16384⟩ ++ List.replicate 13 .ftl

/-- The run of `wrongSchedule`, at its end. -/
theorem exists_wrong : ∃ s a, (sys 0).Reachable s ∧ quiet s = true ∧ s.accs = [a] ∧ Malformed a.cmd ∧
    allocated s.dev.hcl = 1 := by
  obtain ⟨s, hr, hs⟩ := exists_run 0
    (P := fun s => quiet s && decide (cmds s.accs = [⟨3, 20, 16384⟩]) && decide (allocated s.dev.hcl = 1))
    wrongSchedule (by decide +kernel)
  simp only [Bool.and_eq_true, decide_eq_true_eq] at hs
  obtain ⟨⟨hq, hc⟩, hl⟩ := hs
  obtain ⟨a, ha, hcmd⟩ := List.map_eq_singleton_iff.mp hc
  exact ⟨s, a, hr, hq, ha, by rw [hcmd]; exact ⟨by decide, by decide⟩, hl⟩

section
variable {mb : BitVec 32} {s : Sys} {pre post : List Acc} {a : Acc}

theorem Malformed.not_fits {c : HostCmd} (h : Malformed c) : ¬ Fits c := fun hf =>
  hf.1.elim h.1 h.2

/-- The same commands can be run on their own. -/
theorem exists_quiet (mb : BitVec 32) (cs : List HostCmd)
    (h : (cs.countP fun c => ¬ Fits c) < HCMD_NUM) : ∃ s, Without mb cs s := by
  obtain ⟨s, d, hs, hq, hd⟩ := exists_served mb cs h
  obtain ⟨_, hI⟩ := hs.desk
  exact ⟨s, hs.reach, hq, hI.accs_cmds.trans hd⟩

/-- For every reachable state with nothing left to do and every malformed
command accepted on the way there: the others can be run without it, and then
exactly one entry less is in use. -/
theorem malformed_leaves_entry (hr : (sys mb).Reachable s) (hq : quiet s = true)
    (ha : s.accs = pre ++ a :: post) (hm : Malformed a.cmd) :
    ¬ NoTrace mb s a (cmds (pre ++ post)) ∧
      (∃ s', Without mb (cmds (pre ++ post)) s') ∧
      ∀ s', Without mb (cmds (pre ++ post)) s' → allocated s.dev.hcl = allocated s'.dev.hcl + 1 := by
  have hcount : allocated s.dev.hcl = (cmds (pre ++ post)).countP (fun c => ¬ Fits c) + 1 := by
    rw [allocated_eq hr hq, ha]
    simp only [cmds, List.map_append, List.map_cons, List.countP_append, List.countP_cons,
      hm.not_fits, not_false_eq_true, decide_true, if_true]
    omega
  have hless : ∀ s', Without mb (cmds (pre ++ post)) s' → allocated s.dev.hcl = allocated s'.dev.hcl + 1 :=
    fun s' h' => by rw [hcount, allocated_eq h'.reach h'.quiet, ← h'.cmds, cmds]
  obtain ⟨s', h'⟩ := exists_quiet mb (cmds (pre ++ post)) (by have := allocated_le s.dev.hcl; omega)
  refine ⟨fun hno => ?_, ⟨s', h'⟩, hless⟩
  have h1 := hno.entries s' h'
  have h2 := hless s' h'
  omega

end

theorem malformed_leaves_entry_one : ∃ s a, (sys 0).Reachable s ∧ quiet s = true ∧ s.accs = [a] ∧
    Malformed a.cmd ∧ ¬ NoTrace 0 s a [] ∧ (∃ s', Without 0 [] s') ∧
    ∀ s', Without 0 [] s' → allocated s.dev.hcl = allocated s'.dev.hcl + 1 := by
  obtain ⟨s, a, hr, hq, ha, hm, -⟩ := exists_wrong
  exact ⟨s, a, hr, hq, ha, hm, malformed_leaves_entry hr hq (show s.accs = [] ++ a :: [] from ha) hm⟩

/-- **Counterexample**: the command costs an entry; without it nothing was
accepted and none is in use. -/
theorem wrong_cmd_stays : ¬ ∀ (s : Sys) (pre post : List Acc) (a : Acc), (sys 0).Reachable s →
    quiet s = true → s.accs = pre ++ a :: post → Malformed a.cmd → NoTrace 0 s a (cmds (pre ++ post)) := by
  intro hall
  obtain ⟨s, a, hr, hq, ha, hm, hl⟩ := exists_wrong
  obtain ⟨s', hr', hs'⟩ := exists_run 0
    (P := fun s => quiet s && decide (s.accs = []) &&
      decide (allocated s.dev.hcl = 0)) [] (by decide +kernel)
  simp only [Bool.and_eq_true, decide_eq_true_eq] at hs'
  obtain ⟨⟨hq', ha'⟩, hl'⟩ := hs'
  have h := (hall s [] [] a hr hq ha hm).entries s' ⟨hr', hq', by rw [ha']; rfl⟩
  rw [hl, hl'] at h
  cases h

end OpenSSDEmu.Bugs.MalformedCommand
