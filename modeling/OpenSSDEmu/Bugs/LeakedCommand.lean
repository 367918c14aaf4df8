import OpenSSDEmu.L4Pipeline.Drain

/-!
# A command that is not of one page leaks its entry

`FTL_nvme_req_polling` sets `req_num` to the number of 16 KB pages of the
command, rounded down (`ftl/ftl_nvme.c:83-90`). `FTL_handle_tosq` sends one
request whatever the size (`ftl/ftl_core0.c:91`, `buf_cnt = 1`), and
`FTL_CQ_polling` moves a command on when `cpl_cnt == req_num`
(`ftl/ftl_core1.c:86`). One completion arrives, so a command below 16 KB
(`req_num` 0) and one of 32 KB or more (`req_num` 2 and up) never reaches
`FTL_handle_finish` and its entry stays allocated; after 256 of them no
command is accepted any more.

* `four_kb_read_leaks`: one 4 KB read, run until nothing is left to do.
* `drained_iff`: with nothing left to do, every entry is back exactly if all
  accepted commands were reads or writes of one page.
* `allocated_eq`: in general as many entries are in use then as accepted
  commands did not fit.
* `exists_served`: any commands can be run to their end one after the other,
  as long as they leave an entry for the next.
-/
namespace OpenSSDEmu.Bugs.LeakedCommand
open L2.Hcl L2.Shmem L2.TaskQueue
open L4.Pipeline
open L4.Jobs (Job Net Inv Place)

/-- Nothing waits, nothing is queued, nothing is outstanding. -/
def quiescent (s : Sys) : Bool :=
  shmListEmpty s.shm .rdy && statuses.all (fun q => isEmpty (s.dev.tq q)) &&
    s.dev.registerList.isEmpty && s.dev.completeList.isEmpty && decide (s.be = .idle)

/-- Every entry is free and every accepted command went through
`FTL_handle_finish`. -/
def Drained (s : Sys) : Prop :=
  (∀ i, i < HCMD_NUM → bit s.dev.hcl i = false) ∧
    ∀ a ∈ s.accs, ∃ e ∈ s.log, e.kind = .finish ∧ e.job = some a.toJob

/-- The condition under which the three counts agree. -/
def Fits (c : HostCmd) : Prop := (c.ops = SHM_READ_OPS ∨ c.ops = SHM_WRITE_OPS) ∧ onePage c

instance : DecidablePred Fits := fun _ => inferInstanceAs (Decidable ((_ ∨ _) ∧ _ ∧ _))

section
variable {mb : BitVec 32} {s : Sys} {n : Net}

theorem quiet_of_quiescent (hq : quiescent s = true) : quiet s = true := by
  simp only [quiescent, Bool.and_eq_true] at hq
  obtain ⟨⟨⟨⟨-, hring⟩, hreg⟩, hcpl⟩, hbe⟩ := hq
  simp only [quiet, hring, hreg, hcpl, hbe, Bool.and_self]

theorem fits_iff {j : Job} : Fits j.cmd ↔ (j.isWrite = true ∨ j.isRead = true) ∧ j.reqNum = 1 := by
  simp [Fits, reqNum_eq_one, Job.isWrite, Job.isRead, or_comm]

/-- With nothing queued and nothing outstanding the live jobs are those that
do not fit. -/
theorem mem_live_iff (hI : Inv n) (h : Sim s n) (hq : quiet s = true) {j : Job} :
    j ∈ n.live ↔ j ∈ n.accepted ∧ ¬ Fits j.cmd := by
  constructor
  · intro hj
    obtain ⟨hin, hpath⟩ := hI.tracked.here .stranded j (stranded_of_quiet h hq hj)
    refine ⟨hin, fun hfit => ?_⟩
    obtain ⟨hk, h1⟩ := fits_iff.mp hfit
    rcases hpath.at with ⟨hw, hr, -⟩ | ⟨-, h1'⟩
    · simp [hw, hr] at hk
    · exact h1' h1
  · intro hx
    obtain ⟨hin, hfit⟩ := hx
    rcases hI.tracked.gone j hin with hp | hp
    · exact L4.Jobs.mem_live.mpr hp
    · exact absurd (fits_iff.mpr ⟨hp.at.1.known, hp.at.2⟩) hfit

/-- What fits is finished. -/
theorem finished_of_fits (hI : Inv n) (h : Sim s n) (hq : quiet s = true) {a : Acc} (ha : a ∈ s.accs)
    (hf : Fits a.cmd) : ∃ e ∈ s.log, e.kind = .finish ∧ e.job = some a.toJob := by
  have hin : a.toJob ∈ n.accepted := h.accs ▸ List.mem_map_of_mem ha
  have hp := (hI.tracked.gone a.toJob hin).resolve_left fun ⟨p, hp⟩ =>
    ((mem_live_iff hI h hq).mp (L4.Jobs.mem_live.mpr ⟨p, hp⟩)).2 hf
  have hfin : .finish ∈ s.events a.toJob := by
    rw [h.events]
    rcases hp.at.1 with ⟨-, e⟩ | ⟨-, e⟩ <;> rw [e] <;> decide
  obtain ⟨e, he, hk⟩ := List.mem_map.mp hfin
  rw [List.mem_filter, decide_eq_true_eq] at he
  exact ⟨e, he.1, hk, he.2⟩

/-- What does not fit is what is in use in the end. -/
theorem allocated_eq (hr : (sys mb).Reachable s) (hq : quiet s = true) :
    allocated s.dev.hcl = (s.accs.map fun a => a.cmd).countP fun c => ¬ Fits c := by
  obtain ⟨n, hI, h⟩ := reachable_sim hr
  have hp : n.live.Perm (n.accepted.filter fun j => ¬ Fits j.cmd) := by
    refine (List.perm_ext_iff_of_nodup hI.live.jobs_nodup (hI.tracked.accepted_nodup.filter _)).mpr fun j => ?_
    rw [mem_live_iff hI h hq, List.mem_filter, decide_eq_true_eq]
  have hc : s.accs.map (fun a => a.cmd) = n.accepted.map Job.cmd := by
    rw [← h.accs, List.map_map]
    rfl
  rw [h.allocated hI, hp.length_eq, ← List.countP_eq_length_filter, hc, List.countP_map]
  rfl

/-- **Leak condition.** -/
theorem drained_iff (hr : (sys mb).Reachable s) (hq : quiescent s = true) :
    Drained s ↔ ∀ a ∈ s.accs, Fits a.cmd := by
  obtain ⟨n, hI, h⟩ := reachable_sim hr
  have hacc : ∀ a ∈ s.accs, a.toJob ∈ n.accepted := fun a ha => h.accs ▸ List.mem_map_of_mem ha
  have hiff := fun j => mem_live_iff hI h (quiet_of_quiescent hq) (j := j)
  constructor
  · intro hx a ha
    obtain ⟨hbits, -⟩ := hx
    by_contra hfit
    -- its entry is still in use
    have hl : a.toJob ∈ n.live := (hiff a.toJob).mpr ⟨hacc a ha, hfit⟩
    have hb := (h.dev.entries.bit a.idx).mpr (List.mem_map_of_mem hl)
    rw [hbits _ (hI.live.lt _ hl)] at hb; cases hb
  · intro hfit
    have hlive : ∀ j, j ∉ n.live := fun j hj => by
      obtain ⟨hin, hnot⟩ := (hiff j).mp hj
      rw [← h.accs] at hin
      obtain ⟨a, ha, rfl⟩ := List.mem_map.mp hin
      exact hnot (hfit a ha)
    refine ⟨fun i _ => ?_, fun a ha => finished_of_fits hI h (quiet_of_quiescent hq) ha (hfit a ha)⟩
    by_contra hb
    obtain ⟨j, hj, -⟩ := List.mem_map.mp ((h.dev.entries.bit i).mp (by simpa using hb))
    exact hlive j hj

/-- Any commands can be accepted one by one and run to their end, as long as
they leave an entry for the next. -/
theorem exists_served (mb : BitVec 32) (cs : List HostCmd) (hn : (cs.countP fun c => ¬ Fits c) < HCMD_NUM) :
    ∃ s d, Ready mb s d ∧ quiet s = true ∧ d.accepted.map Prod.snd = cs := by
  induction cs using List.reverseRecOn with
  | nil =>
    obtain ⟨s, d, hs, ha⟩ := exists_ready mb
    obtain ⟨s', hs', hq⟩ := hs.drain
    exact ⟨s', d, hs', hq, by rw [ha]; rfl⟩
  | append_singleton cs c ih =>
    have hpre : (cs.countP fun c => ¬ Fits c) < HCMD_NUM := by
      rw [List.countP_append] at hn
      omega
    obtain ⟨s, d, hs, hq, hd⟩ := ih hpre
    have hroom : allocated s.dev.hcl < HCMD_NUM := by
      obtain ⟨_, hI⟩ := hs.desk
      rwa [allocated_eq hs.reach hq, hI.accs_cmds, hd]
    obtain ⟨s1, d1, i, hs1, ha⟩ := hs.command hroom c
    obtain ⟨s2, hs2, hq2⟩ := hs1.drain
    exact ⟨s2, d1, hs2, hq2, by rw [ha, List.map_append, hd]; rfl⟩

end

/-- One 4 KB read, until nothing is left to do. -/
def leakSchedule : List Lbl :=
  submit 0 ⟨SHM_READ_OPS, 20, 4096⟩ ++ List.replicate 16 .ftl ++ [.be, .be, .be] ++ List.replicate 10 .ftl

/-- **Counterexample**: the entry of a 4 KB read is never reclaimed. -/
theorem four_kb_read_leaks : ¬ ∀ s, (sys 0).Reachable s →
    (∀ c ∈ s.submitted, (c.ops = SHM_READ_OPS ∨ c.ops = SHM_WRITE_OPS) ∧ 0 < c.size ∧
      c.size % HOST_BLOCK_SIZE = 0) →
    quiescent s = true → ∀ i, i < HCMD_NUM → bit s.dev.hcl i = false := by
  intro hall
  obtain ⟨s, hr, hs⟩ := exists_run 0
    (P := fun s => decide (s.submitted = [⟨SHM_READ_OPS, 20, 4096⟩]) && quiescent s && bit s.dev.hcl 0)
    leakSchedule (by decide +kernel)
  simp only [Bool.and_eq_true, decide_eq_true_eq] at hs
  obtain ⟨⟨hsub, hq⟩, hb⟩ := hs
  have := hall s hr (by rw [hsub]; decide) hq 0 (by decide)
  rw [this] at hb; cases hb

/-- A 16 KB write leaves nothing behind. -/
theorem drained_write : ∃ s, (sys 0).Reachable s ∧ s.accs.length = 1 ∧ Drained s := by
  obtain ⟨s, hr, hs⟩ := exists_run 0
    (P := fun s => decide (s.accs.map (fun a => a.cmd) = [⟨SHM_WRITE_OPS, 20, 16384⟩]) && quiescent s)
    writeSchedule (by decide +kernel)
  simp only [Bool.and_eq_true, decide_eq_true_eq] at hs
  have hlen : s.accs.length = 1 := by simpa using congrArg List.length hs.1
  refine ⟨s, hr, hlen, (drained_iff hr hs.2).mpr fun a ha => ?_⟩
  have hm := List.mem_map_of_mem (f := fun a : Acc => a.cmd) ha
  rw [hs.1, List.mem_singleton] at hm
  rw [hm]
  exact ⟨.inr rfl, by decide, by decide⟩

end OpenSSDEmu.Bugs.LeakedCommand
