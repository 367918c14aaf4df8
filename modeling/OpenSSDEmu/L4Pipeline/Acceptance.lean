import OpenSSDEmu.L4Pipeline.Rounds

/-!
# The order in which commands are accepted

`FTL_nvme_req_polling` takes commands from the head of the RDY list. When
all 256 entries are in use it puts the command back with `SHM_add_rdy_list`,
which appends, so the command goes behind those that wait.

* `acceptance_order`: what any step does to the waiting commands, and that
  commands are accepted in the order of submission in every run in which a
  command is put back only when no other waits.
* `refused_goes_last`: without that, a refused command is overtaken.
-/
namespace OpenSSDEmu.L2.Shmem
open Links

/-- The slots of a list, from its head on; `fuel` bounds the walk. -/
def walk (m : Shm) : Nat → Nat → List Nat
  | 0, _ => []
  | fuel + 1, i => if i = CMD_SLOT_NUM then [] else i :: walk m fuel (m.slot i).next

def slotsOf (m : Shm) (l : ListType) : List Nat := walk m CMD_SLOT_NUM (m.head l).next

theorem walk_eq {m : Shm} {xs : List Nat} {fuel i : Nat}
    (h : Visits (fun i => some (m.slot i).next) CMD_SLOT_NUM (some i) xs) (hl : xs.length ≤ fuel) :
    walk m fuel i = xs := by
  induction xs generalizing fuel i with
  | nil =>
    obtain rfl : i = CMD_SLOT_NUM := Option.some.inj h
    cases fuel <;> simp [walk]
  | cons x xs ih =>
    obtain ⟨he, hne, hv⟩ := h
    obtain rfl : i = x := Option.some.inj he
    cases fuel with
    | zero => simp at hl
    | succ fuel =>
      simp only [walk, hne, if_false]
      rw [ih hv (by simpa using hl)]

theorem slotsOf_eq {m : Shm} {l : ListType} {xs : List Nat} (h : IsList m l xs)
    (hl : xs.length ≤ CMD_SLOT_NUM) : slotsOf m l = xs := walk_eq h.wellFormed.forward hl

end OpenSSDEmu.L2.Shmem

namespace OpenSSDEmu.L4.Pipeline
open L2.Hcl L2.Fcl L2.Shmem L2.TaskQueue
open Jobs hiding step Lbl
open Desk (Progress)

/-- The accepted commands, the one the FTL holds followed by those on the
RDY list, and the submitted commands. -/
def Sys.progress (s : Sys) : Progress HostCmd :=
  ⟨s.accs.map fun a => a.cmd, s.ftl.cmds ++ (slotsOf s.shm .rdy).map (content s.shm), s.submitted⟩

/-- No command is put back while another waits. -/
def PutBackAlone (s : Sys) (l : Lbl) : Prop :=
  l = .ftl → ∀ i index scmd, s.ftl = .put i index scmd → shmListEmpty s.shm .rdy = true

section
variable {mb : BitVec 32} {s s' : Sys} {h : Host} {d : Desk Nat HostCmd}

theorem OnDesk.progress_eq (hI : OnDesk s h d) : s.progress = d.progress := by
  have hlen : (d.rdy.map Prod.fst).length ≤ CMD_SLOT_NUM := by
    have := hI.slots.slots.length_eq
    simp only [List.length_append, List.length_range] at this
    omega
  have hcmds : s.ftl.cmds = d.hand.cmds := by
    rw [← hI.hand]
    cases s.ftl <;> rfl
  have hrdy : (d.rdy.map Prod.fst).map (Pipeline.content s.shm) = d.rdy.map Prod.snd := by
    rw [List.map_map]
    exact List.map_congr_left fun x hx => hI.content x hx
  simp only [Sys.progress, Desk.progress, slotsOf_eq hI.slots.lists.rdyL hlen, hI.accs_cmds, hcmds, hrdy,
    hI.submitted]

theorem exists_desk (hr : (sys mb).Reachable s) : ∃ h d, OnDesk s h d := by
  obtain ⟨free, rdy, h, hI⟩ := (slots_inv mb).reachable s hr
  exact ⟨h, _, hI.onDesk⟩

theorem progress_step {l : Lbl} (hr : (sys mb).Reachable s) (hs : step mb s l = some s') :
    Progress.Step s.progress s'.progress := by
  obtain ⟨h, d, hI⟩ := exists_desk hr
  rcases hI.step hs with ⟨k, hI'⟩ | ⟨a, d', k, -, hd, hI'⟩
  · rw [hI.progress_eq, hI'.progress_eq]
    exact .same _
  · rw [hI.progress_eq, hI'.progress_eq]
    exact Desk.step_progress hd

/-- A desk where nobody was overtaken. -/
theorem in_order_inv (mb : BitVec 32) : ((sys mb).restrict PutBackAlone).Inductive
    fun s => ∃ h d, OnDesk s h d ∧ d.progress.InOrder where
  init := by
    intro s hstart
    obtain ⟨m, hm, rfl⟩ := hstart
    exact ⟨.fe, _, (slots_init hm).onDesk, by simp [Progress.InOrder, Desk.progress, Sys.init,
      FtlPc.onDesk, Desk.Hand.cmds]⟩
  step := by
    intro s l s' hx hs
    obtain ⟨h, d, hI, ho⟩ := hx
    obtain ⟨hP, hs⟩ := hs
    rcases hI.step hs with ⟨k, hI'⟩ | ⟨a, d', k, ha, hd, hI'⟩
    · exact ⟨k, d, hI', ho⟩
    · refine ⟨k, d', hI', Desk.step_inOrder hd (fun hb => ?_) ho⟩
      subst hb
      -- only the FTL puts back, and it holds the command then
      have hl : l = .ftl := by
        cases l with
        | ftl => rfl
        | host k a => cases a <;> exact absurd ha id
        | be => exact absurd ha id
      have hput : ∃ i j c, s.ftl = .put i j c := by
        have hh := hI.hand
        cases hp : s.ftl with
        | put i j c => exact ⟨i, j, c, rfl⟩
        | _ =>
          rw [hp] at hh
          simp [Desk.step, ← hh, FtlPc.onDesk] at hd
      obtain ⟨i, j, c, hp⟩ := hput
      have he := hI.slots.lists.rdyL.empty_iff.mp (hP hl i j c hp)
      simpa using he

end

/-! ## A full pool -/

section
variable {mb : BitVec 32} {s : Sys}

/-- No more entries are in use than commands were accepted. -/
theorem allocated_le_accs (hr : (sys mb).Reachable s) : allocated s.dev.hcl ≤ s.accs.length := by
  obtain ⟨n, hI, h⟩ := reachable_sim hr
  have hsub : n.live ⊆ n.accepted := fun j hj => by
    obtain ⟨p, hp⟩ := mem_live.mp hj
    exact (hI.tracked.here p j hp).1
  rw [h.allocated hI, h.accs_length]
  exact (List.subperm_of_subset hI.live.jobs_nodup hsub).length_le

/-- A command that is not of one page never gives its entry back, so 256 of
them fill the pool. -/
theorem pool_full (hr : (sys mb).Reachable s) (hl : HCMD_NUM ≤ s.accs.length)
    (hreq : ∀ a ∈ s.accs, a.toJob.reqNum ≠ 1) : ∃ hcl, getHostCmdEntry s.dev.hcl = (none, hcl) := by
  obtain ⟨n, hI, h⟩ := reachable_sim hr
  have hsub : n.accepted ⊆ n.live := fun j hj => by
    rcases hI.tracked.gone j hj with hp | hp
    · exact mem_live.mpr hp
    · rw [← h.accs] at hj
      obtain ⟨a, ha, rfl⟩ := List.mem_map.mp hj
      exact absurd hp.at.2 (hreq a ha)
  have hle := (List.subperm_of_subset hI.tracked.accepted_nodup hsub).length_le
  have hlen := h.accs_length
  refine getHostCmdEntry_of_full ?_
  rw [h.allocated hI]
  omega

/-- A command is refused only after 256 were accepted. -/
theorem refused_inv (mb : BitVec 32) : (sys mb).InductiveUnder (fun s => allocated s.dev.hcl ≤ s.accs.length)
    fun s => ∀ i j c, s.ftl = .put i j c → HCMD_NUM ≤ s.accs.length where
  init := by
    intro s hs i j c hp
    obtain ⟨m, -, rfl⟩ := hs
    cases hp
  step := by
    intro s l s' hle ih hs i j c hp
    cases l with
    | host k a =>
      obtain ⟨-, -, ha, -, hf, -⟩ := hostStep_frame hs
      rw [ha]
      exact ih i j c (hf ▸ hp)
    | be =>
      have hf : s'.ftl = s.ftl ∧ s'.accs = s.accs := by cases beStep_cases hs <;> exact ⟨rfl, rfl⟩
      rw [hf.2]
      exact ih i j c (hf.1 ▸ hp)
    | ftl =>
      cases ftlStep_cases hs with
      | refuse _ hg =>
        have hfull : allocated s.dev.hcl = HCMD_NUM := allocated_full.mpr (getHostCmdEntry_none hg).1
        exact hfull ▸ hle
      | @served q _ _ _ => cases q <;> cases hp
      | round h => cases h.symm.trans hp
      | _ => cases hp

/-- To put a command back while another waits takes 258 submissions. -/
theorem putBackAlone_of_few (hr : (sys mb).Reachable s) (hn : s.submitted.length ≤ HCMD_NUM + 1) :
    ((sys mb).restrict PutBackAlone).Reachable s := by
  induction hr with
  | start h => exact .start h
  | @next s s' l hr hs ih =>
    have hle := (step_grows hs).1.length_le
    refine (ih (by omega)).next ⟨fun _ i j c hp => ?_, hs⟩
    by_contra he
    obtain ⟨h, d, hI⟩ := exists_desk hr
    have hfull := (refused_inv mb).reachable (fun _ => allocated_le_accs) s hr i j c hp
    have hcount := hI.submitted_length
    have hrdy : d.rdy ≠ [] := fun e => he (hI.slots.lists.rdyL.empty_iff.mpr (by rw [e]; rfl))
    have hpos := List.length_pos_iff.mpr hrdy
    rw [hp] at hcount
    simp only [FtlPc.cmds, List.length_singleton] at hcount
    omega

end

/-- A read of 4 KB, less than a page. -/
def smallRead : HostCmd := ⟨SHM_READ_OPS, 0, 4096⟩

/-- Between two calls of `FTL_nvme_req_polling`, `k` small reads accepted and
nothing waiting. -/
structure Filled (k : Nat) (s : Sys) (d : Desk Nat HostCmd) : Prop where
  opened : Open 0 s d
  poll : s.ftl = .poll 0
  rdy : d.rdy = []
  hand : d.hand = .empty
  length : d.accepted.length = k
  small : ∀ x ∈ d.accepted, x.2 = smallRead

theorem filled_zero : ∃ s d, Filled 0 s d := by
  obtain ⟨s, d, h, ha⟩ := exists_ready 0
  exact ⟨s, d, h.toOpen, h.poll, h.rdy, h.hand, by rw [ha]; rfl, by rw [ha]; simp⟩

theorem Filled.succ {k : Nat} {s : Sys} {d : Desk Nat HostCmd} (h : Filled k s d) (hk : k < HCMD_NUM) :
    ∃ s d, Filled (k + 1) s d := by
  have hroom : allocated s.dev.hcl < HCMD_NUM := by
    obtain ⟨_, hI⟩ := h.opened.desk
    have hle := allocated_le_accs h.opened.reach
    rw [hI.accs_length, h.length] at hle
    omega
  obtain ⟨s', d', i, h', ha⟩ := Ready.command ⟨h.opened, h.poll, h.rdy, h.hand⟩ hroom smallRead
  refine ⟨s', d', h'.toOpen, h'.poll, h'.rdy, h'.hand, by simp [ha, h.length], fun x hx => ?_⟩
  rw [ha] at hx
  rcases List.mem_append.mp hx with hx | hx
  · exact h.small x hx
  · rw [List.mem_singleton.mp hx]

theorem exists_filled {k : Nat} (hk : k ≤ HCMD_NUM) : ∃ s d, Filled k s d := by
  induction k with
  | zero => exact filled_zero
  | succ k ih =>
    obtain ⟨s, d, h⟩ := ih (Nat.le_of_succ_le hk)
    exact h.succ hk

/-- A pool of 256 small reads stays full. -/
theorem Open.no_entry {s : Sys} {d : Desk Nat HostCmd} (hO : Open 0 s d)
    (hl : d.accepted.length = HCMD_NUM) (hsmall : ∀ x ∈ d.accepted, x.2 = smallRead) :
    ∃ hcl, getHostCmdEntry s.dev.hcl = (none, hcl) := by
  obtain ⟨_, hI⟩ := hO.desk
  refine pool_full hO.reach (by rw [hI.accs_length, hl]) fun a ha => ?_
  have hx : (a.entry.nvmeCmdSlot.toNat, a.cmd) ∈ d.accepted := hI.accepted ▸ List.mem_map_of_mem ha
  have hcmd : a.cmd = smallRead := hsmall _ hx
  rw [Job.reqNum, hcmd]
  decide

/-! ## The order of acceptance -/

/-- Submissions go to the end of the line, acceptances take its first
command, and a refused command goes to the end again while the others keep
their order. So in every run in which commands are put back only when no
other waits, the accepted commands followed by the waiting ones are the
submitted ones in order. -/
theorem acceptance_order (mb : BitVec 32) :
    (∀ s l s', (sys mb).Reachable s → step mb s l = some s' → Progress.Step s.progress s'.progress) ∧
      ∀ s, ((sys mb).restrict PutBackAlone).Reachable s → s.progress.InOrder := by
  refine ⟨fun s l s' hr hs => progress_step hr hs, fun s hr => ?_⟩
  obtain ⟨h, d, hI, ho⟩ := (in_order_inv mb).reachable s hr
  rw [hI.progress_eq]
  exact ho

/-- 256 small reads are accepted and fill the pool; one more command is taken,
and put back alone. -/
theorem acceptance_order_put_back : ∃ s s' i j c, ((sys 0).restrict PutBackAlone).Reachable s ∧
    s.ftl = .put i j c ∧ ((sys 0).restrict PutBackAlone).Reachable s' ∧ s'.accs.length = HCMD_NUM ∧
      s'.progress.waiting = [c.toHostCmd] ∧ Progress.Step s.progress s'.progress ∧ s'.progress.InOrder := by
  obtain ⟨s, d, h⟩ := exists_filled (Nat.le_refl HCMD_NUM)
  have hlen := h.opened.free_length h.rdy h.hand
  match hf : d.free with
  | [] => rw [hf] at hlen; cases hlen
  | i :: free =>
    obtain ⟨s1, hO1, hp1, -⟩ := h.opened.submit hf smallRead
    have hr1 : d.rdy ++ [(i, smallRead)] = [(i, smallRead)] := by rw [h.rdy]; rfl
    obtain ⟨s2, c, hO2, hp2, hc, -⟩ := hO1.get (hp1.trans h.poll) (by decide) hr1
    obtain ⟨hcl, hg⟩ := hO2.no_entry h.length h.small
    obtain ⟨s3, hO3, hp3⟩ := hO2.refuse hp2 hg
    obtain ⟨s4, hs, hO4⟩ := hO3.putBack hp3
    obtain ⟨_, hI3⟩ := hO3.desk
    obtain ⟨_, hI4⟩ := hO4.desk
    have hn : s3.submitted.length = HCMD_NUM + 1 := by
      rw [hI3.submitted_length, hp3, hI3.accs_length, h.length]
      rfl
    have hr3 := putBackAlone_of_few hO3.reach hn.le
    have hr4 := putBackAlone_of_few hO4.reach (by rw [hI4.submitted, ← hI3.submitted, hn])
    refine ⟨s3, s4, 0, i, c, hr3, hp3, hr4, by rw [hI4.accs_length, h.length], ?_,
      (acceptance_order 0).1 s3 .ftl s4 hO3.reach hs, (acceptance_order 0).2 s4 hr4⟩
    rw [hI4.progress_eq]
    rfl

/-- **Counterexample**: 256 small reads fill the pool for good. Of two
commands submitted after them the first is refused and goes behind the
second. -/
theorem refused_goes_last : ¬ ∀ s, (sys 0).Reachable s → s.progress.InOrder := by
  intro hall
  obtain ⟨s, d, h⟩ := exists_filled (Nat.le_refl HCMD_NUM)
  have hlen := h.opened.free_length h.rdy h.hand
  match hf : d.free with
  | [] | [_] => rw [hf] at hlen; cases hlen
  | i :: j :: free =>
    let first : HostCmd := ⟨SHM_WRITE_OPS, 0, 16384⟩
    let second : HostCmd := ⟨SHM_WRITE_OPS, 4, 16384⟩
    obtain ⟨s1, hO1, hp1, -⟩ := h.opened.submit hf first
    obtain ⟨s2, hO2, hp2, -⟩ := hO1.submit rfl second
    have hr2 : d.rdy ++ [(i, first)] ++ [(j, second)] = [(i, first), (j, second)] := by rw [h.rdy]; rfl
    obtain ⟨s3, c, hO3, hp3, hc, -⟩ := hO2.get ((hp2.trans hp1).trans h.poll) (by decide) hr2
    obtain ⟨hcl, hg⟩ := hO3.no_entry h.length h.small
    obtain ⟨s4, hO4, hp4⟩ := hO3.refuse hp3 hg
    obtain ⟨s5, -, hO5⟩ := hO4.putBack hp4
    -- before and after, the same commands were accepted and submitted
    obtain ⟨_, hI2⟩ := hO2.desk
    obtain ⟨_, hI5⟩ := hO5.desk
    have e2 : d.accepted.map Prod.snd = d.submitted := by
      have := hall s2 hO2.reach
      rw [hI2.progress_eq] at this
      simpa [Progress.InOrder, Desk.progress, Desk.Hand.cmds, h.rdy, h.hand] using this
    have e5 : d.accepted.map Prod.snd ++ [second, first] = d.submitted ++ [first, second] := by
      have := hall s5 hO5.reach
      rw [hI5.progress_eq] at this
      simpa [Progress.InOrder, Desk.progress, Desk.Hand.cmds, hc] using this
    rw [e2, List.append_cancel_left_eq] at e5
    exact absurd e5 (by decide)

end OpenSSDEmu.L4.Pipeline
