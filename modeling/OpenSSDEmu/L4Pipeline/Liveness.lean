import OpenSSDEmu.L4Pipeline.Fairness

/-!
# Commands of one page finish

Under a fair scheduler (`L4Pipeline.Fairness`) a job leaves every place it
comes to except `stranded`, and a read or write of one flash page never
comes there. So the accepted commands of that kind, and no others, finish
(`accepted_finishes`).

When all submitted commands are of that kind, the entries come back. Then

* `submissions_served`: as many commands finish as were submitted, whatever
  is refused in between;
* `submitted_finishes`: if there are never more than 256 commands on their
  way nothing is refused, and each submission is accepted in its turn and
  finished.
-/
namespace OpenSSDEmu.L4.Jobs
open OpenSSDEmu.Flow LTS
open L2.Hcl (HCMD_NUM)

section
variable {n n' : Net} {p : Place} {j : Job}

theorem Live.place_unique (h : Live n) {q : Place} {r : List Job} (hq : n.jobs q = j :: r)
    (hp : j ∈ n.jobs p) : q = p := by
  by_contra hne
  have hpop : j ∈ pop n.jobs q p := by rwa [pop_of_ne (Ne.symm hne)]
  exact notMem_pop places_nodup mem_places h.jobs_nodup hq p hpop

theorem course_length (j : Job) : j.course.length ≤ 10 := by
  unfold Job.course
  split
  · decide
  · split <;> decide

/-- A finished job has its whole course behind it. -/
theorem Tracked.course (h : Tracked n) (hj : (.finish, j) ∈ n.log) : n.hist j = j.course := by
  have hb := j.not_both
  have hf : .finish ∈ n.hist j := mem_hist.mpr hj
  rcases h.gone j (h.known _ hj) with ⟨p, hp⟩ | hp
  · exact absurd hf (h.here p j hp).2.unfinished
  · obtain ⟨hd, -⟩ := hp.at
    rcases hd with ⟨hw, e⟩ | ⟨hr, e⟩
    · rw [e, Job.course, if_pos hw]
      rfl
    · rw [e, Job.course, if_neg fun hw => hb ⟨hw, hr⟩, if_pos hr]
      rfl

/-- Neither a malformed command nor one that needs another number of pages. -/
def Job.Simple (j : Job) : Prop := (j.isRead = true ∨ j.isWrite = true) ∧ j.reqNum = 1

theorem Job.Simple.ne_stranded (hj : j.Simple) {h : List Kind} (hp : Path j h (some p)) :
    p ≠ .stranded ∧ p ≠ .queue .waitCq := by
  have ha := hp.at
  refine ⟨fun e => ?_, fun e => ?_⟩
  · subst e
    rcases ha with ⟨h1, h2, -⟩ | ⟨-, h3⟩
    · have hk := hj.1
      rw [h1, h2] at hk
      rcases hk with hk | hk <;> cases hk
    · exact h3 hj.2
  · subst e
    exact ha

theorem log_prefix {l : List (Kind × Job)} {lb : Lbl} (h : l <+: n.log) (hs : step n lb = some n') :
    l <+: n'.log := by
  obtain ⟨j, -, -, -, -, -, rfl⟩ | ⟨p, j, r, -, -, rfl⟩ | ⟨g, k, -, rfl⟩ := step_cases hs
  · exact h.trans (List.prefix_append _ _)
  · exact h.trans (List.prefix_append _ _)
  · exact h

/-- The jobs that left. -/
def Net.finished (n : Net) : Nat := n.log.countP fun e => e.1 = .finish

theorem dest_eq_none : dest j p = none ↔ p.kind = .finish := by
  cases p with
  | queue q => cases q <;> simp [dest, Place.kind]
  | _ => simp [dest, Place.kind]

/-- Every accepted job is somewhere or has left. -/
theorem counted_inv : net.Inductive fun n => n.accepted.length = n.live.length + n.finished where
  init := by
    rintro n rfl
    rfl
  step := by
    intro n lb n' h hs
    obtain ⟨j, -, -, -, -, -, rfl⟩ | ⟨p, j, r, -, hp, rfl⟩ | ⟨g, k, -, rfl⟩ := step_cases hs
    · have hl := (live_accept n j).length_eq
      have hf : (n.accept j).finished = n.finished := by simp [Net.finished, Net.accept]
      have ha : (n.accept j).accepted.length = n.accepted.length + 1 := by simp [Net.accept]
      rw [ha, hl, hf, List.length_cons]
      omega
    · have ha : (n.move p j).accepted = n.accepted := rfl
      cases hd : dest j p with
      | some d =>
        have hk : p.kind ≠ .finish := fun e => by
          rw [dest_eq_none.mpr e] at hd
          cases hd
        have hf : (n.move p j).finished = n.finished := by simp [Net.finished, Net.move, hk]
        rw [ha, (live_move hp hd).length_eq, hf]
        exact h
      | none =>
        have hl := (live_leave hp hd).length_eq
        have hf : (n.move p j).finished = n.finished + 1 := by
          simp [Net.finished, Net.move, dest_eq_none.mp hd]
        rw [List.length_cons] at hl
        rw [ha, hf]
        omega
    · exact h

end

section
variable (α : net.Run) {p : Place} {j : Job} {t u : Nat}

/-- A job that is no longer where it was has been moved. -/
theorem run_leaves (htu : t ≤ u) (hj : j ∈ (α.state t).jobs p) (hn : j ∉ (α.state u).jobs p) :
    ∃ v r, t ≤ v ∧ (α.state v).jobs p = j :: r ∧ α.state (v + 1) = (α.state v).move p j := by
  obtain ⟨v, htv, -, hv, hv'⟩ := exists_last (P := fun t => j ∈ (α.state t).jobs p) htu hj hn
  have hI := inv_reachable (α.reachable v)
  rcases α.cases v with e | ⟨l, -, hs⟩
  · rw [e] at hv'
    exact absurd hv hv'
  obtain ⟨k, -, -, -, -, -, e⟩ | ⟨q, k, r, -, hq, e⟩ | ⟨g, m, -, e⟩ := step_cases hs
  · rw [e] at hv'
    exact absurd (mem_push.mpr (.inl hv)) hv'
  · by_cases hk : j = k
    · subst hk
      obtain rfl := hI.live.place_unique hq hv
      exact ⟨v, r, htv, hq, e⟩
    · rw [e] at hv'
      exact absurd (mem_move_of_ne hq hv hk) hv'
  · rw [e] at hv'
    exact absurd hv hv'

theorem run_log (htu : t ≤ u) : (α.state t).log <+: (α.state u).log :=
  α.lasts (P := fun n => (α.state t).log <+: n.log) (fun _ _ _ h hs => log_prefix h hs) htu List.prefix_rfl

theorem run_hist (htu : t ≤ u) (j : Job) : ((α.state t).hist j).length ≤ ((α.state u).hist j).length :=
  (((run_log α htu).sublist.filter _).map _).length_le

/-- **A job that leaves every place it comes to goes through its course.** -/
theorem run_finishes (hleave : ∀ p, p ≠ .stranded → p ≠ .queue .waitCq →
      LeadsTo (fun t => j ∈ (α.state t).jobs p) fun t => j ∉ (α.state t).jobs p)
    (hs : j.Simple) (hj : j ∈ (α.state t).accepted) : ∃ u, t ≤ u ∧ (.finish, j) ∈ (α.state u).log := by
  -- by the events still to come
  generalize hk : 10 - ((α.state t).hist j).length = k
  induction k using Nat.strongRecOn generalizing t with
  | ind k ih =>
    have hT := (inv_reachable (α.reachable t)).tracked
    rcases hT.gone j hj with ⟨p, hp⟩ | hp
    · have hpath := (hT.here p j hp).2
      obtain ⟨h1, h2⟩ := hs.ne_stranded hpath
      obtain ⟨u, htu, hu⟩ := hleave p h1 h2 t hp
      obtain ⟨v, r, htv, hv, e⟩ := run_leaves α htu hp hu
      have hT' := (inv_reachable (α.reachable (v + 1))).tracked
      have hin : (p.kind, j) ∈ (α.state (v + 1)).log := by
        rw [e]
        exact List.mem_append_right _ List.mem_cons_self
      have hgrow : ((α.state (v + 1)).hist j).length = ((α.state v).hist j).length + 1 := by
        rw [e, hist_append (n := α.state v) (j := j) _ p.kind rfl, if_pos rfl, List.length_append,
          List.length_singleton]
      have hle := run_hist α htv j
      have hbound : ((α.state (v + 1)).hist j).length ≤ 10 := by
        refine Nat.le_trans (List.IsPrefix.length_le ?_) (course_length j)
        rcases hT'.gone j (hT'.known _ hin) with ⟨q, hq⟩ | hq
        · exact (hT'.here q j hq).2.initial
        · exact hq.initial
      obtain ⟨w, hvw, hw⟩ := ih (10 - ((α.state (v + 1)).hist j).length) (by omega)
        (hT'.known _ hin) rfl
      exact ⟨w, by omega, hw⟩
    · refine ⟨t, Nat.le_refl t, mem_hist.mp ?_⟩
      obtain ⟨hd, -⟩ := hp.at
      rcases hd with ⟨-, e⟩ | ⟨-, e⟩ <;> rw [e] <;> decide

end

end OpenSSDEmu.L4.Jobs

namespace OpenSSDEmu.L4.Pipeline
open L2.Hcl L2.Fcl L2.Shmem L2.TaskQueue LTS
open Jobs hiding step Lbl

section
variable {mb : BitVec 32} {ρ : (sys mb).Run} {α : net.Run} {j : Job} {p : Place}

theorem jobs_nil {l : List EmuSq} {m : List Job} (h : l.map EmuSq.hcmd = m.map Job.idx) :
    m = [] ↔ l = [] := by
  rw [← List.map_eq_nil_iff (f := Job.idx), ← h, List.map_eq_nil_iff]

/-- Nothing stays where the FTL or the backend takes it from. -/
theorem leaves (hF : Fair ρ) (hsim : ∀ t, Sim (ρ.state t) (α.state t)) (h1 : p ≠ .stranded)
    (h2 : p ≠ .queue .waitCq) :
    LeadsTo (fun t => j ∈ (α.state t).jobs p) fun t => j ∉ (α.state t).jobs p := by
  intro t ht
  have hplaces := fun u => (hsim u).dev.places
  have hne : (α.state t).jobs p ≠ [] := List.ne_nil_of_mem ht
  match p with
  | .stranded => exact absurd rfl h1
  | .queue q =>
    obtain ⟨u, hu, cnt, k, hp, hlt⟩ := (goes_round hF).1 q (fun e => h2 (by rw [e])) t
    have hst : StageOk (α.state u) (ρ.state u).ftl := (hsim u).stage
    rw [hp] at hst
    obtain ⟨-, hlen⟩ := hst
    have hnil : (α.state u).jobs (.queue q) = [] := List.eq_nil_of_length_eq_zero (by omega)
    exact ⟨u, hu, by simp [hnil]⟩
  | .completed =>
    obtain ⟨u, hu, -, hc⟩ := (goes_round hF).2 t
    have hnil := (jobs_nil (hplaces u).cpl).mpr hc
    exact ⟨u, hu, by simp [hnil]⟩
  | .registered =>
    have hin : j.idx ∈ (ρ.state t).waiting := by
      rw [Sys.waiting, (hplaces t).reg]
      exact List.mem_map_of_mem ht
    obtain ⟨u, hu, hout⟩ := backend_takes hF j.idx t hin
    refine ⟨u, hu, fun hj => hout ?_⟩
    rw [Sys.waiting, (hplaces u).reg]
    exact List.mem_map_of_mem hj
  | .inHand =>
    obtain ⟨u, hu, hout⟩ := backend_execs hF t fun e => hne ((jobs_nil (hplaces t).hand).mpr e)
    have hnil := (jobs_nil (hplaces u).hand).mpr hout
    exact ⟨u, hu, by simp [hnil]⟩
  | .executed =>
    obtain ⟨u, hu, hout⟩ := backend_posts hF t fun e => hne ((jobs_nil (hplaces t).done).mpr e)
    have hnil := (jobs_nil (hplaces u).done).mpr hout
    exact ⟨u, hu, by simp [hnil]⟩

end

/-- A read or a write of one flash page. -/
def servable (c : HostCmd) : Prop := (c.ops = SHM_READ_OPS ∨ c.ops = SHM_WRITE_OPS) ∧ onePage c

section
variable {mb : BitVec 32} {ρ : (sys mb).Run}

theorem servable.finish_mem {j : Job} (h : servable j.cmd) : .finish ∈ j.course := by
  unfold Job.course
  rcases h.1 with e | e
  · have hr : j.isRead = true := by simp [Job.isRead, e]
    have hw : ¬ j.isWrite = true := fun hw => j.not_both ⟨hw, hr⟩
    rw [if_neg hw, if_pos hr]
    decide
  · have hw : j.isWrite = true := by simp [Job.isWrite, e]
    rw [if_pos hw]
    decide

theorem servable.simple {j : Job} (h : servable j.cmd) : j.Simple :=
  ⟨h.1.imp (fun e => by simp [Job.isRead, e]) fun e => by simp [Job.isWrite, e], reqNum_eq_one.mpr h.2⟩

/-- The write of `write_run`. -/
theorem write_servable : servable ⟨SHM_WRITE_OPS, 20, 16384⟩ := by
  refine ⟨.inr rfl, ?_⟩
  unfold onePage
  decide

theorem write_all {l : List HostCmd} (hl : l <+: [⟨SHM_WRITE_OPS, 20, 16384⟩]) :
    ∀ c ∈ l, servable c := by
  intro c hc
  rw [List.mem_singleton.mp (hl.subset hc)]
  exact write_servable

/-- Nothing is accepted before it is submitted. -/
theorem write_submitted (hall : ∀ t, (ρ.state t).submitted <+: [⟨SHM_WRITE_OPS, 20, 16384⟩]) {t : Nat}
    {a : Acc} (ha : a ∈ (ρ.state t).accs) : (ρ.state t).submitted.length = 1 := by
  obtain ⟨h, d, hI⟩ := exists_desk (ρ.reachable t)
  have hlen := hI.slots.delivered.length_eq
  have hle := (hall t).length_le
  have hpos := List.length_pos_of_mem ha
  simp only [List.length_append, List.length_map, List.length_singleton] at hlen hle
  omega

theorem finish_course (hF : Fair ρ) {t : Nat} {a : Acc} (ha : a ∈ (ρ.state t).accs)
    (hc : servable a.cmd) :
    ∃ u, t ≤ u ∧ ∀ v, u ≤ v → (ρ.state v).events a.toJob = a.toJob.course := by
  obtain ⟨α, hsim⟩ := (sim mb).run ρ
  have hj : a.toJob ∈ (α.state t).accepted := by
    rw [← (hsim t).accs]
    exact List.mem_map_of_mem ha
  obtain ⟨u, htu, hu⟩ := run_finishes α (fun p => leaves hF hsim) hc.simple hj
  refine ⟨u, htu, fun v huv => ?_⟩
  rw [(hsim v).events]
  exact (inv_reachable (α.reachable v)).tracked.course ((run_log α huv).subset hu)

/-- From some time on each of a list of accepted commands is finished. -/
theorem all_finish (hF : Fair ρ) {t : Nat} {as : List Acc} (has : as ⊆ (ρ.state t).accs) :
    ∃ u, t ≤ u ∧ ∀ v, u ≤ v → ∀ a ∈ as, servable a.cmd →
      (ρ.state v).events a.toJob = a.toJob.course := by
  induction as with
  | nil => exact ⟨t, Nat.le_refl t, fun _ _ _ ha => absurd ha List.not_mem_nil⟩
  | cons a as ih =>
    obtain ⟨u, htu, hu⟩ := ih (List.subset_of_cons_subset has)
    by_cases hs : servable a.cmd
    · obtain ⟨w, htw, hw⟩ := finish_course hF (has List.mem_cons_self) hs
      refine ⟨max u w, by omega, fun v hv b hb hb' => ?_⟩
      rcases List.mem_cons.mp hb with rfl | hb
      · exact hw v (by omega)
      · exact hu v (by omega) b hb hb'
    · refine ⟨u, htu, fun v hv b hb hb' => ?_⟩
      rcases List.mem_cons.mp hb with rfl | hb
      · exact absurd hb' hs
      · exact hu v hv b hb hb'

/-- No other command ever finishes. -/
theorem servable_of_finish {s : Sys} (hr : (sys mb).Reachable s) {a : Acc} (ha : a ∈ s.accs)
    (hf : .finish ∈ s.events a.toJob) : servable a.cmd := by
  obtain ⟨n, hI, h⟩ := reachable_sim hr
  rw [h.events] at hf
  have hj : a.toJob ∈ n.accepted := by
    rw [← h.accs]
    exact List.mem_map_of_mem ha
  rcases hI.tracked.gone _ hj with ⟨p, hp⟩ | hp
  · exact absurd hf (hI.tracked.here p _ hp).2.unfinished
  · obtain ⟨hd, hq⟩ := hp.at
    refine ⟨?_, reqNum_eq_one.mp hq⟩
    have hk := hd.known.symm
    simpa only [Job.isWrite, Job.isRead, beq_iff_eq] using hk

/-- In every fair run, whatever else is submitted and however the threads
interleave, from some time on the accepted commands that are finished are the
reads and writes of one flash page, and these went through all the stages of
their course. -/
theorem accepted_finishes (hF : Fair ρ) (t : Nat) :
    ∃ u, t ≤ u ∧ ∀ v, u ≤ v → ∀ a ∈ (ρ.state t).accs,
      (.finish ∈ (ρ.state v).events a.toJob ↔ servable a.cmd) ∧
        (servable a.cmd → (ρ.state v).events a.toJob = a.toJob.course) := by
  obtain ⟨u, htu, hu⟩ := all_finish hF (t := t) (List.Subset.refl _)
  refine ⟨u, htu, fun v huv a ha => ⟨⟨fun hf => ?_, fun hs => ?_⟩, hu v huv a ha⟩⟩
  · exact servable_of_finish (ρ.reachable v) ((run_grows (Nat.le_trans htu huv)).2.1.subset ha) hf
  · rw [hu v huv a ha hs]
    exact hs.finish_mem

end

/-- One write, from submission to its end. -/
theorem accepted_finishes_write : ∃ (ρ : (sys 0).Run) (t u : Nat) (a : Acc), Fair ρ ∧
    a ∈ (ρ.state t).accs ∧ t ≤ u ∧ ∀ v, u ≤ v → (ρ.state v).events a.toJob = a.toJob.course := by
  obtain ⟨ρ, hF, -, t, a, ha, hcmd⟩ := write_run
  obtain ⟨u, htu, hu⟩ := accepted_finishes hF t
  exact ⟨ρ, t, u, a, hF, ha, htu, fun v hv => (hu v hv a ha).2 (hcmd ▸ write_servable)⟩

/-! ## Acceptance catches up with submission -/

/-- The commands finished so far. -/
def Sys.finished (s : Sys) : Nat := s.log.countP fun e => e.kind = .finish

section
variable {mb : BitVec 32} {s s' : Sys} {n : Net}

theorem Sim.finished (h : Sim s n) : s.finished = n.finished := by
  have he := congrArg (List.countP fun e => e.1 = Kind.finish) h.log
  rw [List.countP_map, List.countP_map] at he
  exact he

/-- With an entry for every command on its way, one is free for the next. -/
theorem entry_free (hr : (sys mb).Reachable s) (hl : s.accs.length < s.finished + HCMD_NUM) :
    ∃ i hcl, getHostCmdEntry s.dev.hcl = (some i, hcl) := by
  obtain ⟨n, hn, h⟩ := (sim mb).reachable s hr
  have hcount : n.accepted.length = n.live.length + n.finished := counted_inv.reachable n hn
  refine getHostCmdEntry_of_lt ?_
  rw [h.allocated (inv_reachable hn)]
  rw [h.accs_length, h.finished] at hl
  omega

/-- Each finished command is counted. -/
theorem length_le_finished {as : List Acc} (hr : (sys mb).Reachable s) (hp : as <+: s.accs)
    (hf : ∀ a ∈ as, Kind.finish ∈ s.events a.toJob) : as.length ≤ s.finished := by
  obtain ⟨n, hI, h⟩ := reachable_sim hr
  have hnodup : (as.map Acc.toJob).Nodup := by
    refine List.Nodup.sublist (hp.sublist.map _) ?_
    rw [h.accs]
    exact hI.tracked.accepted_nodup
  have hsub : (as.map Acc.toJob).map (Prod.mk Kind.finish) ⊆ n.log.filter fun e => e.1 = .finish := by
    intro e he
    simp only [List.mem_map] at he
    obtain ⟨j, ⟨a, ha, rfl⟩, rfl⟩ := he
    refine List.mem_filter.mpr ⟨mem_hist.mp ?_, by simp⟩
    rw [← h.events]
    exact hf a ha
  have hle := (List.subperm_of_subset (hnodup.map fun _ _ e => (Prod.mk.inj e).2) hsub).length_le
  rw [h.finished, Net.finished, List.countP_eq_length_filter]
  simpa using hle

end

section
variable {mb : BitVec 32} {ρ : (sys mb).Run}

/-- Each accepted command is a submitted one. -/
theorem accs_servable (hc : ∀ t, ∀ c ∈ (ρ.state t).submitted, servable c) {t : Nat} {a : Acc}
    (ha : a ∈ (ρ.state t).accs) : servable a.cmd := by
  obtain ⟨free, rdy, h, hI⟩ := (slots_inv mb).reachable _ (ρ.reachable t)
  refine hc t _ (hI.delivered.symm.subset (List.mem_append_right _ ?_))
  exact List.mem_map_of_mem ha

/-- As long as fewer commands were accepted than submitted, and nothing is on
its way, the next call of `FTL_nvme_req_polling` accepts one. -/
theorem accepts_next (hF : Fair ρ) {t : Nat} (hw : ∀ u, t ≤ u →
      (ρ.state u).accs.length < (ρ.state u).submitted.length ∧
        (ρ.state u).accs.length < (ρ.state u).finished + HCMD_NUM) :
    ∃ u, t ≤ u ∧ (ρ.state t).accs.length < (ρ.state u).accs.length := by
  have hgot : LeadsTo (fun u => t ≤ u ∧ (ρ.state u).ftl = .poll 0)
      fun u => t ≤ u ∧ ∃ i index c, (ρ.state u).ftl = .got i index c := by
    refine ftl_next hF (fun u h e => ⟨Nat.le_succ_of_le h.1, e.trans h.2⟩) fun u h hs => ?_
    obtain ⟨htu, hp⟩ := h
    obtain ⟨k, d, hI⟩ := exists_desk (ρ.reachable u)
    have hc : (ρ.state u).shm.ctrl = false := by
      rw [Bool.eq_false_iff]
      intro hc
      rw [ftlStep_locked mb (by rw [hp]; rfl) hc] at hs
      cases hs
    cases hr : d.rdy with
    | nil =>
      have hlen := hI.submitted_length
      have hlt := (hw u htu).1
      rw [hr, hp] at hlen
      simp only [FtlPc.cmds, List.length_nil] at hlen
      omega
    | cons x rdy =>
      obtain ⟨m, c, e, -⟩ := hI.got hp hc hr
      have hlt : 0 < MAX_POLLING_NUM := by decide
      simp only [ftlStep, hp, hlt, if_true, e] at hs
      refine ⟨Nat.le_succ_of_le htu, 0, x.1, c, ?_⟩
      rw [← Option.some.inj hs]
  have hacc : LeadsTo (fun u => t ≤ u ∧ ∃ i index c, (ρ.state u).ftl = .got i index c)
      fun u => (ρ.state t).accs.length < (ρ.state u).accs.length ∧ t ≤ u := by
    refine ftl_next hF (fun u h e => ⟨Nat.le_succ_of_le h.1, ?_⟩) fun u h hs => ?_
    · obtain ⟨i, index, c, hp⟩ := h.2
      exact ⟨i, index, c, e.trans hp⟩
    · obtain ⟨htu, i, index, c, hp⟩ := h
      obtain ⟨k, hcl, hget⟩ := entry_free (ρ.reachable u) (hw u htu).2
      simp only [ftlStep, hp, hget] at hs
      have hle := (run_grows (ρ := ρ) htu).2.1.length_le
      have hone : (ρ.state (u + 1)).accs.length = (ρ.state u).accs.length + 1 := by
        rw [← Option.some.inj hs]
        simp [acceptInto]
      exact ⟨by omega, Nat.le_succ_of_le htu⟩
  obtain ⟨u, htu, hp⟩ := poll_often hF t
  obtain ⟨v, huv, hv⟩ := (hgot.trans hacc) u ⟨htu, hp⟩
  exact ⟨v, Nat.le_trans htu huv, hv.1⟩

/-- **Acceptances catch up.** -/
theorem accs_catch_up (hF : Fair ρ) (hc : ∀ t, ∀ c ∈ (ρ.state t).submitted, servable c) (t : Nat) :
    ∃ u, t ≤ u ∧ (ρ.state t).submitted.length ≤ (ρ.state u).accs.length := by
  refine Classical.byContradiction fun hno => ?_
  have hlt : ∀ u, t ≤ u → (ρ.state u).accs.length < (ρ.state t).submitted.length := fun u hu =>
    Nat.lt_of_not_le fun hge => hno ⟨u, hu, hge⟩
  -- no more are accepted, so all that were are finished
  obtain ⟨v, htv, hv⟩ := exists_settled (m := fun t => (ρ.state t).accs.length)
    (fun t u htu => (run_grows htu).2.1.length_le) t hlt
  obtain ⟨w, hvw, hw⟩ := all_finish hF (t := v) (List.Subset.refl _)
  have hsame : ∀ u, w ≤ u → (ρ.state u).accs = (ρ.state v).accs := fun u hu =>
    ((run_grows (Nat.le_trans hvw hu)).2.1.eq_of_length (hv u (Nat.le_trans hvw hu)).symm).symm
  have hfin : ∀ u, w ≤ u → (ρ.state u).accs.length ≤ (ρ.state u).finished := fun u hu => by
    refine length_le_finished (ρ.reachable u) List.prefix_rfl fun a ha => ?_
    rw [hw u hu a (hsame u hu ▸ ha) (accs_servable hc ha)]
    exact (accs_servable hc ha).finish_mem
  -- and the next one is accepted
  obtain ⟨u, hwu, hu⟩ := accepts_next hF (t := w) fun u hu => by
    have h1 := hlt u (by omega)
    have h2 := (run_grows (ρ := ρ) (show t ≤ u by omega)).1.length_le
    have h3 := hfin u hu
    exact ⟨by omega, by unfold HCMD_NUM; omega⟩
  rw [hsame u hwu, hsame w (Nat.le_refl w)] at hu
  exact absurd hu (Nat.lt_irrefl _)

/-- When only reads and writes of one flash page are submitted, as many
commands finish as were submitted, whatever is refused on the way. -/
theorem submissions_served (hF : Fair ρ) (hc : ∀ t, ∀ c ∈ (ρ.state t).submitted, servable c) (t : Nat) :
    ∃ u, t ≤ u ∧ (ρ.state t).submitted.length ≤ (ρ.state u).finished := by
  obtain ⟨u, htu, hu⟩ := accs_catch_up hF hc t
  obtain ⟨w, huw, hw⟩ := all_finish hF (t := u) (List.Subset.refl _)
  refine ⟨w, Nat.le_trans htu huw, Nat.le_trans hu ?_⟩
  refine length_le_finished (ρ.reachable w) (run_grows huw).2.1 fun a ha => ?_
  rw [hw w (Nat.le_refl w) a ha (accs_servable hc ha)]
  exact (accs_servable hc ha).finish_mem

end

/-- The same write, counted. -/
theorem submissions_served_write : ∃ (ρ : (sys 0).Run) (t u : Nat), Fair ρ ∧
    (ρ.state t).submitted.length = 1 ∧ t ≤ u ∧ 1 ≤ (ρ.state u).finished := by
  obtain ⟨ρ, hF, hall, t, a, ha, -⟩ := write_run
  have hlen := write_submitted hall ha
  obtain ⟨u, htu, hu⟩ := submissions_served hF (fun t => write_all (hall t)) t
  exact ⟨ρ, t, u, hF, hlen, htu, hlen ▸ hu⟩

/-! ## No refusals -/

section
variable {mb : BitVec 32} {ρ : (sys mb).Run}

/-- With never more than 256 commands on their way, nothing is refused. -/
theorem never_refused (hroom : ∀ t, (ρ.state t).submitted.length ≤ (ρ.state t).finished + HCMD_NUM)
    (t : Nat) : ((sys mb).restrict PutBackAlone).Reachable (ρ.state t) ∧
      ∀ i index c, (ρ.state t).ftl ≠ .put i index c := by
  induction t with
  | zero =>
    refine ⟨.start ρ.init, fun i index c e => ?_⟩
    obtain ⟨m, -, hm⟩ := ρ.init
    rw [hm] at e
    cases e
  | succ t ih =>
    obtain ⟨hr, hput⟩ := ih
    rcases run_cases ρ t with e | ⟨l, -, hs⟩
    · rw [e]
      exact ⟨hr, hput⟩
    refine ⟨hr.next ⟨fun _ i index c hp => absurd hp (hput i index c), hs⟩, fun i index c hp => ?_⟩
    cases l with
    | host k a => exact hput i index c ((hostStep_frame hs).2.2.2.2.1 ▸ hp)
    | be => exact hput i index c ((be_frame hs).2.1 ▸ hp)
    | ftl =>
      have hstep := ftlStep_cases hs
      generalize ρ.state (t + 1) = s' at hstep hp
      cases hstep with
      | refuse h e =>
        obtain ⟨k, d, hI⟩ := exists_desk (ρ.reachable t)
        have hlen := hI.submitted_length
        rw [h] at hlen
        simp only [FtlPc.cmds, List.length_singleton] at hlen
        have hle := hroom t
        obtain ⟨i, hcl, hget⟩ := entry_free (ρ.reachable t) (by omega)
        rw [hget] at e
        cases e
      | @served q => cases q <;> cases hp
      | round h => exact hput i index c hp
      | _ => cases hp

/-- With, besides, never more than 256 commands on their way, the first
acceptances are of the submitted commands in the order of submission, and each
of them goes through its course. -/
theorem submitted_finishes (hF : Fair ρ) (hc : ∀ t, ∀ c ∈ (ρ.state t).submitted, servable c)
    (hroom : ∀ t, (ρ.state t).submitted.length ≤ (ρ.state t).finished + HCMD_NUM) (t : Nat) :
    ∃ u, t ≤ u ∧ ∀ v, u ≤ v → ∃ as, as <+: (ρ.state v).accs ∧
      as.map (fun a => a.cmd) = (ρ.state t).submitted ∧
      ∀ a ∈ as, (ρ.state v).events a.toJob = a.toJob.course := by
  obtain ⟨u, htu, hu⟩ := accs_catch_up hF hc t
  -- by now the submissions of time `t` are the first acceptances
  obtain ⟨h, d, hI, ho⟩ := (in_order_inv mb).reachable _ (never_refused hroom u).1
  have horder : (ρ.state u).accs.map (fun a => a.cmd) <+: (ρ.state u).submitted := by
    have ho : d.accepted.map Prod.snd ++ _ = d.submitted := ho
    rw [hI.accs_cmds, hI.submitted, ← ho]
    exact List.prefix_append _ _
  have hpre : (ρ.state t).submitted <+: (ρ.state u).accs.map fun a => a.cmd :=
    List.prefix_of_prefix_length_le (run_grows htu).1 horder (by simpa using hu)
  have hfirst : ((ρ.state u).accs.take (ρ.state t).submitted.length).map (fun a => a.cmd) =
      (ρ.state t).submitted := by
    rw [List.map_take]
    exact (List.prefix_iff_eq_take.mp hpre).symm
  obtain ⟨w, huw, hw⟩ := all_finish hF (t := u) (List.take_subset (ρ.state t).submitted.length _)
  exact ⟨w, Nat.le_trans htu huw, fun v hv => ⟨_, (List.take_prefix _ _).trans
    (run_grows (Nat.le_trans huw hv)).2.1, hfirst,
    fun a ha => hw v hv a ha (accs_servable hc (List.mem_of_mem_take ha))⟩⟩

end

/-- One write, accepted first and finished. -/
theorem submitted_finishes_write : ∃ (ρ : (sys 0).Run) (u : Nat) (as : List Acc), Fair ρ ∧
    as <+: (ρ.state u).accs ∧ as.map (fun a => a.cmd) = [⟨SHM_WRITE_OPS, 20, 16384⟩] ∧
    ∀ a ∈ as, (ρ.state u).events a.toJob = a.toJob.course := by
  obtain ⟨ρ, hF, hall, t, a, ha, -⟩ := write_run
  have hroom : ∀ t, (ρ.state t).submitted.length ≤ (ρ.state t).finished + HCMD_NUM := fun t => by
    have hle := (hall t).length_le
    rw [List.length_singleton] at hle
    unfold HCMD_NUM
    omega
  obtain ⟨u, -, hu⟩ := submitted_finishes hF (fun t => write_all (hall t)) hroom t
  obtain ⟨as, hpre, hcmd, hcourse⟩ := hu u (Nat.le_refl u)
  refine ⟨ρ, u, as, hF, hpre, hcmd.trans ?_, hcourse⟩
  exact (hall t).eq_of_length (write_submitted hall ha)

end OpenSSDEmu.L4.Pipeline
