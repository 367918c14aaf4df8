import Mathlib.Data.List.ProdSigma
import OpenSSDEmu.L4Pipeline.Protocol
import OpenSSDEmu.L4Pipeline.Rounds

/-!
# Draining the pipeline

With no command waiting, the FTL and the backend can always be run until
nothing is left for them to do. The measure is the events still to come: a
job has at most ten, so the log is at most ten times as long as the list of
accepted commands, and a round that serves nothing finds nothing.

* `Tracked.log_length_le`: the bound.
* `Ready.progress`: from any state with something left, a longer log.
* `Ready.drain`: the run.
-/
namespace OpenSSDEmu.L4.Jobs

/-- Every kind of event. -/
def kinds : List Kind := [.accept, .check, .send, .take, .exec, .post, .cq, .fromCq, .dataMove, .finish]

theorem mem_kinds (k : Kind) : k ∈ kinds := by cases k <;> decide

theorem Job.course_nodup (j : Job) : j.course.Nodup := by
  unfold Job.course
  split
  · decide
  · split <;> decide

section
variable {n : Net}

/-- Nothing happens twice to a job. -/
theorem Tracked.hist_nodup (h : Tracked n) {j : Job} (hj : j ∈ n.accepted) : (n.hist j).Nodup := by
  rcases h.gone j hj with ⟨p, hp⟩ | hp
  · exact (h.here p j hp).2.initial.sublist.nodup j.course_nodup
  · exact hp.initial.sublist.nodup j.course_nodup

theorem Tracked.log_nodup (h : Tracked n) : n.log.Nodup := by
  refine List.nodup_iff_count_le_one.mpr fun e => ?_
  by_cases he : e ∈ n.log
  · have h1 : n.log.count e = (n.log.filter fun e' => e'.2 = e.2).count e :=
      (List.count_filter (by simp)).symm
    have h2 : (n.log.filter fun e' => e'.2 = e.2).count e ≤ (n.hist e.2).count e.1 :=
      List.count_le_count_map
    have h3 := List.nodup_iff_count_le_one.mp (h.hist_nodup (h.known e he)) e.1
    omega
  · rw [List.count_eq_zero_of_not_mem he]
    exact Nat.zero_le _

/-- At most ten events for each command. -/
theorem Tracked.log_length_le (h : Tracked n) : n.log.length ≤ 10 * n.accepted.length := by
  have hsub : n.log ⊆ kinds ×ˢ n.accepted := fun e he =>
    List.mem_product.mpr ⟨mem_kinds e.1, h.known e he⟩
  have hle := (List.subperm_of_subset h.log_nodup hsub).length_le
  rwa [List.length_product] at hle

end

end OpenSSDEmu.L4.Jobs

namespace OpenSSDEmu.L4.Pipeline
open L2.Hcl L2.Fcl L2.Shmem L2.TaskQueue
open Jobs hiding step Lbl

/-- Nothing is queued and nothing is outstanding. -/
def quiet (s : Sys) : Bool :=
  statuses.all (fun q => isEmpty (s.dev.tq q)) && s.dev.registerList.isEmpty &&
    s.dev.completeList.isEmpty && decide (s.be = .idle)

section
variable {mb : BitVec 32} {s s' : Sys} {n : Net} {d : Desk Nat HostCmd}

theorem quiet_iff : quiet s = true ↔ (∀ q, isEmpty (s.dev.tq q) = true) ∧
    s.dev.registerList = [] ∧ s.dev.completeList = [] ∧ s.be = .idle := by
  have hall : ∀ q, q ∈ statuses := fun q => by cases q <;> decide
  simp only [quiet, Bool.and_eq_true, List.all_eq_true, List.isEmpty_iff, decide_eq_true_eq, and_assoc]
  exact and_congr_left' ⟨fun h q => h q (hall q), fun h q _ => h q⟩

/-- In a quiet state only stranded jobs are left. -/
theorem stranded_of_quiet (h : Sim s n) (hq : quiet s = true) {j : Job} (hj : j ∈ n.live) :
    j ∈ n.jobs .stranded := by
  obtain ⟨hring, hreg, hcpl, hbe⟩ := quiet_iff.mp hq
  have hp := h.dev.places
  obtain ⟨p, hjp⟩ := mem_live.mp hj
  have hnil : ∀ {l : List EmuSq} {m : List Job}, l.map EmuSq.hcmd = m.map Job.idx → l = [] → m = [] := by
    rintro _ m hm rfl; simpa using hm.symm
  match p with
  | .queue q =>
    have he := (hp.ring q).isEmpty_iff.mp (hring q)
    rw [List.map_eq_nil_iff.mp he] at hjp; cases hjp
  | .registered => rw [hnil hp.reg hreg] at hjp; cases hjp
  | .inHand => rw [hnil hp.hand (by rw [hbe]; rfl)] at hjp; cases hjp
  | .executed => rw [hnil hp.done (by rw [hbe]; rfl)] at hjp; cases hjp
  | .completed => rw [hnil hp.cpl hcpl] at hjp; cases hjp
  | .stranded => exact hjp

theorem log_length_le (hr : (sys mb).Reachable s) : s.log.length ≤ 10 * s.accs.length := by
  obtain ⟨n, hI, h⟩ := reachable_sim hr
  have h1 : s.log.length = n.log.length := by simpa using congrArg List.length h.log
  rw [h1, h.accs_length]
  exact hI.tracked.log_length_le

/-- Nothing ever enters the queue that has no handler. -/
theorem waitCq_empty (hr : (sys mb).Reachable s) : isEmpty (s.dev.tq .waitCq) = true := by
  obtain ⟨n, hI, h⟩ := reachable_sim hr
  have hnone : n.jobs (.queue .waitCq) = [] := List.eq_nil_iff_forall_not_mem.mpr fun j hj =>
    absurd (hI.tracked.here _ j hj).2.at id
  exact (h.dev.places.ring .waitCq).isEmpty_iff.mpr (by rw [hnone]; rfl)

/-- The backend waits only for work. -/
theorem beStep_none (hs : beStep s = none) (hp : s.ftl ≠ .cqLoop) :
    s.be = .idle ∧ s.dev.registerList = [] := by
  unfold beStep at hs
  split at hs
  · rename_i hb
    simp only [hp, if_false] at hs
    split at hs
    · rename_i he
      exact ⟨hb, he⟩
    · cases hs
  · cases hs
  · simp [hp] at hs

/-- The backend takes a step. -/
theorem Open.be (hO : Open mb s d) (hs : beStep s = some s') :
    Open mb s' d ∧ s'.ftl = s.ftl ∧ s.log.length < s'.log.length := by
  have hlen : s'.ftl = s.ftl ∧ s'.shm = s.shm ∧ s.log.length < s'.log.length := by
    cases beStep_cases hs <;> exact ⟨rfl, rfl, by simp⟩
  obtain ⟨hp, hm, hl⟩ := hlen
  obtain ⟨h, hI⟩ := hO.desk
  refine ⟨⟨hO.reach.next (l := .be) hs, ⟨h, hI.be_step hs⟩, ?_⟩, hp, hl⟩
  rw [hm]
  exact hO.unlocked

/-- Something can be done as long as something is left. -/
theorem Ready.progress (h : Ready mb s d) (hq : quiet s = false) :
    ∃ s', Ready mb s' d ∧ s.log.length < s'.log.length := by
  cases hs : beStep s with
  | some s' =>
    obtain ⟨hO', hp', hl⟩ := h.toOpen.be hs
    exact ⟨s', ⟨hO', hp'.trans h.poll, h.rdy, h.hand⟩, hl⟩
  | none =>
    -- the backend waits, so the FTL goes round
    obtain ⟨s', hO', hp', hl | ⟨-, -, -, hring, hcpl⟩⟩ := h.toOpen.poll h.hand h.rdy h.poll
    · exact ⟨s', ⟨hO', hp', h.rdy, h.hand⟩, hl⟩
    · obtain ⟨hbe, hreg⟩ := beStep_none hs (by simp [h.poll])
      have hquiet : quiet s = true := by
        refine quiet_iff.mpr ⟨fun q => ?_, hreg, hcpl, hbe⟩
        by_cases e : q = .waitCq
        · rw [e]
          exact waitCq_empty h.reach
        · exact hring q e
      rw [hquiet] at hq
      cases hq

/-- **The pipeline can be drained.** -/
theorem Ready.drain (h : Ready mb s d) : ∃ s', Ready mb s' d ∧ quiet s' = true := by
  -- the desk stays as it is, and with it the bound on the log
  have hbound : ∀ {t}, Ready mb t d → t.log.length ≤ 10 * d.accepted.length := fun h => by
    obtain ⟨k, hI⟩ := h.desk
    rw [← hI.accs_length]
    exact log_length_le h.reach
  generalize hk : 10 * d.accepted.length - s.log.length = k
  induction k using Nat.strongRecOn generalizing s with
  | ind k ih =>
    cases hq : quiet s with
    | true => exact ⟨s, h, hq⟩
    | false =>
      obtain ⟨s', h', hl⟩ := h.progress hq
      have := hbound h'
      exact ih _ (by omega) h' rfl

end

end OpenSSDEmu.L4.Pipeline
