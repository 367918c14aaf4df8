import OpenSSDEmu.Core.Fair
import OpenSSDEmu.L4Pipeline.Acceptance
import OpenSSDEmu.L4Pipeline.Calls
import OpenSSDEmu.L4Pipeline.Drain

/-!
# The threads under a fair scheduler

Infinite runs of the emulator in which every thread gets its turn (`Fair`, a
hypothesis about the scheduler). A submitter that is past the lock goes on;
the FTL and the backend, which contend for a lock, get it if it is free again
and again. Nobody is asked to submit anything. A backend that executes a request
does so in one step, which stands for a call of `BE_read_log` or `BE_write_log`
that returns.

* `lock_freed`: the lock of shared memory is released again and again, so the
  FTL never stops (`ftl_often`).
* `goes_round`: the FTL loop comes round to each queue it serves, and to the
  completions, again and again, and leaves none of them before it is empty.
* `backend_takes`, `backend_execs`, `backend_posts`: nothing stays with the backend.
* `fair_run`: a schedule that ends with nothing left to do is the start of a
  fair run.
-/
namespace OpenSSDEmu.L4.Pipeline
open L2.Hcl L2.Fcl L2.Shmem L2.TaskQueue LTS
open Jobs hiding step Lbl

/-- A step of submitter `k` that is not the attempt to take the lock. -/
def Lbl.within (k : Host) (l : Lbl) : Prop := ∃ a, l = .host k a ∧ a ≠ .get

/-- Each thread gets its turns, where a step of the backend stands for a call that
returns. -/
structure Fair {mb : BitVec 32} (ρ : (sys mb).Run) : Prop where
  ftl : ρ.Strong (· = .ftl)
  be : ρ.Strong (· = .be)
  host : ∀ k, ρ.Weak (Lbl.within k)

/-! ## The lock -/

/-- The steps of a submitter up to the release of the lock. -/
def HostPc.left : HostPc → Nat
  | .idle => 0
  | .placed => 1
  | .taken _ => 2
  | .locked => 3

section
variable {mb : BitVec 32} {s s' : Sys} {h k : Host} {d : Desk Nat HostCmd}

theorem be_frame (hs : beStep s = some s') :
    s'.host = s.host ∧ s'.ftl = s.ftl ∧ s'.shm = s.shm ∧ s'.accs = s.accs := by
  cases beStep_cases hs <;> exact ⟨rfl, rfl, rfl, rfl⟩

/-- The backend adds no completion while the FTL works on them. -/
theorem be_completeList (hs : beStep s = some s') (hp : s.ftl = .cqLoop) :
    s'.dev.completeList = s.dev.completeList := by
  cases beStep_cases hs with
  | take _ hne | post _ hne => exact absurd hp hne
  | exec => rfl

theorem ctrl_of_host (hr : (sys mb).Reachable s) (hk : s.host k ≠ .idle) : s.shm.ctrl = true := by
  obtain ⟨free, rdy, h, hI⟩ := (slots_inv mb).reachable s hr
  obtain rfl := hI.host_eq hk
  exact hI.lock.mpr hk

/-- Past the lock there is always a next step. -/
theorem host_progress (hr : (sys mb).Reachable s) (hk : s.host k ≠ .idle) :
    ∃ l s', Lbl.within k l ∧ step mb s l = some s' := by
  obtain ⟨h, d, hI⟩ := exists_desk hr
  obtain rfl := hI.slots.host_eq hk
  cases hpc : s.host k with
  | idle => exact absurd hpc hk
  | placed => exact ⟨.host k .release, _, ⟨.release, rfl, by decide⟩, by simp [step, hostStep, hpc]; rfl⟩
  | taken i =>
    obtain ⟨s', hs⟩ := put_progress hr hpc ⟨SHM_READ_OPS, 0, 0⟩
    exact ⟨_, s', ⟨_, rfl, HostAct.noConfusion⟩, hs⟩
  | locked =>
    cases hf : d.free with
    | nil =>
      have hfree := hI.slots.lists.freeL
      rw [hf] at hfree
      refine ⟨.host k .wait, s.setHost k .idle (shmRelease s.shm), ⟨.wait, rfl, by decide⟩, ?_⟩
      simp only [step, hostStep, hpc, Host.listEmpty_eq, hfree.empty_iff.mpr rfl, and_self, if_true]
    | cons i free =>
      obtain ⟨m, em, -⟩ := hI.take hpc hf
      have he : shmListEmpty s.shm .free = false := by
        rw [Bool.eq_false_iff]
        intro he
        rw [hI.slots.lists.freeL.empty_iff, hf] at he
        cases he
      refine ⟨.host k .take, s.setHost k (.taken i) m, ⟨.take, rfl, by decide⟩, ?_⟩
      simp only [step, hostStep, hpc, he, em, Host.listEmpty_eq, Host.listRemove_eq, and_self, if_true,
        Option.bind_eq_bind, Option.bind_some, Option.pure_def]

/-- The holder of the lock releases it or comes closer to that, and nobody
else gets past it. -/
theorem hostStep_left {a : HostAct} (hr : (sys mb).Reachable s) (hh : s.host h ≠ .idle)
    (hs : hostStep s k a = some s') :
    s'.shm.ctrl = false ∨ (s'.host h ≠ .idle ∧ (s'.host h).left < (s.host h).left) := by
  have hc := ctrl_of_host hr hh
  obtain ⟨free, rdy, h', hI⟩ := (slots_inv mb).reachable s hr
  have hk : s.host k ≠ .idle → k = h := fun hk => (hI.host_eq hk).trans (hI.host_eq hh).symm
  cases hostStep_cases hs with
  | get _ e =>
    simp [shmGet, hc] at e
  | wait | sync | release => exact .inl rfl
  | take hl =>
    obtain rfl := hk (by simp [hl])
    right
    simp [Sys.setHost, hl, HostPc.left]
  | put hl =>
    obtain rfl := hk (by simp [hl])
    right
    simp [Sys.setHost, hl, HostPc.left]

end

section
variable {mb : BitVec 32} {ρ : (sys mb).Run}

/-- Nothing happens, or some thread takes a step. -/
theorem run_cases (ρ : (sys mb).Run) (t : Nat) :
    ρ.state (t + 1) = ρ.state t ∨ ∃ l, ρ.label t = some l ∧
      step mb (ρ.state t) l = some (ρ.state (t + 1)) := ρ.cases t

theorem taken_step {K : Lbl → Prop} {t : Nat} (h : ρ.Takes K t) :
    ∃ l, K l ∧ step mb (ρ.state t) l = some (ρ.state (t + 1)) := by
  obtain ⟨l, hl, e⟩ := h
  exact ⟨l, hl, ρ.step t l e⟩

/-- **Nobody keeps the lock.** -/
theorem lock_freed (hH : ∀ k, ρ.Weak (Lbl.within k)) : Often fun t => (ρ.state t).shm.ctrl = false := by
  intro t
  by_cases hc : (ρ.state t).shm.ctrl = false
  · exact ⟨t, Nat.le_refl t, hc⟩
  obtain ⟨free, rdy, h, hI⟩ := (slots_inv mb).reachable _ (ρ.reachable t)
  have hh : (ρ.state t).host h ≠ .idle := hI.lock.mp (by simpa using hc)
  refine LeadsTo.descend (P := fun t => (ρ.state t).host h ≠ .idle)
    (fun t => ((ρ.state t).host h).left) (B := ρ.Takes (Lbl.within h))
    (fun u hu => ?_) (fun u hu hB => ?_) (fun u hu => ?_) t hh
  · rcases run_cases ρ u with e | ⟨l, -, hs⟩
    · exact .inr ⟨e ▸ hu, by rw [e]⟩
    · cases l with
      | host k a => exact (hostStep_left (ρ.reachable u) hu hs).imp_right fun x => ⟨x.1, Nat.le_of_lt x.2⟩
      | ftl =>
        have e := ftlStep_host hs
        exact .inr ⟨by rwa [e], by rw [e]⟩
      | be =>
        have e := (be_frame hs).1
        exact .inr ⟨by rwa [e], by rw [e]⟩
  · obtain ⟨l, ⟨a, rfl, -⟩, hs⟩ := taken_step hB
    exact hostStep_left (ρ.reachable u) hu hs
  · exact hH h ⟨u, fun v hv => host_progress (ρ.reachable v) (hu v hv)⟩ u

/-- The FTL takes one step after the other. -/
theorem ftl_often (hF : Fair ρ) : Often (ρ.Takes (· = .ftl)) := by
  refine hF.ftl ((lock_freed hF.host).mono fun t hc => ?_)
  obtain ⟨s', hs⟩ := ftl_progress (ρ.reachable t) hc
  exact ⟨.ftl, s', rfl, hs⟩

end

/-! ## The FTL loop -/

/-- The FTL is in its accept loop. -/
def FtlPc.accepting : FtlPc → Prop
  | .poll _ | .got _ _ _ | .free _ _ | .put _ _ _ => True
  | _ => False

/-- The sections left of the accept loop, at most. -/
def FtlPc.left : FtlPc → Nat
  | .poll i => 3 * (MAX_POLLING_NUM - i)
  | .got i _ _ => 3 * (MAX_POLLING_NUM - 1 - i) + 2
  | .free i _ | .put i _ _ => 3 * (MAX_POLLING_NUM - 1 - i) + 1
  | _ => 0

section
variable {mb : BitVec 32} {ρ : (sys mb).Run} {q : Status}

/-- What holds of the states of a run. -/
abbrev At (ρ : (sys mb).Run) (P : Sys → Prop) (t : Nat) : Prop := P (ρ.state t)

/-- The FTL gets from `P` to `Q` by steps that lower the measure, and the other
threads do not get in the way. -/
theorem ftl_leads {P Q : Sys → Prop} (hF : Fair ρ) (m : Sys → Nat)
    (other : ∀ s s', P s → s'.ftl = s.ftl → (s.ftl = .cqLoop → s'.dev.completeList = s.dev.completeList) →
      P s' ∧ m s' ≤ m s)
    (act : ∀ s s', (sys mb).Reachable s → P s → ftlStep mb s = some s' → Q s' ∨ (P s' ∧ m s' < m s)) :
    LeadsTo (At ρ P) (At ρ Q) := by
  refine LeadsTo.descend (fun t => m (ρ.state t)) (B := ρ.Takes (· = .ftl)) (fun t hp => ?_)
    (fun t hp hB => ?_) fun t _ => ftl_often hF t
  · rcases run_cases ρ t with e | ⟨l, -, hs⟩
    · exact .inr ⟨show P _ from e ▸ hp, by rw [e]⟩
    · cases l with
      | host k a =>
        obtain ⟨h1, -, -, -, h5, -⟩ := hostStep_frame hs
        exact .inr (other _ _ hp h5 fun _ => by rw [h1])
      | be =>
        exact .inr (other _ _ hp (be_frame hs).2.1 (be_completeList hs))
      | ftl => exact (act _ _ (ρ.reachable t) hp hs).imp_right fun x => ⟨x.1, Nat.le_of_lt x.2⟩
  · obtain ⟨l, rfl, hs⟩ := taken_step hB
    exact act _ _ (ρ.reachable t) hp hs

/-- What the next step of the FTL brings about. -/
theorem ftl_next {P Q : Nat → Prop} (hF : Fair ρ)
    (keep : ∀ t, P t → (ρ.state (t + 1)).ftl = (ρ.state t).ftl → P (t + 1))
    (act : ∀ t, P t → ftlStep mb (ρ.state t) = some (ρ.state (t + 1)) → Q (t + 1)) : LeadsTo P Q := by
  refine LeadsTo.ensure (B := ρ.Takes (· = .ftl)) (fun t hp => ?_) (fun t hp hB => ?_)
    fun t _ => ftl_often hF t
  · rcases run_cases ρ t with e | ⟨l, -, hs⟩
    · exact .inr (keep t hp (by rw [e]))
    · cases l with
      | host k a => exact .inr (keep t hp (hostStep_frame hs).2.2.2.2.1)
      | be => exact .inr (keep t hp (be_frame hs).2.1)
      | ftl => exact .inl (act t hp hs)
  · obtain ⟨l, rfl, hs⟩ := taken_step hB
    exact act t hp hs

theorem leads_checkCache (hF : Fair ρ) :
    LeadsTo (At ρ fun s => s.ftl.accepting) (At ρ fun s => s.ftl = .stage .checkCache) := by
  refine ftl_leads hF (fun s => s.ftl.left) (fun s s' hp e _ => ⟨e ▸ hp, by rw [e]⟩)
    fun s s' _ hp hs => ?_
  cases ftlStep_cases hs with
  | empty h hi =>
    right
    refine ⟨trivial, ?_⟩
    simp only [FtlPc.left, h]
    omega
  | got h hi =>
    right
    refine ⟨trivial, ?_⟩
    simp only [FtlPc.left, h]
    omega
  | polled => exact .inl rfl
  | accept h | refuse h | giveBack h | putBack h =>
    right
    refine ⟨trivial, ?_⟩
    simp only [FtlPc.left, acceptInto, h]
    omega
  | stage h | skip h | serve h | served h | cq h | done h | round h =>
    rw [h] at hp
    exact hp.elim

theorem leads_serve (hF : Fair ρ) :
    LeadsTo (At ρ fun s => s.ftl = .stage q) (At ρ fun s => ∃ cnt j, s.ftl = .serve q cnt j) := by
  refine ftl_next hF (fun t hp e => e.trans hp) fun t hp hs => ?_
  simp only [ftlStep, show (ρ.state t).ftl = .stage q from hp, Option.some.injEq] at hs
  show ∃ cnt j, _
  rw [← hs]
  exact ⟨_, _, rfl⟩

/-- The queue `q` has been served to its end. -/
def Served (q : Status) (s : Sys) : Prop := ∃ cnt j, s.ftl = .serve q cnt j ∧ ¬ j < cnt

def FtlPc.toServe : FtlPc → Nat
  | .serve _ cnt j => cnt - j
  | _ => 0

theorem leads_served (hF : Fair ρ) :
    LeadsTo (At ρ fun s => ∃ cnt j, s.ftl = .serve q cnt j) (At ρ (Served q)) := by
  intro t ht
  by_cases hnow : Served q (ρ.state t)
  · exact ⟨t, Nat.le_refl t, hnow⟩
  refine ftl_leads (P := fun s => ∃ cnt j, s.ftl = .serve q cnt j ∧ j < cnt) hF (fun s => s.ftl.toServe)
    (fun s s' hp e _ => ⟨e ▸ hp, by rw [e]⟩) (fun s s' _ hp hs => ?_) t ?_
  · obtain ⟨cnt, j, h, hlt⟩ := hp
    have hs' : s'.ftl = .serve q cnt (j + 1) := by
      simp only [ftlStep, h, hlt, if_true] at hs
      split at hs <;> cases hs <;> rfl
    by_cases hl : j + 1 < cnt
    · right
      refine ⟨⟨cnt, j + 1, hs', hl⟩, ?_⟩
      simp only [FtlPc.toServe, h, hs']
      omega
    · exact .inl ⟨cnt, j + 1, hs', hl⟩
  · obtain ⟨cnt, j, h⟩ := ht
    exact ⟨cnt, j, h, Nat.lt_of_not_le fun hge => hnow ⟨cnt, j, h, Nat.not_lt.mpr hge⟩⟩

theorem leads_after (hF : Fair ρ) :
    LeadsTo (At ρ (Served q)) (At ρ fun s => s.ftl = .after q) := by
  refine ftl_next hF (fun t hp e => ?_) fun t hp hs => ?_
  · obtain ⟨cnt, j, h, hlt⟩ := hp
    exact ⟨cnt, j, e.trans h, hlt⟩
  · obtain ⟨cnt, j, h, hlt⟩ := hp
    simp only [ftlStep, h, hlt, if_false, Option.some.injEq] at hs
    show (ρ.state (t + 1)).ftl = _
    rw [← hs]

/-- Each queue that is reached is served to its end, and the next one reached. -/
theorem leads_next (hF : Fair ρ) :
    LeadsTo (At ρ fun s => s.ftl = .stage q) (At ρ fun s => s.ftl = .after q) :=
  ((leads_serve hF).trans (leads_served hF)).trans (leads_after hF)

theorem leads_cqLoop (hF : Fair ρ) :
    LeadsTo (At ρ fun s => s.ftl = .cq) (At ρ fun s => s.ftl = .cqLoop) := by
  refine ftl_next hF (fun t hp e => e.trans hp) fun t hp hs => ?_
  simp only [ftlStep, show (ρ.state t).ftl = .cq from hp, Option.some.injEq] at hs
  show (ρ.state (t + 1)).ftl = _
  rw [← hs]

/-- The completion list has been emptied. -/
def Polled (s : Sys) : Prop := s.ftl = .cqLoop ∧ s.dev.completeList = []

theorem leads_polled (hF : Fair ρ) :
    LeadsTo (At ρ fun s => s.ftl = .cqLoop) (At ρ Polled) := by
  intro t ht
  by_cases hnow : Polled (ρ.state t)
  · exact ⟨t, Nat.le_refl t, hnow⟩
  refine ftl_leads (P := fun s => s.ftl = .cqLoop ∧ s.dev.completeList ≠ []) hF
    (fun s => s.dev.completeList.length) (fun s s' hp e hc => ?_) (fun s s' _ hp hs => ?_) t
    ⟨ht, fun e => hnow ⟨ht, e⟩⟩
  · have hc := hc hp.1
    exact ⟨⟨e.trans hp.1, by rw [hc]; exact hp.2⟩, by rw [hc]⟩
  · cases hl : s.dev.completeList with
    | nil => exact absurd hl hp.2
    | cons sq rest =>
      simp only [ftlStep, hp.1, hl, Option.some.injEq] at hs
      subst hs
      have hrest := cqRound_completeList s.dev sq rest
      cases rest with
      | nil => exact .inl ⟨rfl, hrest⟩
      | cons x rest => exact .inr ⟨⟨rfl, by simp [hrest]⟩, by simp [hrest]⟩

theorem leads_poll (hF : Fair ρ) :
    LeadsTo (At ρ Polled) (At ρ fun s => s.ftl = .poll 0) := by
  refine ftl_leads hF (fun _ => 0) (fun s s' hp e hc => ⟨⟨e.trans hp.1, (hc hp.1).trans hp.2⟩, Nat.le_refl 0⟩)
    fun s s' _ hp hs => ?_
  simp only [ftlStep, hp.1, hp.2, Option.some.injEq] at hs
  subst hs
  exact .inl rfl

theorem leads_round_end (hF : Fair ρ) : LeadsTo (At ρ fun s => s.ftl = .cq) (At ρ fun s => s.ftl = .poll 0) :=
  ((leads_cqLoop hF).trans (leads_polled hF)).trans (leads_poll hF)

theorem leads_cq (hF : Fair ρ) (q : Status) :
    LeadsTo (At ρ fun s => s.ftl = .stage q) (At ρ fun s => s.ftl = .cq) := by
  have h5 : LeadsTo (At ρ fun s => s.ftl = .stage .finish) (At ρ fun s => s.ftl = .cq) := leads_next hF
  have h4 : LeadsTo (At ρ fun s => s.ftl = .stage .fromCq) (At ρ fun s => s.ftl = .cq) :=
    (leads_next hF).trans h5
  have h3 : LeadsTo (At ρ fun s => s.ftl = .stage .dataMoved) (At ρ fun s => s.ftl = .cq) :=
    (leads_next hF).trans h4
  have h2 : LeadsTo (At ρ fun s => s.ftl = .stage .toSq) (At ρ fun s => s.ftl = .cq) :=
    (leads_next hF).trans h3
  cases q with
  | checkCache => exact (leads_next hF).trans h2
  | toSq => exact h2
  | dataMoved => exact h3
  | fromCq => exact h4
  | finish => exact h5
  | waitCq => exact leads_next hF

theorem poll_often (hF : Fair ρ) : Often (At ρ fun s => s.ftl = .poll 0) := by
  intro t
  have hend := leads_round_end hF
  cases hp : (ρ.state t).ftl with
  | stage q => exact ((leads_cq hF q).trans hend) t hp
  | serve q cnt j =>
    have hafter : LeadsTo (At ρ fun s => s.ftl = .after q) (At ρ fun s => s.ftl = .cq) := by
      cases q with
      | finish | waitCq => exact .of_imp fun _ h => h
      | _ => exact leads_cq hF _
    exact (((leads_served hF).trans (leads_after hF)).trans (hafter.trans hend)) t ⟨cnt, j, hp⟩
  | cq => exact hend t hp
  | cqLoop => exact ((leads_polled hF).trans (leads_poll hF)) t hp
  | _ =>
    refine ((leads_checkCache hF).trans ((leads_cq hF _).trans hend)) t ?_
    show (ρ.state t).ftl.accepting
    rw [hp]
    trivial

/-- **The loop goes round**: again and again each queue with a handler, and the
completion list, is left empty. -/
theorem goes_round (hF : Fair ρ) :
    (∀ q, q ≠ .waitCq → Often (At ρ (Served q))) ∧ Often (At ρ Polled) := by
  have h1 : Often (At ρ fun s => s.ftl = .stage .checkCache) :=
    (poll_often hF).leadsTo ((LeadsTo.of_imp fun t (h : (ρ.state t).ftl = .poll 0) => by
      show (ρ.state t).ftl.accepting
      rw [h]
      trivial).trans (leads_checkCache hF))
  have h2 : Often (At ρ fun s => s.ftl = .stage .toSq) := h1.leadsTo (leads_next hF)
  have h3 : Often (At ρ fun s => s.ftl = .stage .dataMoved) := h2.leadsTo (leads_next hF)
  have h4 : Often (At ρ fun s => s.ftl = .stage .fromCq) := h3.leadsTo (leads_next hF)
  have h5 : Often (At ρ fun s => s.ftl = .stage .finish) := h4.leadsTo (leads_next hF)
  have hserved : ∀ {q}, Often (At ρ fun s => s.ftl = .stage q) → Often (At ρ (Served q)) := fun h =>
    h.leadsTo ((leads_serve hF).trans (leads_served hF))
  refine ⟨fun q hq => ?_, ?_⟩
  · cases q with
    | waitCq => exact absurd rfl hq
    | _ => exact hserved (by assumption)
  · exact (h5.leadsTo (leads_cq hF .finish)).leadsTo ((leads_cqLoop hF).trans (leads_polled hF))

end

/-! ## The backend -/

section
variable {mb : BitVec 32} {s s' : Sys} {i : Nat}

theorem handleTosq_registerList (d : Dev) (i : Nat) :
    d.registerList <+: (handleTosq mb d i).registerList := by
  rcases hg : getFreeSQEntry d.fcl fakePpa.ch.toNat with ⟨_ | k, f⟩
  · have h1 : (1 : UInt32).toNat = 1 := by decide
    have h2 : (0 : UInt32) < 1 := by decide
    simp only [handleTosq, h1, tosqLoop, h2, if_true, Dev.setEntry, hg]
    exact List.prefix_rfl
  · rw [handleTosq_eq hg]
    exact List.prefix_append _ _

/-- The FTL adds requests behind those that wait. -/
theorem ftlStep_registerList (hs : ftlStep mb s = some s') :
    s.dev.registerList <+: s'.dev.registerList := by
  cases ftlStep_cases hs with
  | @serve q cnt j i ring d d' hp hj e hd hd' =>
    subst hd' hd
    by_cases hq : q = .toSq
    · subst hq
      exact handleTosq_registerList
        { s.dev with tq := fun t => if t = Status.toSq then ring else s.dev.tq t } i
    · have e := (func_frame mb hq { s.dev with tq := fun t => if t = q then ring else s.dev.tq t } i).2.1
      exact e ▸ List.prefix_rfl
  | @round sq rest hp e =>
    simp only [cqRound_eq rfl]
    split <;> exact List.prefix_rfl
  | _ => exact List.prefix_rfl

/-- The requests that wait for the backend. -/
def Sys.waiting (s : Sys) : List Nat := s.dev.registerList.map EmuSq.hcmd

theorem waiting_nodup (hr : (sys mb).Reachable s) : s.waiting.Nodup := by
  obtain ⟨n, hI, h⟩ := reachable_sim hr
  rw [Sys.waiting, h.dev.places.reg]
  have hsub : (n.jobs .registered).Sublist n.live :=
    List.sublist_flatten_of_mem (List.mem_map_of_mem (mem_places _))
  exact (hsub.map Job.idx).nodup hI.live.nodup

/-- The steps of the backend until it takes the request of entry `i`. -/
def Sys.ahead (s : Sys) (i : Nat) : Nat :=
  3 * s.waiting.idxOf i + 2 * s.be.inHand.length + s.be.executed.length

/-- The backend has something to do. -/
def Sys.beWork (s : Sys) : Prop := s.be ≠ .idle ∨ s.dev.registerList ≠ []

theorem be_progress (hw : s.beWork) (hp : s.ftl ≠ .cqLoop) : ∃ s', step mb s .be = some s' := by
  cases hs : beStep s with
  | some s' => exact ⟨s', hs⟩
  | none =>
    obtain ⟨hb, hl⟩ := beStep_none hs hp
    rcases hw with hw | hw
    · exact absurd hb hw
    · exact absurd hl hw

/-- A step of the backend takes the request of entry `i` or comes closer to it. -/
theorem beStep_ahead (hr : (sys mb).Reachable s) (hi : i ∈ s.waiting) (hs : beStep s = some s') :
    i ∉ s'.waiting ∨ (i ∈ s'.waiting ∧ s'.ahead i < s.ahead i) := by
  cases beStep_cases hs with
  | @take sq rest hb hp e =>
    have hw : s.waiting = sq.hcmd :: rest.map EmuSq.hcmd := by rw [Sys.waiting, e, List.map_cons]
    have hn := waiting_nodup hr
    rw [hw] at hi hn
    by_cases heq : sq.hcmd = i
    · left
      rw [← heq]
      exact (List.nodup_cons.mp hn).1
    · have hrest : i ∈ rest.map EmuSq.hcmd := (List.mem_cons.mp hi).resolve_left (Ne.symm heq)
      right
      refine ⟨hrest, ?_⟩
      have hidx : s.waiting.idxOf i = (rest.map EmuSq.hcmd).idxOf i + 1 := by
        rw [hw, List.idxOf_cons_ne _ heq]
      unfold Sys.ahead
      rw [hidx, hb]
      simp only [Sys.waiting, BePc.inHand, BePc.executed, List.length_cons, List.length_nil]
      omega
  | exec hb =>
    right
    refine ⟨hi, ?_⟩
    simp only [Sys.ahead, hb, Sys.waiting, BePc.inHand, BePc.executed, List.length_cons, List.length_nil]
    omega
  | post hb hp =>
    right
    refine ⟨hi, ?_⟩
    simp only [Sys.ahead, hb, Sys.waiting, BePc.inHand, BePc.executed, List.length_cons, List.length_nil]
    omega

/-- No other step takes it away, or puts anything before it. -/
theorem other_ahead {l : Lbl} (hi : i ∈ s.waiting) (hs : step mb s l = some s') (hl : l ≠ .be) :
    i ∈ s'.waiting ∧ s'.ahead i = s.ahead i := by
  cases l with
  | host k a =>
    obtain ⟨h1, h2, -⟩ := hostStep_frame hs
    unfold Sys.waiting Sys.ahead
    unfold Sys.waiting at *
    rw [h1, h2]
    exact ⟨hi, rfl⟩
  | ftl =>
    obtain ⟨x, hx⟩ := ftlStep_registerList hs
    have hw : s'.waiting = s.waiting ++ x.map EmuSq.hcmd := by
      rw [Sys.waiting, ← hx, List.map_append]
      rfl
    have hbe : s'.be = s.be := by cases ftlStep_cases hs <;> rfl
    refine ⟨hw ▸ List.mem_append_left _ hi, ?_⟩
    rw [Sys.ahead, hw, hbe, List.idxOf_append_of_mem hi]
    rfl
  | be => exact absurd rfl hl

end

section
variable {mb : BitVec 32} {ρ : (sys mb).Run} {i : Nat}

/-- The backend gets from `P` to `Q`, as `ftl_leads` for the FTL. -/
theorem be_leads {P Q : Sys → Prop} (hF : Fair ρ) (m : Sys → Nat) (work : ∀ s, P s → s.beWork)
    (other : ∀ s l s', P s → step mb s l = some s' → l ≠ .be → P s' ∧ m s' ≤ m s)
    (act : ∀ s s', (sys mb).Reachable s → P s → beStep s = some s' → Q s' ∨ (P s' ∧ m s' < m s)) :
    LeadsTo (At ρ P) (At ρ Q) := by
  refine LeadsTo.descend (fun t => m (ρ.state t)) (B := ρ.Takes (· = .be)) (fun t hp => ?_)
    (fun t hp hB => ?_) fun t ht => ?_
  · rcases run_cases ρ t with e | ⟨l, -, hs⟩
    · exact .inr ⟨show P _ from e ▸ hp, by rw [e]⟩
    · by_cases hl : l = .be
      · subst hl
        exact (act _ _ (ρ.reachable t) hp hs).imp_right fun x => ⟨x.1, Nat.le_of_lt x.2⟩
      · exact .inr (other _ _ _ hp hs hl)
  · obtain ⟨l, rfl, hs⟩ := taken_step hB
    exact act _ _ (ρ.reachable t) hp hs
  · -- it is not kept from its work for ever
    refine hF.be (fun v => ?_) t
    obtain ⟨u, hu, hpoll⟩ := poll_often hF (max t v)
    obtain ⟨s', hs⟩ : ∃ s', step mb (ρ.state u) .be = some s' :=
      be_progress (work _ (ht u (Nat.le_trans (Nat.le_max_left t v) hu)))
      (by rw [show (ρ.state u).ftl = .poll 0 from hpoll]; exact FtlPc.noConfusion)
    exact ⟨u, Nat.le_trans (Nat.le_max_right t v) hu, .be, s', rfl, hs⟩

/-- Every request that waits is taken, -/
theorem backend_takes (hF : Fair ρ) (i : Nat) :
    LeadsTo (At ρ fun s => i ∈ s.waiting) (At ρ fun s => i ∉ s.waiting) := by
  refine be_leads hF (fun s => s.ahead i) (fun s hi => .inr fun e => ?_) (fun s l s' hi hs hl => ?_)
    fun s s' hr hi hs => beStep_ahead hr hi hs
  · rw [Sys.waiting, e] at hi
    cases hi
  · obtain ⟨h1, h2⟩ := other_ahead hi hs hl
    exact ⟨h1, Nat.le_of_eq h2⟩

theorem other_be {s s' : Sys} {l : Lbl} (hs : step mb s l = some s') (hl : l ≠ .be) : s'.be = s.be := by
  cases l with
  | host k a => exact (hostStep_frame hs).2.1
  | ftl => cases ftlStep_cases hs <;> rfl
  | be => exact absurd rfl hl

/-- executed, -/
theorem backend_execs (hF : Fair ρ) :
    LeadsTo (At ρ fun s => s.be.inHand ≠ []) (At ρ fun s => s.be.inHand = []) := by
  refine be_leads hF (fun _ => 0) (fun s hi => .inl fun e => hi (by rw [e]; rfl))
    (fun s l s' hi hs hl => ⟨by rwa [other_be hs hl], Nat.le_refl 0⟩) fun s s' _ hi hs => ?_
  cases beStep_cases hs with
  | exec => exact .inl rfl
  | take hb | post hb =>
    rw [hb] at hi
    exact absurd rfl hi

/-- and posted. -/
theorem backend_posts (hF : Fair ρ) :
    LeadsTo (At ρ fun s => s.be.executed ≠ []) (At ρ fun s => s.be.executed = []) := by
  refine be_leads hF (fun _ => 0) (fun s hi => .inl fun e => hi (by rw [e]; rfl))
    (fun s l s' hi hs hl => ⟨by rwa [other_be hs hl], Nat.le_refl 0⟩) fun s s' _ hi hs => ?_
  cases beStep_cases hs with
  | post => exact .inl rfl
  | take hb | exec hb =>
    rw [hb] at hi
    exact absurd rfl hi

end

/-! ## A fair run

A schedule that ends with nothing to do, and the FTL loop for ever after. -/

/-- Nothing to do for the FTL and the backend, and no submitter past the lock. -/
structure Idle (mb : BitVec 32) (s : Sys) (d : Desk Nat HostCmd) : Prop extends Open mb s d where
  rdy : d.rdy = []
  hand : d.hand = .empty
  quiet : quiet s = true

def idle (s : Sys) : Bool :=
  quiet s && shmListEmpty s.shm .rdy && !s.shm.ctrl && decide (s.ftl.hand = [])

section
variable {mb : BitVec 32} {s s' : Sys} {d : Desk Nat HostCmd}

theorem run_grows {ρ : (sys mb).Run} {t u : Nat} (htu : t ≤ u) : (ρ.state t).submitted <+: (ρ.state u).submitted ∧
    (ρ.state t).accs <+: (ρ.state u).accs ∧ (ρ.state t).log <+: (ρ.state u).log := by
  refine ρ.lasts (P := fun s => (ρ.state t).submitted <+: s.submitted ∧ (ρ.state t).accs <+: s.accs ∧
    (ρ.state t).log <+: s.log) (fun s l s' h hs => ?_) htu
    ⟨List.prefix_rfl, List.prefix_rfl, List.prefix_rfl⟩
  obtain ⟨h1, h2, h3⟩ := step_grows hs
  exact ⟨h.1.trans h1, h.2.1.trans h2, h.2.2.trans h3⟩

theorem exists_idle (hr : (sys mb).Reachable s) (h : idle s = true) : ∃ d, Idle mb s d := by
  simp only [idle, Bool.and_eq_true, Bool.not_eq_true', decide_eq_true_eq] at h
  obtain ⟨⟨⟨hq, he⟩, hc⟩, hp⟩ := h
  obtain ⟨k, d, hI⟩ := exists_desk hr
  refine ⟨d, ⟨⟨hr, ⟨k, hI⟩, hc⟩, ?_, ?_, hq⟩⟩
  · exact List.map_eq_nil_iff.mp (hI.slots.lists.rdyL.empty_iff.mp he)
  · rw [← hI.hand]
    cases hf : s.ftl with
    | got | free | put =>
      rw [hf] at hp
      cases hp
    | _ => rfl

/-- There is nothing for the FTL to serve. -/
theorem Idle.queue_empty (h : Idle mb s d) {q : Status} {cnt j : Nat} (hp : s.ftl = .serve q cnt j) :
    ¬ j < cnt := by
  intro hlt
  obtain ⟨n, -, hS⟩ := reachable_sim h.reach
  obtain ⟨i, r, hq⟩ := hS.serving hp hlt
  have he := (hS.dev.places.ring q).isEmpty_iff.mp ((quiet_iff.mp h.quiet).1 q)
  rw [hq] at he
  cases he

theorem Idle.ftl (h : Idle mb s d) : ∃ s', ftlStep mb s = some s' ∧ Idle mb s' d := by
  obtain ⟨s', hs, hO⟩ := h.toOpen.calm h.hand h.rdy
  refine ⟨s', hs, hO, h.rdy, h.hand, ?_⟩
  have hq := h.quiet
  cases ftlStep_cases hs with
  | accept hp =>
    obtain ⟨k, hI⟩ := h.desk
    have hh := hI.hand
    rw [hp, h.hand] at hh
    cases hh
  | skip hp hj | serve hp hj => exact absurd hj (h.queue_empty hp)
  | round hp e =>
    rw [(quiet_iff.mp hq).2.2.1] at e
    cases e
  | _ => exact hq

theorem Idle.be (h : Idle mb s d) : beStep s = none := by
  obtain ⟨-, hreg, -, hb⟩ := quiet_iff.mp h.quiet
  unfold beStep
  rw [hb, hreg]
  simp

theorem Idle.host (h : Idle mb s d) {k : Host} {l : Lbl} (hl : l.within k) : step mb s l = none := by
  obtain ⟨a, rfl, ha⟩ := hl
  have hk := h.toOpen.all_idle k
  cases a with
  | get => exact absurd rfl ha
  | _ => simp [step, hostStep, hk]

/-- A schedule that leads to an idle state can go on fairly. -/
theorem fair_run {m : Shm} {ls : List Lbl} (hm : shmInit = some m)
    (hs : LTS.exec (step mb) (.init m) ls = some s) (hi : idle s = true) :
    ∃ ρ : (sys mb).Run, Fair ρ ∧ ρ.state ls.length = s ∧
      ∀ t, (ρ.state t).submitted <+: s.submitted := by
  have hr : (sys mb).Reachable s := LTS.Reachable.exec (fun _ _ _ h => h) (.start ⟨m, hm, rfl⟩) hs
  obtain ⟨d, hI⟩ := exists_idle hr hi
  obtain ⟨ρ, hend, hidle⟩ := Run.exists_for_ever (T := sys mb) (i := .ftl) (P := fun s => Idle mb s d)
    ⟨m, hm, rfl⟩ (fun _ _ _ => Iff.rfl) hs hI fun s h => h.ftl
  refine ⟨ρ, ⟨fun _ t => ?_, fun h => ?_, fun k h => ?_⟩, hend, fun t => ?_⟩
  · exact ⟨max t ls.length, Nat.le_max_left _ _, .ftl, rfl, (hidle _ (Nat.le_max_right _ _)).2⟩
  · obtain ⟨t, ht, l, s', rfl, hl⟩ := h ls.length
    have hl : step mb (ρ.state t) .be = some s' := hl
    rw [show step mb (ρ.state t) .be = none from (hidle t ht).1.be] at hl
    cases hl
  · obtain ⟨t, ht⟩ := h
    obtain ⟨l, s', hk, hl⟩ := ht (max t ls.length) (Nat.le_max_left _ _)
    have hl : step mb _ l = some s' := hl
    rw [(hidle _ (Nat.le_max_right t ls.length)).1.host hk] at hl
    cases hl
  · rcases Nat.le_total t ls.length with h | h
    · have hg := (run_grows (ρ := ρ) h).1
      rwa [hend] at hg
    · obtain ⟨k, hK⟩ := (hidle t h).1.desk
      obtain ⟨k', hK'⟩ := hI.desk
      have e := hK.submitted.trans hK'.submitted.symm
      exact e ▸ List.prefix_rfl

end

/-- A run with one write, and a fair end. -/
theorem write_run : ∃ ρ : (sys 0).Run, Fair ρ ∧
    (∀ t, (ρ.state t).submitted <+: [⟨SHM_WRITE_OPS, 20, 16384⟩]) ∧
    ∃ t a, a ∈ (ρ.state t).accs ∧ a.cmd = ⟨SHM_WRITE_OPS, 20, 16384⟩ := by
  have h : (run 0 writeSchedule).any (fun s => idle s &&
      decide (s.submitted = [⟨SHM_WRITE_OPS, 20, 16384⟩]) &&
      decide (s.accs.map (fun a => a.cmd) = [⟨SHM_WRITE_OPS, 20, 16384⟩])) = true := by decide +kernel
  obtain ⟨s, hs, hP⟩ := (Option.any_eq_true _ _).mp h
  obtain ⟨m, hm, he⟩ := Option.bind_eq_some_iff.mp hs
  simp only [Bool.and_eq_true, decide_eq_true_eq] at hP
  obtain ⟨⟨hi, hsub⟩, hacc⟩ := hP
  obtain ⟨ρ, hF, hend, hall⟩ := fair_run hm he hi
  rw [hsub] at hall
  obtain ⟨a, ha, hcmd⟩ := List.mem_map.mp (hacc ▸ List.mem_singleton_self _ :
    (⟨SHM_WRITE_OPS, 20, 16384⟩ : HostCmd) ∈ s.accs.map fun a => a.cmd)
  exact ⟨ρ, hF, hall, _, a, hend ▸ ha, hcmd⟩

end OpenSSDEmu.L4.Pipeline
