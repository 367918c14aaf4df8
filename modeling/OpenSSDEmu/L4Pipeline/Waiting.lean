import OpenSSDEmu.L4Pipeline.Liveness

/-!
# The mutex and the condition variable of the backend

In `L4Pipeline.System` a section under `fcl_be_mutex` is one step, and the
backend has no step while `register_list` is empty. Here the two threads
take and release the mutex themselves, and `be()` waits as it does in the
source: it tests the list, gives up the mutex and parks in one step of
`pthread_cond_wait`, is woken by a signal or for no reason, takes the mutex
again and tests again. A step that touches a list is the step of
`L4Pipeline.System` without its guard; that the guard holds is what is proved.

* `backend_waits`: so the threads refine that system, a parked backend has
  nothing to do unless a signal is on its way, and the list is never empty
  when its head is taken.
* `project_fair`: a fair run of the threads is a fair run of that system, so
  what `L4Pipeline.Liveness` says of runs holds here, too
  (`waiting_finishes`).

What `FTL_handle_tosq` does before and after its call of `BE_send_sq` is in
the step that appends the request; nobody else reads it.
-/
namespace OpenSSDEmu.L4.Pipeline
open L2.Hcl L2.Fcl L2.Shmem L2.TaskQueue LTS
open Jobs hiding step Lbl

/-! ## The threads -/

inductive Thr | ftl | be
  deriving DecidableEq, Repr

/-- Where `be()` is: about to lock, testing the list, parked, woken and about
to lock, about to take the head, about to unlock, working, about to lock, about
to append, about to unlock. -/
inductive BeAt | enter | check | parked | woken | take | leave | work | again | post | done
  deriving DecidableEq, Repr

/-- The FTL: outside, in `BE_send_sq` before the append, before the signal, in
the loop of `FTL_CQ_polling`, about to unlock. -/
inductive FtlAt | free | held | sent | polling | leaving
  deriving DecidableEq, Repr

structure Fine where
  sys : Sys
  owner : Option Thr
  beAt : BeAt
  ftlAt : FtlAt

/-- The next step calls `BE_send_sq`: it is what makes `register_list` longer. -/
def Sys.sends (memBase : BitVec 32) (s : Sys) : Bool :=
  (ftlStep memBase s).any fun s' => decide (s.dev.registerList.length < s'.dev.registerList.length)

/-- `pthread_mutex_lock`, once it returns. -/
def Fine.lock (x : Fine) (t : Thr) : Option Fine :=
  if x.owner = none then some { x with owner := some t } else none

/-- mirrors src/emu/be/be.c:99-117 and src/ftl/ftl_core1.c:75-95 -/
def fineFtl (memBase : BitVec 32) (x : Fine) : Option Fine :=
  match x.ftlAt with
  | .free =>
    if x.sys.sends memBase then (x.lock .ftl).map fun x => { x with ftlAt := .held }
    else if x.sys.ftl = .cq then
      (x.lock .ftl).bind fun x =>
        (ftlStep memBase x.sys).map fun s => { x with sys := s, ftlAt := .polling }
    else (ftlStep memBase x.sys).map fun s => { x with sys := s }
  | .held => (ftlStep memBase x.sys).map fun s => { x with sys := s, ftlAt := .sent }
  | .sent =>
    some { x with beAt := if x.beAt = .parked then .woken else x.beAt, ftlAt := .leaving }
  | .polling =>
    (ftlStep memBase x.sys).map fun s =>
      { x with sys := s, ftlAt := if s.ftl = .cqLoop then .polling else .leaving }
  | .leaving => some { x with owner := none, ftlAt := .free }

/-- The steps of `be()` on the lists, whatever the FTL is doing; `none` where
the head of an empty list would be taken. -/
def beRaw (s : Sys) : Option Sys :=
  match s.be with
  | .idle =>
    match s.dev.registerList with
    | [] => none
    | sq :: rest =>
      some { s with dev := { s.dev with registerList := rest }, be := .hand sq,
                    log := s.log ++ [s.event .take sq.hcmd] }
  | .hand sq => some { s with be := .done sq, log := s.log ++ [s.event .exec sq.hcmd] }
  | .done sq =>
    some { s with dev := { s.dev with completeList := s.dev.completeList ++ [sq] }, be := .idle,
                  log := s.log ++ [s.event .post sq.hcmd] }

/-- mirrors src/emu/be/be.c:42-95 -/
def fineBe (x : Fine) : Option Fine :=
  match x.beAt with
  | .enter => (x.lock .be).map fun x => { x with beAt := .check }
  | .check =>
    if x.sys.dev.registerList = [] then some { x with owner := none, beAt := .parked }
    else some { x with beAt := .take }
  | .parked => none
  | .woken => (x.lock .be).map fun x => { x with beAt := .check }
  | .take => (beRaw x.sys).map fun s => { x with sys := s, beAt := .leave }
  | .leave => some { x with owner := none, beAt := .work }
  | .work => (beRaw x.sys).map fun s => { x with sys := s, beAt := .again }
  | .again => (x.lock .be).map fun x => { x with beAt := .post }
  | .post => (beRaw x.sys).map fun s => { x with sys := s, beAt := .done }
  | .done => some { x with owner := none, beAt := .enter }

/-- `wake` is a wake-up without a signal. -/
inductive FineLbl
  | host (h : Host) (a : HostAct)
  | ftl
  | be
  | wake
  deriving DecidableEq, Repr

def fineStep (memBase : BitVec 32) (x : Fine) : FineLbl → Option Fine
  | .host h a => (hostStep x.sys h a).map fun s => { x with sys := s }
  | .ftl => fineFtl memBase x
  | .be => fineBe x
  | .wake => if x.beAt = .parked then some { x with beAt := .woken } else none

def fine (memBase : BitVec 32) : LTS Fine FineLbl where
  init x := (sys memBase).init x.sys ∧ x.owner = none ∧ x.beAt = .enter ∧ x.ftlAt = .free
  step x l x' := fineStep memBase x l = some x'

/-! ## The invariant -/

/-- The backend is between a lock and its unlock. -/
def BeAt.inside : BeAt → Bool
  | .check | .take | .leave | .post | .done => true
  | _ => false

/-- What the backend holds at a place. -/
def BeAt.Holds (b : BePc) : BeAt → Prop
  | .leave | .work => ∃ sq, b = .hand sq
  | .again | .post => ∃ sq, b = .done sq
  | _ => b = .idle

structure FineOk (mb : BitVec 32) (x : Fine) : Prop where
  reach : (sys mb).Reachable x.sys
  be : x.owner = some .be ↔ x.beAt.inside = true
  ftl : x.owner = some .ftl ↔ x.ftlAt ≠ .free
  polling : x.sys.ftl = .cqLoop ↔ x.ftlAt = .polling
  held : x.ftlAt = .held → ∃ cnt j, x.sys.ftl = .serve .toSq cnt j
  holds : x.beAt.Holds x.sys.be
  take : x.beAt = .take → x.sys.dev.registerList ≠ []
  parked : x.beAt = .parked → x.sys.dev.registerList = [] ∨ x.ftlAt = .sent

section
variable {mb : BitVec 32} {x x' : Fine} {s s' : Sys}

/-! ### What a step can do -/

/-- Everything a step of the FTL can do. -/
inductive FineFtl (mb : BitVec 32) (x : Fine) : Fine → Prop
  | lock (hp : x.ftlAt = .free) (hn : x.sys.sends mb = true) (ho : x.owner = none) :
      FineFtl mb x { x with owner := some .ftl, ftlAt := .held }
  | enter {s : Sys} (hp : x.ftlAt = .free) (hc : x.sys.ftl = .cq) (ho : x.owner = none)
      (hs : ftlStep mb x.sys = some s) :
      FineFtl mb x { x with sys := s, owner := some .ftl, ftlAt := .polling }
  | step {s : Sys} (hp : x.ftlAt = .free) (hn : x.sys.sends mb = false) (hc : x.sys.ftl ≠ .cq)
      (hs : ftlStep mb x.sys = some s) : FineFtl mb x { x with sys := s }
  | append {s : Sys} (hp : x.ftlAt = .held) (hs : ftlStep mb x.sys = some s) :
      FineFtl mb x { x with sys := s, ftlAt := .sent }
  | signal (hp : x.ftlAt = .sent) :
      FineFtl mb x { x with beAt := if x.beAt = .parked then .woken else x.beAt, ftlAt := .leaving }
  | round {s : Sys} (hp : x.ftlAt = .polling) (hs : ftlStep mb x.sys = some s) :
      FineFtl mb x { x with sys := s, ftlAt := if s.ftl = .cqLoop then .polling else .leaving }
  | unlock (hp : x.ftlAt = .leaving) : FineFtl mb x { x with owner := none, ftlAt := .free }

theorem lock_eq {t : Thr} (h : x.lock t = some x') :
    x.owner = none ∧ x' = { x with owner := some t } := by
  unfold Fine.lock at h
  split at h
  · rename_i ho
    cases h
    exact ⟨ho, rfl⟩
  · cases h

theorem fineFtl_cases (hs : fineFtl mb x = some x') : FineFtl mb x x' := by
  unfold fineFtl at hs
  split at hs
  · rename_i hp
    split at hs
    · rename_i hn
      obtain ⟨y, hy, rfl⟩ := Option.map_eq_some_iff.mp hs
      obtain ⟨ho, rfl⟩ := lock_eq hy
      exact .lock hp hn ho
    · rename_i hn
      split at hs
      · rename_i hc
        obtain ⟨y, hy, hs⟩ := Option.bind_eq_some_iff.mp hs
        obtain ⟨ho, rfl⟩ := lock_eq hy
        obtain ⟨s, e, rfl⟩ := Option.map_eq_some_iff.mp hs
        exact .enter hp hc ho e
      · rename_i hc
        obtain ⟨s, e, rfl⟩ := Option.map_eq_some_iff.mp hs
        exact .step hp (by simpa using hn) hc e
  · rename_i hp
    obtain ⟨s, e, rfl⟩ := Option.map_eq_some_iff.mp hs
    exact .append hp e
  · rename_i hp
    cases hs
    exact .signal hp
  · rename_i hp
    obtain ⟨s, e, rfl⟩ := Option.map_eq_some_iff.mp hs
    exact .round hp e
  · rename_i hp
    cases hs
    exact .unlock hp

/-- Everything a step of the backend can do. -/
inductive FineBe (x : Fine) : Fine → Prop
  | lock {b : BeAt} (hp : (x.beAt = .enter ∨ x.beAt = .woken) ∧ b = .check ∨ x.beAt = .again ∧ b = .post)
      (ho : x.owner = none) : FineBe x { x with owner := some .be, beAt := b }
  | park (hp : x.beAt = .check) (e : x.sys.dev.registerList = []) :
      FineBe x { x with owner := none, beAt := .parked }
  | found (hp : x.beAt = .check) (e : x.sys.dev.registerList ≠ []) : FineBe x { x with beAt := .take }
  | act {s : Sys} {b : BeAt} (hp : x.beAt = .take ∧ b = .leave ∨ x.beAt = .work ∧ b = .again ∨
      x.beAt = .post ∧ b = .done) (hs : beRaw x.sys = some s) : FineBe x { x with sys := s, beAt := b }
  | unlock {b : BeAt} (hp : x.beAt = .leave ∧ b = .work ∨ x.beAt = .done ∧ b = .enter) :
      FineBe x { x with owner := none, beAt := b }

theorem fineBe_cases (hs : fineBe x = some x') : FineBe x x' := by
  unfold fineBe at hs
  split at hs
  · rename_i hp
    obtain ⟨y, hy, rfl⟩ := Option.map_eq_some_iff.mp hs
    obtain ⟨ho, rfl⟩ := lock_eq hy
    exact .lock (.inl ⟨.inl hp, rfl⟩) ho
  · rename_i hp
    split at hs
    · rename_i e
      cases hs
      exact .park hp e
    · rename_i e
      cases hs
      exact .found hp e
  · cases hs
  · rename_i hp
    obtain ⟨y, hy, rfl⟩ := Option.map_eq_some_iff.mp hs
    obtain ⟨ho, rfl⟩ := lock_eq hy
    exact .lock (.inl ⟨.inr hp, rfl⟩) ho
  · rename_i hp
    obtain ⟨s, e, rfl⟩ := Option.map_eq_some_iff.mp hs
    exact .act (.inl ⟨hp, rfl⟩) e
  · rename_i hp
    cases hs
    exact .unlock (.inl ⟨hp, rfl⟩)
  · rename_i hp
    obtain ⟨s, e, rfl⟩ := Option.map_eq_some_iff.mp hs
    exact .act (.inr (.inl ⟨hp, rfl⟩)) e
  · rename_i hp
    obtain ⟨y, hy, rfl⟩ := Option.map_eq_some_iff.mp hs
    obtain ⟨ho, rfl⟩ := lock_eq hy
    exact .lock (.inr ⟨hp, rfl⟩) ho
  · rename_i hp
    obtain ⟨s, e, rfl⟩ := Option.map_eq_some_iff.mp hs
    exact .act (.inr (.inr ⟨hp, rfl⟩)) e
  · rename_i hp
    cases hs
    exact .unlock (.inr ⟨hp, rfl⟩)

/-! ### The FTL -/

theorem ftlStep_be (hs : ftlStep mb s = some s') : s'.be = s.be := by cases ftlStep_cases hs <;> rfl

/-- The completions are reached from `.cq` only. -/
theorem of_cqLoop (hs : ftlStep mb s = some s') (hp : s'.ftl = .cqLoop) : s.ftl = .cq ∨ s.ftl = .cqLoop := by
  cases ftlStep_cases hs with
  | cq h => exact .inl h
  | round h => exact .inr h
  | @served q _ _ h =>
    cases q <;> cases hp
  | _ => cases hp

theorem sends_serve (h : s.sends mb = true) : ∃ cnt j, s.ftl = .serve .toSq cnt j := by
  obtain ⟨s', hs, hlt⟩ := (Option.any_eq_true _ _).mp h
  have hlt := of_decide_eq_true hlt
  cases ftlStep_cases hs with
  | @serve q cnt j i ring d d' hp hj e hd hd' =>
    subst hd' hd
    by_cases hq : q = .toSq
    · exact ⟨cnt, j, hq ▸ hp⟩
    · rw [(func_frame mb hq _ i).2.1] at hlt
      exact absurd hlt (Nat.lt_irrefl _)
  | @round sq rest hp e =>
    simp only [cqRound_eq rfl] at hlt
    split at hlt <;> exact absurd hlt (Nat.lt_irrefl _)
  | _ => exact absurd hlt (Nat.lt_irrefl _)

theorem registerList_of_not_sends (h : s.sends mb = false) (hs : ftlStep mb s = some s') :
    s'.dev.registerList = s.dev.registerList := by
  rw [Sys.sends, hs, Option.any_some, decide_eq_false_iff_not] at h
  have hpre := ftlStep_registerList hs
  exact (hpre.eq_of_length (by have := hpre.length_le; omega)).symm

/-- In the loop over the completions nothing is registered. -/
theorem cqLoop_registerList (hp : s.ftl = .cqLoop) (hs : ftlStep mb s = some s') :
    s'.dev.registerList = s.dev.registerList := by
  refine registerList_of_not_sends (?_ : s.sends mb = false) hs
  rw [Bool.eq_false_iff]
  intro h
  obtain ⟨cnt, j, e⟩ := sends_serve h
  rw [hp] at e
  cases e

theorem FineOk.ftl_step (h : FineOk mb x) (hx : fineFtl mb x = some x') : FineOk mb x' := by
  have hnext : ∀ {s}, ftlStep mb x.sys = some s → (sys mb).Reachable s := fun hs =>
    h.reach.next (l := .ftl) hs
  have hbe : ∀ {s}, ftlStep mb x.sys = some s → x.beAt.Holds s.be := fun hs => ftlStep_be hs ▸ h.holds
  have htake : ∀ {s}, ftlStep mb x.sys = some s → x.beAt = .take → s.dev.registerList ≠ [] :=
    fun hs ht e => h.take ht (List.prefix_nil.mp (e ▸ ftlStep_registerList hs))
  -- outside, the backend may have the mutex or not; inside, it has not
  have hout : x.ftlAt = .free → x.owner ≠ some .ftl := fun hp ho => h.ftl.mp ho hp
  have hin : x.ftlAt ≠ .free → x.owner = some .ftl := h.ftl.mpr
  have hnb : x.owner ≠ some .be → x.beAt.inside = false := fun ho => by
    rw [Bool.eq_false_iff]
    exact fun hi => ho (h.be.mpr hi)
  cases fineFtl_cases hx with
  | lock hp hn ho =>
    have hb := hnb (by simp [ho])
    refine { h with be := by simp [hb], ftl := by simp, polling := ?_, held := fun _ => sends_serve hn,
                    parked := fun hb => (h.parked hb).imp_right fun e => ?_ }
    · rw [h.polling, hp]
      simp
    · rw [hp] at e
      cases e
  | @enter s hp hc ho hs =>
    have hb := hnb (by simp [ho])
    refine { reach := hnext hs, be := by simp [hb], ftl := by simp, polling := ?_, held := nofun,
             holds := hbe hs, take := htake hs, parked := fun hb => .inl ?_ }
    · cases ftlStep_cases hs with
      | cq => simp
      | _ hq => rw [hc] at hq; cases hq
    · have hreg := (h.parked hb).resolve_right (by simp [hp])
      cases ftlStep_cases hs with
      | cq => exact hreg
      | _ hq => rw [hc] at hq; cases hq
  | @step s hp hn hc hs =>
    refine { h with reach := hnext hs, polling := ?_, held := by simp [hp], holds := hbe hs, take := htake hs,
                    parked := fun hb => .inl ?_ }
    · refine ⟨fun hq => ?_, fun hq => by simp [hp] at hq⟩
      rcases of_cqLoop hs hq with e | e
      · exact absurd e hc
      · exact h.polling.mp e
    · rw [registerList_of_not_sends hn hs]
      exact (h.parked hb).resolve_right (by simp [hp])
  | @append s hp hs =>
    have ho := hin (by simp [hp])
    obtain ⟨cnt, j, hq⟩ := h.held hp
    refine { h with reach := hnext hs, ftl := by simp [ho], polling := ?_, held := nofun, holds := hbe hs,
                    take := htake hs, parked := fun _ => .inr rfl }
    refine ⟨fun he => ?_, nofun⟩
    rcases of_cqLoop hs he with e | e <;> rw [hq] at e <;> cases e
  | signal hp =>
    have ho := hin (by simp [hp])
    refine { h with be := ?_, ftl := by simp [ho], polling := ?_, held := nofun, holds := ?_, take := ?_,
                    parked := ?_ }
    · rw [ho]
      split
      · simp [BeAt.inside]
      · simp [hnb (by simp [ho])]
    · rw [h.polling, hp]
      simp
    · split
      · rename_i hb
        have := h.holds
        rw [hb] at this
        exact this
      · exact h.holds
    · split
      · nofun
      · exact h.take
    · split
      · nofun
      · rename_i hb
        exact fun e => absurd e hb
  | @round s hp hs =>
    have ho := hin (by simp [hp])
    have hq := h.polling.mpr hp
    refine { h with reach := hnext hs, ftl := ?_, polling := ?_, held := ?_, holds := hbe hs,
                    take := htake hs, parked := fun hb => .inl ?_ }
    · split <;> simp [ho]
    · split <;> simp [*]
    · split <;> nofun
    · rw [cqLoop_registerList hq hs]
      exact (h.parked hb).resolve_right (by simp [hp])
  | unlock hp =>
    have ho := hin (by simp [hp])
    have hb := hnb (by simp [ho])
    refine { h with be := by simp [hb], ftl := by simp, polling := ?_, held := nofun,
                    parked := fun hb => (h.parked hb).imp_right fun e => ?_ }
    · rw [h.polling, hp]
      simp
    · rw [hp] at e
      cases e

/-! ### The backend -/

/-- With the mutex the guard of the step on a list is met, and without it the
step is on no list. -/
theorem FineOk.beStep (h : FineOk mb x) {b : BeAt} (hp : x.beAt = .take ∧ b = .leave ∨
    x.beAt = .work ∧ b = .again ∨ x.beAt = .post ∧ b = .done) (hs : beRaw x.sys = some s) :
    beStep x.sys = some s ∧ b.Holds s.be := by
  have hnp : x.beAt.inside = true → x.sys.ftl ≠ .cqLoop := fun hi hq => by
    have hf := h.ftl.mpr (by rw [h.polling.mp hq]; exact FtlAt.noConfusion)
    rw [h.be.mpr hi] at hf
    cases hf
  have hh := h.holds
  unfold beRaw at hs
  unfold Pipeline.beStep
  rcases hp with ⟨hp, rfl⟩ | ⟨hp, rfl⟩ | ⟨hp, rfl⟩
  · rw [hp] at hh
    have hb : x.sys.be = .idle := hh
    cases e : x.sys.dev.registerList with
    | nil => simp only [hb, e, reduceCtorEq] at hs
    | cons sq rest =>
      simp only [hb, e] at hs ⊢
      rw [if_neg (hnp (by rw [hp]; rfl))]
      cases hs
      exact ⟨rfl, sq, rfl⟩
  · rw [hp] at hh
    obtain ⟨sq, hb⟩ : ∃ sq, x.sys.be = .hand sq := hh
    simp only [hb] at hs ⊢
    cases hs
    exact ⟨rfl, sq, rfl⟩
  · rw [hp] at hh
    obtain ⟨sq, hb⟩ : ∃ sq, x.sys.be = .done sq := hh
    simp only [hb] at hs ⊢
    rw [if_neg (hnp (by rw [hp]; rfl))]
    cases hs
    exact ⟨rfl, rfl⟩

/-- At these places the backend finds in its hands what it did at the last. -/
theorem holds_next {b : BePc} {p q : BeAt} (h : p.Holds b)
    (hp : (p = .enter ∨ p = .woken) ∧ q = .check ∨ p = .again ∧ q = .post ∨ p = .check ∧ q = .parked ∨
      p = .check ∧ q = .take ∨ p = .leave ∧ q = .work ∨ p = .done ∧ q = .enter ∨ p = .parked ∧ q = .woken) :
    q.Holds b := by
  rcases hp with ⟨rfl | rfl, rfl⟩ | ⟨rfl, rfl⟩ | ⟨rfl, rfl⟩ | ⟨rfl, rfl⟩ | ⟨rfl, rfl⟩ | ⟨rfl, rfl⟩ |
    ⟨rfl, rfl⟩ <;> exact h

theorem FineOk.be_step (h : FineOk mb x) (hx : fineBe x = some x') : FineOk mb x' := by
  have hnf : x.beAt.inside = true → x.owner ≠ some .ftl := fun hi ho => by
    rw [h.be.mpr hi] at ho
    cases ho
  have hfree : x.beAt.inside = true → x.ftlAt = .free := fun hi => by
    by_contra hf
    exact hnf hi (h.ftl.mpr hf)
  cases fineBe_cases hx with
  | @lock b hp ho =>
    have hf : x.ftlAt = .free := by
      by_contra hf
      rw [h.ftl.mpr hf] at ho
      cases ho
    rcases hp with ⟨hp, rfl⟩ | ⟨hp, rfl⟩
    · exact { h with be := by simp [BeAt.inside], ftl := by simp [hf], take := nofun, parked := nofun,
                     holds := holds_next h.holds (.inl ⟨hp, rfl⟩) }
    · exact { h with be := by simp [BeAt.inside], ftl := by simp [hf], take := nofun, parked := nofun,
                     holds := holds_next h.holds (.inr (.inl ⟨hp, rfl⟩)) }
  | park hp e =>
    have hf := hfree (by rw [hp]; rfl)
    exact { h with be := by simp [BeAt.inside], ftl := by simp [hf], take := nofun, parked := fun _ => .inl e,
                   holds := holds_next h.holds (by simp [hp]) }
  | found hp e =>
    exact { h with be := by simp [BeAt.inside, h.be, hp], take := fun _ => e, parked := nofun,
                   holds := holds_next h.holds (by simp [hp]) }
  | @act s b hp hs =>
    obtain ⟨hb, hh⟩ := h.beStep hp hs
    have hfr := be_frame hb
    refine { h with reach := h.reach.next (l := .be) hb, be := ?_, polling := by rw [hfr.2.1]; exact h.polling,
                    held := by rw [hfr.2.1]; exact h.held, holds := hh, take := ?_, parked := ?_ }
    · rcases hp with ⟨hp, rfl⟩ | ⟨hp, rfl⟩ | ⟨hp, rfl⟩ <;> simp [BeAt.inside, h.be, hp]
    · rcases hp with ⟨-, rfl⟩ | ⟨-, rfl⟩ | ⟨-, rfl⟩ <;> nofun
    · rcases hp with ⟨-, rfl⟩ | ⟨-, rfl⟩ | ⟨-, rfl⟩ <;> nofun
  | @unlock b hp =>
    have hf := hfree (by rcases hp with ⟨hp, -⟩ | ⟨hp, -⟩ <;> rw [hp] <;> rfl)
    rcases hp with ⟨hp, rfl⟩ | ⟨hp, rfl⟩
    · exact { h with be := by simp [BeAt.inside], ftl := by simp [hf], take := nofun, parked := nofun,
                     holds := holds_next h.holds (by simp [hp]) }
    · exact { h with be := by simp [BeAt.inside], ftl := by simp [hf], take := nofun, parked := nofun,
                     holds := holds_next h.holds (by simp [hp]) }

theorem FineOk.host_step {k : Host} {a : HostAct} (h : FineOk mb x) (hs : hostStep x.sys k a = some s) :
    FineOk mb { x with sys := s } := by
  obtain ⟨h1, h2, -, -, h5, -⟩ := hostStep_frame hs
  refine { h with reach := h.reach.next (l := .host k a) hs, polling := ?_, held := ?_, holds := ?_,
                  take := ?_, parked := ?_ }
  · rw [h5]
    exact h.polling
  · rw [h5]
    exact h.held
  · rw [h2]
    exact h.holds
  · rw [h1]
    exact h.take
  · rw [h1]
    exact h.parked

theorem FineOk.step {l : FineLbl} (h : FineOk mb x) (hs : fineStep mb x l = some x') : FineOk mb x' := by
  cases l with
  | host k a =>
    obtain ⟨s, e, rfl⟩ := Option.map_eq_some_iff.mp hs
    exact h.host_step e
  | ftl => exact h.ftl_step hs
  | be => exact h.be_step hs
  | wake =>
    simp only [fineStep] at hs
    split at hs
    · rename_i hp
      cases hs
      exact { h with be := by simp [BeAt.inside, h.be, hp], take := nofun, parked := nofun,
                     holds := holds_next h.holds (by simp [hp]) }
    · cases hs

theorem fine_ok (mb : BitVec 32) : (fine mb).Inductive (FineOk mb) where
  init x hx := by
    obtain ⟨hi, ho, hb, hf⟩ := hx
    have hi' := hi
    obtain ⟨m, -, e⟩ := hi'
    refine ⟨.start hi, ?_, ?_, ?_, ?_, ?_, ?_, ?_⟩ <;> simp [ho, hb, hf, e, Sys.init, BeAt.inside, BeAt.Holds]
  step _ _ _ h hs := h.step hs

/-! ### The coarse step -/

/-- The step of `L4Pipeline.System` that a step is. -/
def Fine.commits (mb : BitVec 32) (x : Fine) : FineLbl → Option Lbl
  | .host h a => some (.host h a)
  | .ftl =>
    match x.ftlAt with
    | .free => if x.sys.sends mb then none else some .ftl
    | .held | .polling => some .ftl
    | _ => none
  | .be =>
    match x.beAt with
    | .take | .work | .post => some .be
    | _ => none
  | .wake => none

/-- A step is a step of the coarse system or no step of it. -/
theorem FineOk.commit {l : FineLbl} (h : FineOk mb x) (hs : fineStep mb x l = some x') :
    (x.commits mb l = none ∧ x'.sys = x.sys) ∨
      ∃ l', x.commits mb l = some l' ∧ Pipeline.step mb x.sys l' = some x'.sys := by
  cases l with
  | host k a =>
    obtain ⟨s, e, rfl⟩ := Option.map_eq_some_iff.mp hs
    exact .inr ⟨_, rfl, e⟩
  | ftl =>
    cases fineFtl_cases hs with
    | lock hp hn => exact .inl ⟨by simp [Fine.commits, hp, hn], rfl⟩
    | enter hp hc _ e =>
      have hn : x.sys.sends mb = false := by
        rw [Bool.eq_false_iff]
        intro hn
        obtain ⟨cnt, j, hq⟩ := sends_serve hn
        rw [hc] at hq
        cases hq
      exact .inr ⟨.ftl, by simp [Fine.commits, hp, hn], e⟩
    | step hp hn _ e => exact .inr ⟨.ftl, by simp [Fine.commits, hp, hn], e⟩
    | append hp e | round hp e => exact .inr ⟨.ftl, by simp [Fine.commits, hp], e⟩
    | signal hp | unlock hp => exact .inl ⟨by simp [Fine.commits, hp], rfl⟩
  | be =>
    cases fineBe_cases hs with
    | lock hp =>
      refine .inl ⟨?_, rfl⟩
      rcases hp with ⟨hp | hp, -⟩ | ⟨hp, -⟩ <;> simp [Fine.commits, hp]
    | park hp | found hp => exact .inl ⟨by simp [Fine.commits, hp], rfl⟩
    | act hp e =>
      refine .inr ⟨.be, ?_, (h.beStep hp e).1⟩
      rcases hp with ⟨hp, -⟩ | ⟨hp, -⟩ | ⟨hp, -⟩ <;> simp [Fine.commits, hp]
    | unlock hp =>
      refine .inl ⟨?_, rfl⟩
      rcases hp with ⟨hp, -⟩ | ⟨hp, -⟩ <;> simp [Fine.commits, hp]
  | wake =>
    simp only [fineStep] at hs
    split at hs
    · cases hs
      exact .inl ⟨rfl, rfl⟩
    · cases hs

end

/-- In every state the threads can reach, a state of the coarse system, one of
them has the mutex at most; while the backend waits there is nothing to do or
the signal is still to come; and it takes the head of a list that has one. -/
theorem backend_waits {mb : BitVec 32} {x : Fine} (hr : (fine mb).Reachable x) :
    (sys mb).Reachable x.sys ∧ (x.beAt.inside = true → x.ftlAt = .free) ∧
      (x.beAt = .parked → x.sys.dev.registerList = [] ∨ x.ftlAt = .sent) ∧
      (x.beAt = .take → ∃ sq rest, x.sys.dev.registerList = sq :: rest) := by
  have h := (fine_ok mb).reachable x hr
  refine ⟨h.reach, fun hi => ?_, h.parked, fun ht => List.exists_cons_of_ne_nil (h.take ht)⟩
  by_contra hf
  have ho := h.ftl.mpr hf
  rw [h.be.mpr hi] at ho
  cases ho

/-- The backend waits for a write, is woken and waits again. -/
def fineSchedule : List FineLbl :=
  [.be, .be] ++ [HostAct.get, .take, .put ⟨SHM_WRITE_OPS, 20, 16384⟩, .release].map (.host .fe) ++
    List.replicate 42 .ftl ++ List.replicate 10 .be ++ List.replicate 39 .ftl

/-- The request is there, the signal is not. -/
theorem backend_waits_signal : ∃ x, (fine 0).Reachable x ∧ x.beAt = .parked ∧
    x.sys.dev.registerList ≠ [] ∧ x.ftlAt = .sent := by
  have h : (shmInit.bind fun m => LTS.exec (fineStep 0) ⟨.init m, none, .enter, .free⟩ (fineSchedule.take 46)).any
      (fun x => decide (x.beAt = .parked) && decide (x.sys.dev.registerList ≠ [])) = true := by decide +kernel
  obtain ⟨x, hx, hP⟩ := (Option.any_eq_true _ _).mp h
  obtain ⟨m, hm, he⟩ := Option.bind_eq_some_iff.mp hx
  simp only [Bool.and_eq_true, decide_eq_true_eq] at hP
  have hr : (fine 0).Reachable x :=
    LTS.Reachable.exec (fun _ _ _ h => h) (.start ⟨⟨m, hm, rfl⟩, rfl, rfl, rfl⟩) he
  exact ⟨x, hr, hP.1, hP.2, ((backend_waits hr).2.2.1 hP.1).resolve_left hP.2⟩

/-! ## Fair runs -/

/-- A step of submitter `k` that is not the attempt to take the lock of shared
memory. -/
def FineLbl.within (k : Host) (l : FineLbl) : Prop := ∃ a, l = .host k a ∧ a ≠ .get

/-- Each thread gets its turns. A `wake` for no reason may happen or not; a step of
the backend at work stands for a call of `BE_read_log` or `BE_write_log` that
returns. -/
structure FineFair {mb : BitVec 32} (ρ : (fine mb).Run) : Prop where
  ftl : ρ.Strong (· = .ftl)
  be : ρ.Strong (· = .be)
  host : ∀ k, ρ.Weak (FineLbl.within k)

section
variable {mb : BitVec 32} {x x' : Fine} {l : FineLbl}

/-! ### The mutex -/

/-- The steps of the FTL until it unlocks. -/
def Fine.ftlLeft (x : Fine) : Nat :=
  match x.ftlAt with
  | .free => 0
  | .held => 3
  | .sent => 2
  | .polling => x.sys.dev.completeList.length + 2
  | .leaving => 1

/-- The steps of the backend until it unlocks. -/
def BeAt.left : BeAt → Nat
  | .check => 3
  | .take | .post => 2
  | .leave | .done => 1
  | _ => 0

theorem ftl_enabled (h : FineOk mb x) (hf : x.ftlAt ≠ .free) : ∃ x', fineFtl mb x = some x' := by
  unfold fineFtl
  cases hp : x.ftlAt with
  | free => exact absurd hp hf
  | sent | leaving => exact ⟨_, rfl⟩
  | held =>
    obtain ⟨free, rdy, k, hI⟩ := (slots_inv mb).reachable _ h.reach
    obtain ⟨cnt, j, hq⟩ := h.held hp
    obtain ⟨s, e, -⟩ := hI.onDesk.ftl_step mb (by simp [hq, FtlPc.usesLock])
    simp only [e, Option.map_some]
    exact ⟨_, rfl⟩
  | polling =>
    obtain ⟨free, rdy, k, hI⟩ := (slots_inv mb).reachable _ h.reach
    obtain ⟨s, e, -⟩ := hI.onDesk.ftl_step mb (by simp [h.polling.mpr hp, FtlPc.usesLock])
    simp only [e, Option.map_some]
    exact ⟨_, rfl⟩

theorem be_enabled (h : FineOk mb x) (hp : x.beAt ≠ .parked) (ho : x.beAt.inside = true ∨ x.owner = none) :
    ∃ x', fineBe x = some x' := by
  have hlock : x.beAt.inside = false → ∀ t, x.lock t = some { x with owner := some t } := fun hi t => by
    rw [hi] at ho
    rw [Fine.lock, if_pos (ho.resolve_left Bool.false_ne_true)]
  have hh := h.holds
  unfold fineBe
  cases hb : x.beAt with
  | parked => exact absurd hb hp
  | enter | woken | again =>
    simp only [hlock (by rw [hb]; rfl), Option.map_some]
    exact ⟨_, rfl⟩
  | check =>
    simp only
    split <;> exact ⟨_, rfl⟩
  | leave | done => exact ⟨_, rfl⟩
  | take =>
    rw [hb] at hh
    obtain ⟨sq, rest, e⟩ := List.exists_cons_of_ne_nil (h.take hb)
    simp only [beRaw, show x.sys.be = .idle from hh, e, Option.map_some]
    exact ⟨_, rfl⟩
  | work =>
    rw [hb] at hh
    obtain ⟨sq, e⟩ : ∃ sq, x.sys.be = .hand sq := hh
    simp only [beRaw, e, Option.map_some]
    exact ⟨_, rfl⟩
  | post =>
    rw [hb] at hh
    obtain ⟨sq, e⟩ : ∃ sq, x.sys.be = .done sq := hh
    simp only [beRaw, e, Option.map_some]
    exact ⟨_, rfl⟩

/-- The FTL unlocks or comes closer to that. -/
theorem ftl_unlocks (h : FineOk mb x) (hf : x.ftlAt ≠ .free) (hs : fineFtl mb x = some x') :
    x'.owner = none ∨ (x'.ftlAt ≠ .free ∧ x'.ftlLeft < x.ftlLeft) := by
  cases fineFtl_cases hs with
  | lock hp | enter hp | step hp => exact absurd hp hf
  | append hp | signal hp => exact .inr ⟨nofun, by simp [Fine.ftlLeft, hp]⟩
  | unlock => exact .inl rfl
  | round hp e =>
    right
    have hq := h.polling.mpr hp
    cases ftlStep_cases e with
    | done => simp [Fine.ftlLeft, hp]
    | @round sq rest _ hl =>
      rw [if_pos hq]
      refine ⟨nofun, ?_⟩
      simp [Fine.ftlLeft, hp, hl, cqRound_completeList]
    | _ hq' => rw [hq] at hq'; cases hq'

/-- Only the FTL moves the FTL. -/
theorem ftlAt_kept (hs : fineStep mb x l = some x') (hl : l ≠ .ftl) : x'.ftlAt = x.ftlAt := by
  cases l with
  | host k a =>
    obtain ⟨s, e, rfl⟩ := Option.map_eq_some_iff.mp hs
    rfl
  | ftl => exact absurd rfl hl
  | be => cases fineBe_cases hs <;> rfl
  | wake =>
    simp only [fineStep] at hs
    split at hs
    · cases hs
      rfl
    · cases hs

/-- The others do not keep it from that. -/
theorem ftlLeft_kept (h : FineOk mb x) (hs : fineStep mb x l = some x') (hl : l ≠ .ftl) :
    x'.ftlLeft = x.ftlLeft := by
  have hat := ftlAt_kept hs hl
  have hcpl : x.ftlAt = .polling → x'.sys.dev.completeList = x.sys.dev.completeList := fun hq => by
    rcases h.commit hs with ⟨-, e⟩ | ⟨m, hm, e⟩
    · rw [e]
    · cases m with
      | host k a => rw [(hostStep_frame e).1]
      | be => exact be_completeList e (h.polling.mpr hq)
      | ftl => cases l <;> simp [Fine.commits] at hm hl; split at hm <;> cases hm
  unfold Fine.ftlLeft
  rw [hat]
  cases hq : x.ftlAt with
  | polling => simp only [hcpl hq]
  | _ => rfl

/-- The backend unlocks or comes closer to that. -/
theorem be_unlocks (hi : x.beAt.inside = true) (hs : fineBe x = some x') :
    x'.owner = none ∨ (x'.beAt.inside = true ∧ x'.beAt.left < x.beAt.left) := by
  cases fineBe_cases hs with
  | lock hp => rcases hp with ⟨hp | hp, -⟩ | ⟨hp, -⟩ <;> simp [hp, BeAt.inside] at hi
  | park | unlock => exact .inl rfl
  | found hp => simp [hp, BeAt.inside, BeAt.left]
  | act hp => rcases hp with ⟨hp, rfl⟩ | ⟨hp, rfl⟩ | ⟨hp, rfl⟩ <;> simp_all [BeAt.inside, BeAt.left]

/-- The others do not move it, except that they wake it. -/
theorem be_kept (hp : x.beAt ≠ .parked) (hs : fineStep mb x l = some x') (hl : l ≠ .be) :
    x'.beAt = x.beAt := by
  cases l with
  | host k a =>
    obtain ⟨s, e, rfl⟩ := Option.map_eq_some_iff.mp hs
    rfl
  | ftl =>
    cases fineFtl_cases hs with
    | signal => exact if_neg hp
    | _ => rfl
  | be => exact absurd rfl hl
  | wake => simp [fineStep, hp] at hs

variable {ρ : (fine mb).Run}

theorem fine_ok_at (ρ : (fine mb).Run) (t : Nat) : FineOk mb (ρ.state t) :=
  (fine_ok mb).reachable _ (ρ.reachable t)

/-- **Nobody keeps the mutex.** -/
theorem mutex_freed (hF : FineFair ρ) : Often fun t => (ρ.state t).owner = none := by
  intro t
  have hftl : LeadsTo (fun t => (ρ.state t).ftlAt ≠ .free) fun t => (ρ.state t).owner = none := by
    refine hF.ftl.descends (P := fun x => x.ftlAt ≠ .free)
      (Q := fun x => x.owner = none) Fine.ftlLeft (fun x l x' hr hf hs hl => ?_)
      (fun x l x' hr hf hs hl => ?_) fun t ht u => ⟨max t u, Nat.le_max_right t u, ?_⟩
    · have h1 := ftlLeft_kept ((fine_ok mb).reachable _ hr) hs hl
      exact .inr ⟨by rwa [ftlAt_kept hs hl], Nat.le_of_eq h1⟩
    · subst hl
      exact ftl_unlocks ((fine_ok mb).reachable _ hr) hf hs
    · obtain ⟨x', e⟩ := ftl_enabled (fine_ok_at ρ _) (ht _ (Nat.le_max_left t u))
      exact ⟨.ftl, x', rfl, e⟩
  have hbe : LeadsTo (fun t => (ρ.state t).beAt.inside = true) fun t => (ρ.state t).owner = none := by
    have hpark : ∀ {x : Fine}, x.beAt.inside = true → x.beAt ≠ .parked := fun hi e => by
      rw [e] at hi
      cases hi
    refine hF.be.descends (P := fun x => x.beAt.inside = true)
      (Q := fun x => x.owner = none) (fun x => x.beAt.left)
      (fun x l x' hr hi hs hl => ?_) (fun x l x' hr hi hs hl => ?_) fun t ht u =>
        ⟨max t u, Nat.le_max_right t u, ?_⟩
    · have h1 := be_kept (hpark hi) hs hl
      exact .inr ⟨by rwa [h1], Nat.le_of_eq (by rw [h1])⟩
    · subst hl
      exact be_unlocks hi hs
    · have hi := ht _ (Nat.le_max_left t u)
      obtain ⟨x', e⟩ := be_enabled (fine_ok_at ρ _) (hpark hi) (.inl hi)
      exact ⟨.be, x', rfl, e⟩
  cases ho : (ρ.state t).owner with
  | none => exact ⟨t, Nat.le_refl t, ho⟩
  | some o =>
    cases o with
    | ftl => exact hftl t ((fine_ok_at ρ t).ftl.mp ho)
    | be => exact hbe t ((fine_ok_at ρ t).be.mp ho)

/-! ### The coarse run -/

/-- The run of `L4Pipeline.System` that a run of the threads is. -/
def Fine.project (ρ : (fine mb).Run) : (Pipeline.sys mb).Run where
  state t := (ρ.state t).sys
  label t := (ρ.label t).bind ((ρ.state t).commits mb)
  init := ρ.init.1
  step t l hl := by
    obtain ⟨l', h1, h2⟩ := Option.bind_eq_some_iff.mp hl
    rcases (fine_ok_at ρ t).commit (ρ.step t l' h1) with ⟨hn, -⟩ | ⟨m, hm, e⟩
    · rw [hn] at h2
      cases h2
    · rw [hm] at h2
      cases h2
      exact e
  stay t hl := by
    cases h1 : ρ.label t with
    | none => rw [ρ.stay t h1]
    | some l' =>
      rw [h1] at hl
      rcases (fine_ok_at ρ t).commit (ρ.step t l' h1) with ⟨-, e⟩ | ⟨m, hm, -⟩
      · exact e
      · rw [Option.bind_some, hm] at hl
        cases hl

theorem commits_ftl {m : Lbl} (h : x.commits mb .ftl = some m) : m = .ftl := by
  simp only [Fine.commits] at h
  split at h
  · split at h <;> cases h
    rfl
  · cases h
    rfl
  · cases h
    rfl
  · cases h

theorem commits_be {m : Lbl} (h : x.commits mb .be = some m) : m = .be := by
  simp only [Fine.commits] at h
  split at h <;> cases h <;> rfl

theorem project_takes {t : Nat} {m : Lbl} (hl : ρ.label t = some l)
    (hm : (ρ.state t).commits mb l = some m) : (Fine.project ρ).Takes (· = m) t :=
  ⟨m, rfl, by simp only [Fine.project, hl, Option.bind_some, hm]⟩

/-! ### The FTL comes to its next step -/

/-- The steps of the FTL before one of the coarse system, at most. -/
def FtlAt.toGo : FtlAt → Nat
  | .held | .polling => 0
  | .free => 1
  | .leaving => 2
  | .sent => 3

theorem ftl_stutters (hn : x.commits mb .ftl = none) (hs : fineFtl mb x = some x') :
    x'.ftlAt.toGo < x.ftlAt.toGo := by
  cases fineFtl_cases hs with
  | enter hp hc =>
    simp only [Fine.commits, hp] at hn
    split at hn
    · rename_i h
      obtain ⟨cnt, j, hq⟩ := sends_serve h
      rw [hc] at hq
      cases hq
    · cases hn
  | step hp h => simp [Fine.commits, hp, h] at hn
  | append hp | round hp => simp [Fine.commits, hp] at hn
  | lock hp | signal hp | unlock hp => simp [hp, FtlAt.toGo]

/-- While it has not the lock of shared memory to wait for, a free mutex is all
the FTL needs; and while it has, a free lock is. -/
theorem ftl_enabled_free (h : FineOk mb x) (hf : x.ftlAt = .free)
    (hc : x.sys.ftl.usesLock = true → x.sys.shm.ctrl = false)
    (ho : x.sys.ftl.usesLock = false → x.owner = none) : ∃ x', fineFtl mb x = some x' := by
  obtain ⟨free, rdy, k, hI⟩ := (slots_inv mb).reachable _ h.reach
  obtain ⟨s, e, -⟩ := hI.onDesk.ftl_step mb hc
  have hlock : x.sys.ftl.usesLock = false → x.lock .ftl = some { x with owner := some .ftl } := fun hu => by
    rw [Fine.lock, if_pos (ho hu)]
  simp only [fineFtl, hf]
  split
  · rename_i hn
    obtain ⟨cnt, j, hq⟩ := sends_serve hn
    rw [hlock (by rw [hq]; rfl)]
    exact ⟨_, rfl⟩
  · split
    · rename_i hq
      rw [hlock (by rw [hq]; rfl)]
      simp only [e, Option.bind_some, Option.map_some]
      exact ⟨_, rfl⟩
    · simp only [e, Option.map_some]
      exact ⟨_, rfl⟩

theorem project_host (hF : FineFair ρ) (k : Host) : (Fine.project ρ).Weak (Lbl.within k) := by
  rintro ⟨t, ht⟩
  have hen : ∀ u, t ≤ u → ρ.Enabled (FineLbl.within k) u := fun u hu => by
    obtain ⟨l, s', ⟨a, rfl, ha⟩, hs⟩ := ht u hu
    have hs : hostStep (ρ.state u).sys k a = some s' := hs
    exact ⟨.host k a, _, ⟨a, rfl, ha⟩, by simp [fine, fineStep, hs]; rfl⟩
  refine (hF.host k ⟨t, hen⟩).mono fun u hu => ?_
  obtain ⟨l, ⟨a, rfl, ha⟩, hl⟩ := hu
  obtain ⟨m, rfl, hm⟩ := project_takes hl rfl
  exact ⟨_, ⟨a, rfl, ha⟩, hm⟩

/-- Whichever lock the FTL may be waiting for is free some time. -/
theorem ftl_unblocked (hF : FineFair ρ) {t : Nat}
    (hsame : ∀ u, t ≤ u → (ρ.state u).sys.ftl = (ρ.state t).sys.ftl) (v : Nat) :
    ∃ w, v ≤ w ∧ (t ≤ w → ρ.Enabled (· = .ftl) w) := by
  obtain ⟨w, hw, hfree⟩ : ∃ w, v ≤ w ∧
      (((ρ.state t).sys.ftl.usesLock = true → (ρ.state w).sys.shm.ctrl = false) ∧
        ((ρ.state t).sys.ftl.usesLock = false → (ρ.state w).owner = none)) := by
    by_cases hu : (ρ.state t).sys.ftl.usesLock = true
    · obtain ⟨w, hw, hc⟩ := lock_freed (project_host hF) v
      exact ⟨w, hw, fun _ => hc, by simp [hu]⟩
    · obtain ⟨w, hw, ho⟩ := mutex_freed hF v
      exact ⟨w, hw, by simp [hu], fun _ => ho⟩
  refine ⟨w, hw, fun htw => ⟨.ftl, ?_⟩⟩
  by_cases hf : (ρ.state w).ftlAt = .free
  · rw [← hsame w htw] at hfree
    obtain ⟨x', e⟩ := ftl_enabled_free (fine_ok_at ρ w) hf hfree.1 hfree.2
    exact ⟨x', rfl, e⟩
  · obtain ⟨x', e⟩ := ftl_enabled (fine_ok_at ρ w) hf
    exact ⟨x', rfl, e⟩

theorem project_ftl (hF : FineFair ρ) : Often ((Fine.project ρ).Takes (· = .ftl)) := by
  intro t
  refine Classical.byContradiction fun hno => ?_
  have hnone : ∀ u, t ≤ u → ρ.label u = some .ftl → (ρ.state u).commits mb .ftl = none := fun u hu hl => by
    cases hc : (ρ.state u).commits mb .ftl with
    | none => rfl
    | some m =>
      obtain rfl := commits_ftl hc
      exact absurd ⟨u, hu, project_takes hl hc⟩ hno
  -- so the FTL stays where it is in the coarse system
  have hsame : ∀ u, t ≤ u → (ρ.state u).sys.ftl = (ρ.state t).sys.ftl := fun u hu => by
    induction hu with
    | refl => rfl
    | @step u hu ih =>
      rcases run_cases (Fine.project ρ) u with e | ⟨m, hm, hs⟩
      · rw [show (ρ.state (u + 1)).sys = _ from e]
        exact ih
      · cases m with
        | host k a => exact (hostStep_frame hs).2.2.2.2.1.trans ih
        | be => exact (be_frame hs).2.1.trans ih
        | ftl => exact absurd ⟨u, hu, .ftl, rfl, hm⟩ hno
  have hend : LeadsTo (fun u => t ≤ u) fun _ => False := by
    refine LeadsTo.descend (fun u => (ρ.state u).ftlAt.toGo) (B := ρ.Takes (· = .ftl)) (fun u hu => ?_)
      (fun u hu hB => ?_) fun u hu => hF.ftl (fun v => ?_) u
    · rcases ρ.cases u with e | ⟨l, hl, hs⟩
      · exact .inr ⟨by omega, Nat.le_of_eq (by rw [e])⟩
      · by_cases hf : l = .ftl
        · subst hf
          exact .inr ⟨by omega, Nat.le_of_lt (ftl_stutters (hnone u hu hl) hs)⟩
        · exact .inr ⟨by omega, Nat.le_of_eq (by rw [ftlAt_kept hs hf])⟩
    · obtain ⟨l, rfl, hl⟩ := hB
      exact .inr ⟨by omega, ftl_stutters (hnone u hu hl) (ρ.step u _ hl)⟩
    · obtain ⟨w, hw, hen⟩ := ftl_unblocked hF hsame (max t v)
      exact ⟨w, by omega, hen (by omega)⟩
  obtain ⟨u, -, hu⟩ := hend t (Nat.le_refl t)
  exact hu

/-! ### The backend comes to its next step -/

/-- The steps of a backend with work to do before one of the coarse system. -/
def BeAt.toGo : BeAt → Nat
  | .take | .work | .post => 0
  | .check | .leave | .again => 1
  | .enter | .woken => 2
  | .done | .parked => 3

theorem be_stutters (h : FineOk mb x) (hw : x.sys.beWork) (hn : x.commits mb .be = none)
    (hs : fineBe x = some x') : x'.beAt.toGo < x.beAt.toGo ∧ x'.beAt ≠ .parked := by
  have hh := h.holds
  cases fineBe_cases hs with
  | lock hp => rcases hp with ⟨hp | hp, rfl⟩ | ⟨hp, rfl⟩ <;> simp [hp, BeAt.toGo]
  | park hp e =>
    rw [hp] at hh
    exact absurd e (hw.resolve_left (not_not.mpr hh))
  | found hp => simp [hp, BeAt.toGo]
  | act hp => rcases hp with ⟨hp, -⟩ | ⟨hp, -⟩ | ⟨hp, -⟩ <;> simp [Fine.commits, hp] at hn
  | unlock hp => rcases hp with ⟨hp, rfl⟩ | ⟨hp, rfl⟩ <;> simp [hp, BeAt.toGo]

/-- Only the backend gets its work done. -/
theorem beWork_kept {s s' : Sys} {m : Lbl} (hs : step mb s m = some s') (hm : m ≠ .be) (hw : s.beWork) :
    s'.beWork := by
  cases m with
  | host k a =>
    obtain ⟨h1, h2, -⟩ := hostStep_frame hs
    rw [Sys.beWork, h1, h2]
    exact hw
  | ftl =>
    rw [Sys.beWork, ftlStep_be hs]
    exact hw.imp_right fun hne e => hne (List.prefix_nil.mp (e ▸ ftlStep_registerList hs))
  | be => exact absurd rfl hm

/-- A backend with work to do is not parked for ever. -/
theorem unparks (hF : FineFair ρ) {t : Nat} (hw : ∀ u, t ≤ u → (ρ.state u).sys.beWork) :
    ∃ u, t ≤ u ∧ (ρ.state u).beAt ≠ .parked := by
  by_cases hp : (ρ.state t).beAt = .parked
  · have h := fine_ok_at ρ t
    have hsent : (ρ.state t).ftlAt = .sent := by
      have hh := h.holds
      rw [hp] at hh
      exact (h.parked hp).resolve_left ((hw t (Nat.le_refl t)).resolve_left (not_not.mpr hh))
    -- the signal comes
    refine hF.ftl.descends (P := fun x => x.beAt = .parked ∧ x.ftlAt = .sent) (Q := fun x => x.beAt ≠ .parked)
      (fun _ => 0) (fun x l x' _ hx hs hl => ?_) (fun x l x' _ hx hs hl => ?_) (fun v hv z => ?_) t ⟨hp, hsent⟩
    · by_cases hb : x'.beAt = .parked
      · exact .inr ⟨⟨hb, (ftlAt_kept hs hl).trans hx.2⟩, Nat.le_refl 0⟩
      · exact .inl hb
    · subst hl
      left
      cases fineFtl_cases hs with
      | signal => simp [hx.1]
      | lock hq | enter hq | step hq | append hq | round hq | unlock hq => simp [hx.2] at hq
    · refine ⟨max v z, Nat.le_max_right v z, .ftl, ?_⟩
      obtain ⟨x', e⟩ := ftl_enabled (fine_ok_at ρ (max v z)) (by rw [(hv _ (Nat.le_max_left v z)).2]; nofun)
      exact ⟨x', rfl, e⟩
  · exact ⟨t, Nat.le_refl t, hp⟩

theorem project_be (hF : FineFair ρ) : (Fine.project ρ).Strong (· = .be) := by
  intro hen t
  refine Classical.byContradiction fun hno => ?_
  have hnone : ∀ u, t ≤ u → ρ.label u = some .be → (ρ.state u).commits mb .be = none := fun u hu hl => by
    cases hc : (ρ.state u).commits mb .be with
    | none => rfl
    | some m =>
      obtain rfl := commits_be hc
      exact absurd ⟨u, hu, project_takes hl hc⟩ hno
  -- from some time on there is work, and it is not done
  obtain ⟨v, hv, l, s', rfl, hs⟩ := hen t
  have hwork : ∀ u, v ≤ u → (ρ.state u).sys.beWork := fun u hu => by
    induction hu with
    | refl =>
      cases beStep_cases hs with
      | take _ _ e => exact .inr (by rw [show (ρ.state v).sys.dev.registerList = _ from e]; exact List.cons_ne_nil _ _)
      | exec hb | post hb => exact .inl (by rw [show (ρ.state v).sys.be = _ from hb]; exact BePc.noConfusion)
    | @step u hu ih =>
      rcases run_cases (Fine.project ρ) u with e | ⟨m, hm, hs⟩
      · rw [show (ρ.state (u + 1)).sys = _ from e]
        exact ih
      · refine beWork_kept hs (fun e => ?_) ih
        exact hno ⟨u, Nat.le_trans hv hu, m, e, hm⟩
  obtain ⟨w, hvw, hw⟩ := unparks hF hwork
  have hstay : ∀ u, w ≤ u → (ρ.state u).beAt ≠ .parked → (ρ.state (u + 1)).beAt ≠ .parked ∧
      (ρ.state (u + 1)).beAt.toGo ≤ (ρ.state u).beAt.toGo := fun u hu hp => by
    rcases ρ.cases u with e | ⟨l, hl, hs⟩
    · rw [e]
      exact ⟨hp, Nat.le_refl _⟩
    · by_cases hb : l = .be
      · subst hb
        obtain ⟨h1, h2⟩ := be_stutters (fine_ok_at ρ u) (hwork u (by omega)) (hnone u (by omega) hl) hs
        exact ⟨h2, Nat.le_of_lt h1⟩
      · rw [be_kept hp hs hb]
        exact ⟨hp, Nat.le_refl _⟩
  have hend : LeadsTo (fun u => w ≤ u ∧ (ρ.state u).beAt ≠ .parked) fun _ => False := by
    refine LeadsTo.descend (fun u => (ρ.state u).beAt.toGo) (B := ρ.Takes (· = .be)) (fun u hu => ?_)
      (fun u hu hB => ?_) fun u hu => hF.be (fun z => ?_) u
    · obtain ⟨h1, h2⟩ := hstay u hu.1 hu.2
      exact .inr ⟨⟨by omega, h1⟩, h2⟩
    · obtain ⟨l, rfl, hl⟩ := hB
      have hu1 := hu.1
      obtain ⟨h1, h2⟩ := be_stutters (fine_ok_at ρ u) (hwork u (by omega)) (hnone u (by omega) hl)
        (ρ.step u _ hl)
      exact .inr ⟨⟨by omega, h2⟩, h1⟩
    · obtain ⟨y, hy, ho⟩ := mutex_freed hF (max u z)
      obtain ⟨x', e⟩ := be_enabled (fine_ok_at ρ y) (hu y (by omega)).2 (.inr ho)
      exact ⟨y, by omega, .be, x', rfl, e⟩
  obtain ⟨u, -, hu⟩ := hend w ⟨Nat.le_refl w, hw⟩
  exact hu

/-- **The threads are fair to the coarse system.** -/
theorem project_fair (hF : FineFair ρ) : Fair (Fine.project ρ) :=
  ⟨fun _ => project_ftl hF, project_be hF, project_host hF⟩

/-- The mutex and the condition variable keep no command from its end: in every
fair run of the threads the mutex is free again and again, and an accepted read
or write of one flash page goes through all the stages of its course. -/
theorem waiting_finishes (hF : FineFair ρ) :
    (Often fun t => (ρ.state t).owner = none) ∧
      ∀ t, ∃ u, t ≤ u ∧ ∀ v, u ≤ v → ∀ a ∈ (ρ.state t).sys.accs, servable a.cmd →
        (ρ.state v).sys.events a.toJob = a.toJob.course := by
  refine ⟨mutex_freed hF, fun t => ?_⟩
  obtain ⟨u, htu, hu⟩ := all_finish (project_fair hF) (t := t) (List.Subset.refl _)
  exact ⟨u, htu, hu⟩

end

/-! ### A fair run -/

/-- Nothing to do, and the backend is parked. -/
structure FineIdle (mb : BitVec 32) (x : Fine) (d : Desk Nat HostCmd) : Prop where
  ok : FineOk mb x
  idle : Idle mb x.sys d
  parked : x.beAt = .parked
  still : x.ftlAt ≠ .held ∧ x.ftlAt ≠ .sent

section
variable {mb : BitVec 32} {x : Fine} {d : Desk Nat HostCmd}

theorem FineIdle.not_sends (h : FineIdle mb x d) : x.sys.sends mb = false := by
  obtain ⟨s', hs, hI⟩ := h.idle.ftl
  rw [Sys.sends, hs, Option.any_some, (quiet_iff.mp hI.quiet).2.1]
  simp

theorem FineIdle.ftl (h : FineIdle mb x d) : ∃ x', fineFtl mb x = some x' ∧ FineIdle mb x' d := by
  have hen : ∃ x', fineFtl mb x = some x' := by
    by_cases hf : x.ftlAt = .free
    · refine ftl_enabled_free h.ok hf (fun _ => h.idle.unlocked) fun _ => ?_
      cases ho : x.owner with
      | none => rfl
      | some o =>
        cases o with
        | ftl => exact absurd hf (h.ok.ftl.mp ho)
        | be =>
          have hi := h.ok.be.mp ho
          rw [h.parked] at hi
          cases hi
    · exact ftl_enabled h.ok hf
  obtain ⟨x', hx⟩ := hen
  have hok := h.ok.ftl_step hx
  have hidle : ∀ {s}, ftlStep mb x.sys = some s → Idle mb s d := fun e => by
    obtain ⟨s', hs, hI⟩ := h.idle.ftl
    obtain rfl := Option.some.inj (hs.symm.trans e)
    exact hI
  refine ⟨x', hx, ?_⟩
  cases fineFtl_cases hx with
  | lock _ hn =>
    rw [h.not_sends] at hn
    cases hn
  | enter _ _ _ e => exact ⟨hok, hidle e, h.parked, nofun, nofun⟩
  | step hp _ _ e => exact ⟨hok, hidle e, h.parked, h.still⟩
  | append hp => exact absurd hp h.still.1
  | signal hp => exact absurd hp h.still.2
  | round _ e => exact ⟨hok, hidle e, h.parked, by dsimp only; split <;> nofun, by dsimp only; split <;> nofun⟩
  | unlock => exact ⟨hok, h.idle, h.parked, nofun, nofun⟩

/-- A schedule that leads to such a state can go on fairly. -/
theorem fine_fair_run {m : Shm} {ls : List FineLbl} (hm : shmInit = some m)
    (hs : LTS.exec (fineStep mb) ⟨.init m, none, .enter, .free⟩ ls = some x) (hi : idle x.sys = true)
    (hp : x.beAt = .parked) (hf : x.ftlAt = .free) :
    ∃ ρ : (fine mb).Run, FineFair ρ ∧ ρ.state ls.length = x := by
  have h₀ : (fine mb).init ⟨.init m, none, .enter, .free⟩ := ⟨⟨m, hm, rfl⟩, rfl, rfl, rfl⟩
  have hok := (fine_ok mb).reachable _ (LTS.Reachable.exec (fun _ _ _ h => h) (.start h₀) hs)
  obtain ⟨d, hI⟩ := exists_idle hok.reach hi
  obtain ⟨ρ, hend, hidle⟩ := Run.exists_for_ever (T := fine mb) (i := .ftl) (P := fun x => FineIdle mb x d)
    h₀ (fun _ _ _ => Iff.rfl) hs ⟨hok, hI, hp, by simp [hf], by simp [hf]⟩ fun s h => h.ftl
  refine ⟨ρ, ⟨fun _ t => ?_, fun h => ?_, fun k h => ?_⟩, hend⟩
  · exact ⟨max t ls.length, Nat.le_max_left _ _, .ftl, rfl, (hidle _ (Nat.le_max_right _ _)).2⟩
  · obtain ⟨t, ht, l, x', rfl, hl⟩ := h ls.length
    have hl : fineBe (ρ.state t) = some x' := hl
    rw [fineBe, (hidle t ht).1.parked] at hl
    cases hl
  · obtain ⟨t, ht⟩ := h
    obtain ⟨l, x', ⟨a, rfl, ha⟩, hl⟩ := ht (max t ls.length) (Nat.le_max_left _ _)
    obtain ⟨s, e, -⟩ := Option.map_eq_some_iff.mp hl
    have e : step mb _ (.host k a) = some s := e
    rw [(hidle _ (Nat.le_max_right t ls.length)).1.idle.host ⟨a, rfl, ha⟩] at e
    cases e

end

/-- The write of `fineSchedule`. -/
theorem waiting_finishes_write : ∃ (ρ : (fine 0).Run) (t u : Nat) (a : Acc), FineFair ρ ∧
    (∃ w, t ≤ w ∧ (ρ.state w).owner = none) ∧ a ∈ (ρ.state t).sys.accs ∧ t ≤ u ∧
      ∀ v, u ≤ v → (ρ.state v).sys.events a.toJob = a.toJob.course := by
  have h : (shmInit.bind fun m => LTS.exec (fineStep 0) ⟨.init m, none, .enter, .free⟩ fineSchedule).any
      (fun x => idle x.sys && decide (x.beAt = .parked) && decide (x.ftlAt = .free) &&
        decide (x.sys.accs.map (fun a => a.cmd) = [⟨SHM_WRITE_OPS, 20, 16384⟩])) = true := by decide +kernel
  obtain ⟨x, hx, hP⟩ := (Option.any_eq_true _ _).mp h
  obtain ⟨m, hm, he⟩ := Option.bind_eq_some_iff.mp hx
  simp only [Bool.and_eq_true, decide_eq_true_eq] at hP
  obtain ⟨⟨⟨hi, hp⟩, hf⟩, hacc⟩ := hP
  obtain ⟨ρ, hF, hend⟩ := fine_fair_run hm he hi hp hf
  obtain ⟨a, ha, hcmd⟩ := List.mem_map.mp (hacc ▸ List.mem_singleton_self _ :
    (⟨SHM_WRITE_OPS, 20, 16384⟩ : HostCmd) ∈ x.sys.accs.map fun a => a.cmd)
  obtain ⟨hfree, hall⟩ := waiting_finishes hF
  obtain ⟨u, htu, hu⟩ := hall fineSchedule.length
  rw [hend] at hu
  exact ⟨ρ, _, u, a, hF, hfree _, hend ▸ ha, htu, fun v hv => hu v hv a ha (hcmd ▸ write_servable)⟩

end OpenSSDEmu.L4.Pipeline
