import OpenSSDEmu.L4Pipeline.EmuIo

/-!
# Returns that leave a lock behind

`fio_emussd_queue` releases `mu` and `CTRL_BYTE` at its end
(`fio4emu/engines/emu_io.c:101-102`), but the branch for `DDIR_TRIM` returns
before that (`emu_io.c:89-94`) and leaves both locked. `fio_emussd_open_file`
unlocks `mu` when all went well (`emu_io.c:143`), and returns with `mu` locked
when `shm_open`, `ftruncate` or `mmap` fails (`emu_io.c:116-138`). The branches
next to them and `fio_emussd_close_file` release what they took.

A lock left behind is never free again: taking it waits for the byte, and
clearing it is the business of a party inside, of which there is none
(`Core.Lock`).

* `trim_orphans_locks`: one file opened and one trim.
* `clean_run_iff`: the states in which no lock is orphaned are exactly those
  of the runs without such a return.
-/
namespace OpenSSDEmu.Bugs.OrphanedLock
open L2.Shmem
open L4 L4.EmuIo
open Lock (Use Abandon Guarded Orphaned)

/-- A lock that is taken has somebody inside. -/
structure NotOrphaned (s : Io) : Prop where
  ctrl : s.shm.ctrl = true → ∃ p, s.inShm p = true
  mu : s.mu = true → ∃ t, s.inMu t = true

/-- The statement a thread is at does not return with a lock taken. -/
def releases : FioPc → Bool → Bool
  | .shmOpen _, ok | .ftruncate _, ok | .mmap _, ok => ok
  | .placing u, _ => decide (u.ddir ≠ .trim)
  | _, _ => true

def releasesAt (s : Io) : Lbl → Bool
  | .fio t ok => releases (s.thread t) ok
  | _ => true

/-- The condition: `shm_open`, `ftruncate` and `mmap` succeed and nobody gets to
the branch for a trim. -/
def Releases (s : Io) (l : Lbl) : Prop := releasesAt s l = true

/-! ## What a step does to the locks -/

section
variable {s s' : Io} {l : Lbl} {t : Nat} {ok : Bool}

/-- Thread `t` goes to `pc`, the other parties stay where they are. -/
structure ThreadStep (s s' : Io) (t : Nat) (pc : FioPc) : Prop where
  thread : s'.thread = fun k => if k = t then pc else s.thread k
  fe : s'.fe = s.fe
  ftl : s'.ftl = s.ftl

section
variable {pc : FioPc} (h : ThreadStep s s' t pc)
include h

theorem ThreadStep.inMu_self : s'.inMu t = pc.inMu := by simp [Io.inMu, h.thread]

theorem ThreadStep.inMu_other {k : Nat} (hk : k ≠ t) : s'.inMu k = s.inMu k := by
  simp [Io.inMu, h.thread, hk]

theorem ThreadStep.inShm_self : s'.inShm (.fio t) = pc.inShm := by simp [Io.inShm, h.thread]

theorem ThreadStep.inShm_other {p : Party} (hp : p ≠ .fio t) : s'.inShm p = s.inShm p := by
  cases p with
  | fio k =>
    have hk : k ≠ t := fun e => hp (e ▸ rfl)
    simp [Io.inShm, h.thread, hk]
  | fe => simp [Io.inShm, h.fe]
  | ftl => simp [Io.inShm, h.ftl]

end

/-- `shm_get` returns inside the section, and took the byte when it was clear. -/
theorem shmGet_enter {m m' : Shm} {b : Bool} (h : shmGet m = some m') : Use m.ctrl b m'.ctrl true := by
  unfold shmGet at h
  split at h
  · cases h
  · rename_i hc
    cases h
    exact .enter (by simpa using hc)

/-- What a thread going from `pc` to `pc'` does to the two locks. -/
structure Uses (s s' : Io) (pc pc' : FioPc) : Prop where
  mu : Use s.mu pc.inMu s'.mu pc'.inMu
  ctrl : Use s.shm.ctrl pc.inShm s'.shm.ctrl pc'.inShm

theorem callStep_uses {c : Call} (hs : callStep s t c = some s') :
    ∃ pc, ThreadStep s s' t pc ∧ Uses s s' (s.thread t) pc := by
  unfold callStep at hs
  split at hs
  · rename_i hx
    obtain ⟨hp, hm⟩ := hx
    cases c with
    | openFile f =>
      cases hs
      exact ⟨.shmOpen f, ⟨rfl, rfl, rfl⟩, .enter hm, by rw [hp]; exact .stay⟩
    | queue u =>
      cases hs
      exact ⟨.queued u, ⟨rfl, rfl, rfl⟩, .enter hm, by rw [hp]; exact .stay⟩
  · cases hs

/-- Either both locks are used as they should be, or the thread leaves `mu` locked. -/
theorem fioStep_uses (hs : fioStep s t ok = some s') : ∃ pc, ThreadStep s s' t pc ∧
    ((releases (s.thread t) ok = true ∧ Uses s s' (s.thread t) pc) ∨
      (releases (s.thread t) ok = false ∧ Abandon s.mu (s.thread t).inMu s'.mu pc.inMu)) := by
  cases hp : s.thread t with
  | idle => simp [fioStep, hp] at hs
  | shmOpen f =>
    simp only [fioStep, hp, Option.some.injEq] at hs
    subst hs
    cases ok with
    | true => exact ⟨_, ⟨rfl, rfl, rfl⟩, .inl ⟨rfl, .stay, .stay⟩⟩
    | false => exact ⟨_, ⟨rfl, rfl, rfl⟩, .inr ⟨rfl, ⟨rfl, rfl, rfl⟩⟩⟩
  | ftruncate f =>
    simp only [fioStep, hp, Option.some.injEq] at hs
    subst hs
    cases ok with
    | true => exact ⟨_, ⟨rfl, rfl, rfl⟩, .inl ⟨rfl, .stay, .stay⟩⟩
    | false => exact ⟨_, ⟨rfl, rfl, rfl⟩, .inr ⟨rfl, ⟨rfl, rfl, rfl⟩⟩⟩
  | mmap f =>
    simp only [fioStep, hp] at hs
    cases ok with
    | true =>
      cases hs
      exact ⟨.opened, ⟨rfl, rfl, rfl⟩, .inl ⟨rfl, .stay, .stay⟩⟩
    | false =>
      cases hs
      exact ⟨.idle, ⟨rfl, rfl, rfl⟩, .inr ⟨rfl, ⟨rfl, rfl, rfl⟩⟩⟩
  | opened =>
    simp only [fioStep, hp, Option.some.injEq] at hs
    subst hs
    exact ⟨.idle, ⟨rfl, rfl, rfl⟩, .inl ⟨rfl, .leave rfl, .stay⟩⟩
  | queued u =>
    simp only [fioStep, hp] at hs
    split at hs
    · obtain ⟨m, hm, rfl⟩ := Option.map_eq_some_iff.mp hs
      exact ⟨.testing u, ⟨rfl, rfl, rfl⟩, .inl ⟨rfl, .stay, shmGet_enter hm⟩⟩
    · cases hs
  | testing u =>
    simp only [fioStep, hp] at hs
    split at hs <;> cases hs
    · refine ⟨.sleeping u, ⟨rfl, rfl, rfl⟩, .inl ⟨rfl, .stay, ?_⟩⟩
      exact .leave rfl
    · exact ⟨.placing u, ⟨rfl, rfl, rfl⟩, .inl ⟨rfl, .stay, .stay⟩⟩
  | sleeping u =>
    simp only [fioStep, hp] at hs
    obtain ⟨m, hm, rfl⟩ := Option.map_eq_some_iff.mp hs
    exact ⟨.testing u, ⟨rfl, rfl, rfl⟩, .inl ⟨rfl, .stay, shmGet_enter hm⟩⟩
  | placing u =>
    have hsend : ∀ ops, (sendCmdToShm s.shm u.offset u.xferBuflen ops).map
          (fun m => { s.setThread t .unlocking with shm := m }) = some s' →
        ThreadStep s s' t .unlocking ∧ Uses s s' (.placing u) .unlocking := by
      intro ops hx
      obtain ⟨m, hm, rfl⟩ := Option.map_eq_some_iff.mp hx
      refine ⟨⟨rfl, rfl, rfl⟩, .stay, ?_⟩
      show Use _ _ m.ctrl _
      rw [sendCmdToShm_ctrl hm]
      exact .stay
    have hsync : some (s.setThread t .unlocking) = some s' →
        ThreadStep s s' t .unlocking ∧ Uses s s' (.placing u) .unlocking := by
      intro hx
      cases hx
      exact ⟨⟨rfl, rfl, rfl⟩, .stay, .stay⟩
    simp only [fioStep, hp] at hs
    cases hd : u.ddir with
    | read =>
      rw [hd] at hs
      obtain ⟨h1, h2⟩ := hsend _ hs
      exact ⟨_, h1, .inl ⟨by simp [releases, hd], h2⟩⟩
    | write =>
      rw [hd] at hs
      obtain ⟨h1, h2⟩ := hsend _ hs
      exact ⟨_, h1, .inl ⟨by simp [releases, hd], h2⟩⟩
    | trim =>
      rw [hd] at hs
      cases hs
      exact ⟨.idle, ⟨rfl, rfl, rfl⟩, .inr ⟨by simp [releases, hd], ⟨rfl, rfl, rfl⟩⟩⟩
    | sync | datasync | syncFileRange | wait =>
      rw [hd] at hs
      obtain ⟨h1, h2⟩ := hsync hs
      exact ⟨_, h1, .inl ⟨by simp [releases, hd], h2⟩⟩
  | unlocking =>
    simp only [fioStep, hp, Option.some.injEq] at hs
    subst hs
    exact ⟨.releasing, ⟨rfl, rfl, rfl⟩, .inl ⟨rfl, .leave rfl, .stay⟩⟩
  | releasing =>
    simp only [fioStep, hp, Option.some.injEq] at hs
    subst hs
    exact ⟨.idle, ⟨rfl, rfl, rfl⟩, .inl ⟨rfl, .stay, .leave rfl⟩⟩

/-- A step of the emulator leaves `mu` and the fio threads alone. -/
structure Beside (s s' : Io) : Prop where
  mu : s'.mu = s.mu
  thread : s'.thread = s.thread

theorem Beside.inMu (h : Beside s s') : s'.inMu = s.inMu := by
  unfold Io.inMu
  rw [h.thread]

theorem feStep_uses (hs : feStep s = some s') : Beside s s' ∧ s'.ftl = s.ftl ∧
    Use s.shm.ctrl (s.inShm .fe) s'.shm.ctrl (s'.inShm .fe) := by
  cases hp : s.fe with
  | idle =>
    simp only [feStep, hp] at hs
    obtain ⟨m, hm, rfl⟩ := Option.map_eq_some_iff.mp hs
    exact ⟨⟨rfl, rfl⟩, rfl, shmGet_enter hm⟩
  | testing =>
    have hin : s.inShm .fe = true := by simp [Io.inShm, hp]
    simp only [feStep, hp] at hs
    split at hs
    · cases hs
      exact ⟨⟨rfl, rfl⟩, rfl, .leave hin⟩
    · simp only [Option.bind_eq_bind, Option.bind_eq_some_iff, Option.pure_def] at hs
      obtain ⟨⟨i, m⟩, hr, slot, -, m', ha, hs⟩ := hs
      cases hs
      have h1 := shmListRemove_ctrl hr
      have h2 : m'.ctrl = m.ctrl := by
        have := shmListAdd_ctrl ha
        exact this
      refine ⟨⟨rfl, rfl⟩, rfl, ?_⟩
      show Use _ _ m'.ctrl true
      rw [h2, h1, hin]
      exact .stay
  | releasing =>
    simp only [feStep, hp, Option.some.injEq] at hs
    subst hs
    exact ⟨⟨rfl, rfl⟩, rfl, .leave (by simp [Io.inShm, hp])⟩

theorem ftlGet_uses {c : FtlCall} (hs : EmuIo.ftlGet s c = some s') : Beside s s' ∧ s'.fe = s.fe ∧
    Use s.shm.ctrl (s.inShm .ftl) s'.shm.ctrl (s'.inShm .ftl) := by
  unfold EmuIo.ftlGet at hs
  split at hs
  · obtain ⟨m, hm, rfl⟩ := Option.map_eq_some_iff.mp hs
    exact ⟨⟨rfl, rfl⟩, rfl, shmGet_enter hm⟩
  · cases hs

theorem ftlRelease_uses (hs : EmuIo.ftlRelease s = some s') : Beside s s' ∧ s'.fe = s.fe ∧
    Use s.shm.ctrl (s.inShm .ftl) s'.shm.ctrl (s'.inShm .ftl) := by
  simp only [EmuIo.ftlRelease, Option.bind_eq_bind, Option.bind_eq_some_iff, Option.pure_def] at hs
  obtain ⟨c, hc, m, -, hs⟩ := hs
  cases hs
  exact ⟨⟨rfl, rfl⟩, rfl, .leave (by simp [Io.inShm, hc])⟩

theorem step_mu (hs : step s l = some s') : ∃ t, (∀ k, k ≠ t → s'.inMu k = s.inMu k) ∧
    ((Releases s l ∧ Use s.mu (s.inMu t) s'.mu (s'.inMu t)) ∨
      (¬ Releases s l ∧ Abandon s.mu (s.inMu t) s'.mu (s'.inMu t))) := by
  have hbeside : Beside s s' → Releases s l → ∃ t, (∀ k, k ≠ t → s'.inMu k = s.inMu k) ∧
      ((Releases s l ∧ Use s.mu (s.inMu t) s'.mu (s'.inMu t)) ∨
        (¬ Releases s l ∧ Abandon s.mu (s.inMu t) s'.mu (s'.inMu t))) := by
    intro hb hP
    refine ⟨0, fun k _ => by rw [hb.inMu], .inl ⟨hP, ?_⟩⟩
    rw [hb.inMu, hb.mu]
    exact .stay
  cases l with
  | call t c =>
    obtain ⟨pc, ht, hu⟩ := callStep_uses hs
    exact ⟨t, fun k hk => ht.inMu_other hk, .inl ⟨rfl, ht.inMu_self ▸ hu.mu⟩⟩
  | fio t ok =>
    obtain ⟨pc, ht, hx⟩ := fioStep_uses hs
    refine ⟨t, fun k hk => ht.inMu_other hk, ?_⟩
    rcases hx with ⟨hP, hu⟩ | ⟨hP, hd⟩
    · exact .inl ⟨hP, ht.inMu_self ▸ hu.mu⟩
    · exact .inr ⟨by simp [Releases, releasesAt, hP], ht.inMu_self ▸ hd⟩
  | fe => exact hbeside (feStep_uses hs).1 rfl
  | ftlGet c => exact hbeside (ftlGet_uses hs).1 rfl
  | ftlRelease => exact hbeside (ftlRelease_uses hs).1 rfl

theorem step_ctrl (hs : step s l = some s') (hP : Releases s l) :
    ∃ p, (∀ q, q ≠ p → s'.inShm q = s.inShm q) ∧
      Use s.shm.ctrl (s.inShm p) s'.shm.ctrl (s'.inShm p) := by
  cases l with
  | call t c =>
    obtain ⟨pc, ht, hu⟩ := callStep_uses hs
    exact ⟨.fio t, fun q hq => ht.inShm_other hq, ht.inShm_self ▸ hu.ctrl⟩
  | fio t ok =>
    obtain ⟨pc, ht, ⟨-, hu⟩ | ⟨hn, -⟩⟩ := fioStep_uses hs
    · exact ⟨.fio t, fun q hq => ht.inShm_other hq, ht.inShm_self ▸ hu.ctrl⟩
    · rw [show releases (s.thread t) ok = true from hP] at hn
      cases hn
  | fe =>
    obtain ⟨hb, hf, hu⟩ := feStep_uses hs
    refine ⟨.fe, fun q hq => ?_, hu⟩
    cases q with
    | fio k => simp [Io.inShm, hb.thread]
    | fe => exact absurd rfl hq
    | ftl => simp [Io.inShm, hf]
  | ftlGet c =>
    obtain ⟨hb, hf, hu⟩ := ftlGet_uses hs
    refine ⟨.ftl, fun q hq => ?_, hu⟩
    cases q with
    | fio k => simp [Io.inShm, hb.thread]
    | fe => simp [Io.inShm, hf]
    | ftl => exact absurd rfl hq
  | ftlRelease =>
    obtain ⟨hb, hf, hu⟩ := ftlRelease_uses hs
    refine ⟨.ftl, fun q hq => ?_, hu⟩
    cases q with
    | fio k => simp [Io.inShm, hb.thread]
    | fe => simp [Io.inShm, hf]
    | ftl => exact absurd rfl hq

end

/-! ## Runs -/

/-- Each lock is taken exactly if somebody is inside, and only one is. -/
structure Kept (s : Io) : Prop where
  mu : Guarded s.mu s.inMu
  ctrl : Guarded s.shm.ctrl s.inShm

theorem Kept.notOrphaned {s : Io} (h : Kept s) : NotOrphaned s := ⟨h.ctrl.held_iff.mp, h.mu.held_iff.mp⟩

theorem kept_inv : (io.restrict Releases).Inductive Kept where
  init := by
    intro s hstart
    obtain ⟨m, hm, rfl⟩ := hstart
    obtain ⟨m', e, -, hc⟩ := shmInit_spec
    obtain rfl : m = m' := Option.some.inj (hm.symm.trans e)
    have hp : (Io.init m).inShm = fun _ => false := by
      funext p
      cases p <;> rfl
    refine ⟨Guarded.init, ?_⟩
    rw [hp, show (Io.init m).shm.ctrl = false from hc]
    exact Guarded.init
  step := by
    intro s l s' h hs
    obtain ⟨hP, hs⟩ := hs
    obtain ⟨t, hmu, ⟨-, hu⟩ | ⟨hn, -⟩⟩ := step_mu hs
    · obtain ⟨p, hctrl, hv⟩ := step_ctrl hs hP
      exact ⟨h.mu.use hmu hu, h.ctrl.use hctrl hv⟩
    · exact absurd hP hn

/-- Every reachable state comes from a run without such a return, or `mu` is
orphaned for good. -/
theorem clean_or_orphaned {s : Io} (hr : io.Reachable s) :
    (io.restrict Releases).Reachable s ∨ Orphaned s.mu s.inMu := by
  induction hr with
  | start h0 => exact .inl (.start h0)
  | @next s s' l _ hs ih =>
    obtain ⟨t, hmu, hx⟩ := step_mu hs
    rcases ih with hr | ho
    · rcases hx with ⟨hP, -⟩ | ⟨-, ha⟩
      · exact .inl (hr.next ⟨hP, hs⟩)
      · exact .inr ((kept_inv.reachable s hr).mu.abandon hmu ha)
    · exact .inr (ho.use hmu (hx.imp And.right And.right))

/-- The runs in which `shm_open`, `ftruncate` and `mmap` succeed and nobody gets to
the branch for a trim lead to exactly the reachable states in which no lock is
orphaned. -/
theorem clean_run_iff (s : Io) :
    (io.restrict Releases).Reachable s ↔ io.Reachable s ∧ NotOrphaned s := by
  constructor
  · intro hr
    exact ⟨hr.of_restrict, (kept_inv.reachable s hr).notOrphaned⟩
  · intro hx
    obtain ⟨hr, hn⟩ := hx
    rcases clean_or_orphaned hr with hc | ho
    · exact hc
    · exact absurd (hn.mu ho.held) ho.nobody

/-- A file is opened and a trim queued, up to the branch on the direction. -/
def trimSchedule : List Lbl :=
  [.call 0 (.openFile 0), .fio 0 true, .fio 0 true, .fio 0 true, .fio 0 true,
    .call 0 (.queue ⟨0, .trim, 0, 4096⟩), .fio 0 true, .fio 0 true]

/-- **Counterexample**: a trim returns with the byte set, and nobody is inside. -/
theorem trim_orphans_locks : ¬ ∀ s, io.Reachable s → NotOrphaned s := by
  intro hall
  have hrun : (shmInit.bind fun m =>
      LTS.exec (fun s l => if releasesAt s l then step s l else none) (.init m) trimSchedule).any
      (fun s => decide (s.thread 0 = .placing ⟨0, .trim, 0, 4096⟩)) = true := by decide +kernel
  obtain ⟨s, hs, hp⟩ := (Option.any_eq_true _ _).mp hrun
  obtain ⟨m, hm, he⟩ := Option.bind_eq_some_iff.mp hs
  have hr : (io.restrict Releases).Reachable s :=
    LTS.Reachable.exec_restrict (fun _ _ _ h => h) (fun _ _ h => h) (.start ⟨m, hm, rfl⟩) he
  have hp : s.thread 0 = .placing ⟨0, .trim, 0, 4096⟩ := by simpa using hp
  have hstep : step s (.fio 0 true) = some (s.setThread 0 .idle) := by simp [step, fioStep, hp]
  obtain ⟨pc, ht, hx⟩ := fioStep_uses hstep
  -- the thread was inside and has left, the byte is as it was
  have ho : Orphaned (s.setThread 0 .idle).shm.ctrl (s.setThread 0 .idle).inShm :=
    (kept_inv.reachable s hr).ctrl.abandon (fun q hq => ht.inShm_other hq)
      ⟨by simp [Io.inShm, hp, FioPc.inShm], rfl, by simp [Io.inShm, Io.setThread, FioPc.inShm]⟩
  exact ho.nobody ((hall _ (hr.of_restrict.next hstep)).ctrl ho.held)

end OpenSSDEmu.Bugs.OrphanedLock
