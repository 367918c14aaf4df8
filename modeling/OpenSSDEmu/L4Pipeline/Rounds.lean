import OpenSSDEmu.L4Pipeline.Refine
import OpenSSDEmu.L4Pipeline.Slots

/-!
# Rounds of the FTL loop

Runs of the emulator put together from whole calls: a submission, an
acceptance, a refusal, and a round of the FTL in which no command is taken.
They show that a state can be reached; nothing here is about every run.

* `Open.submit`, `Open.get`, `Open.accept`, `Open.refuse`: what the desk
  looks like after each.
* `Open.poll`: a round comes to its end, and either something was served or
  there was nothing to serve (`Turn`).
* `Ready.command`: the three calls a command needs, and the round after them.
-/
namespace OpenSSDEmu.L4.Pipeline
open L2.Hcl L2.Fcl L2.Shmem L2.TaskQueue
open Jobs hiding step Lbl

/-! ## Calls -/

section
variable {mb : BitVec 32} {s s' : Sys} {h : Host} {d d' : Desk Nat HostCmd}

/-- A reachable state at desk `d`, with nobody in the locked sections. -/
structure Open (mb : BitVec 32) (s : Sys) (d : Desk Nat HostCmd) : Prop where
  reach : (sys mb).Reachable s
  desk : ∃ h, OnDesk s h d
  unlocked : s.shm.ctrl = false

theorem Open.all_idle (hO : Open mb s d) (k : Host) : s.host k = .idle := by
  obtain ⟨h, hI⟩ := hO.desk
  by_cases e : k = h
  · rw [e]
    by_contra hne
    have := hI.slots.lock.mpr hne
    rw [hO.unlocked] at this
    cases this
  · exact hI.slots.alone k e

theorem Open.idle (hO : Open mb s d) : d.taken = none := by
  obtain ⟨h, hI⟩ := hO.desk
  have := hI.taken
  rw [hO.all_idle h] at this
  exact Option.toList_eq_nil_iff.mp this.symm

theorem OnDesk.accs_length (hI : OnDesk s h d) : s.accs.length = d.accepted.length := by
  rw [← hI.accepted, List.length_map]

theorem OnDesk.accs_cmds (hI : OnDesk s h d) : s.accs.map (fun a => a.cmd) = d.accepted.map Prod.snd := by
  rw [← hI.accepted, List.map_map]
  rfl

/-- The submitted commands are those accepted, the one in the FTL's hands and
those that wait. -/
theorem OnDesk.submitted_length (hI : OnDesk s h d) :
    s.submitted.length = d.rdy.length + s.ftl.cmds.length + s.accs.length := by
  have hl := hI.slots.delivered.length_eq
  simpa [Nat.add_assoc] using hl

/-- What was submitted, accepted or logged stays so. -/
theorem step_grows {l : Lbl} (hs : step mb s l = some s') :
    s.submitted <+: s'.submitted ∧ s.accs <+: s'.accs ∧ s.log <+: s'.log := by
  cases l with
  | host k a =>
    obtain ⟨-, -, h3, h4, -, -⟩ := hostStep_frame hs
    rw [h3, h4]
    refine ⟨?_, List.prefix_rfl, List.prefix_rfl⟩
    cases hostStep_cases hs with
    | put => exact List.prefix_append _ _
    | _ => exact List.prefix_rfl
  | ftl =>
    cases ftlStep_cases hs with
    | accept => exact ⟨List.prefix_rfl, List.prefix_append _ _, List.prefix_append _ _⟩
    | serve | round => exact ⟨List.prefix_rfl, List.prefix_rfl, List.prefix_append _ _⟩
    | _ => exact ⟨List.prefix_rfl, List.prefix_rfl, List.prefix_rfl⟩
  | be =>
    cases beStep_cases hs <;> exact ⟨List.prefix_rfl, List.prefix_rfl, List.prefix_append _ _⟩

/-- With nothing waiting and nothing in hand all slots are free. -/
theorem Open.free_length (hO : Open mb s d) (hr : d.rdy = []) (hh : d.hand = .empty) :
    d.free.length = CMD_SLOT_NUM := by
  have hnone := hO.idle
  obtain ⟨h, hI⟩ := hO.desk
  have hl := hI.slots.slots.length_eq
  have hf : s.ftl.hand = [] := by
    have := hI.hand
    rw [hh] at this
    cases hp : s.ftl with
    | got i j c => rw [hp] at this; cases this
    | free i j => rw [hp] at this; cases this
    | put i j c => rw [hp] at this; cases this
    | _ => rfl
  simpa [hr, hf, hI.taken, hnone] using hl

/-- An fio thread takes the first free slot. -/
theorem Open.taking {i : Nat} {free : List Nat} (hO : Open mb s d) (hf : d.free = i :: free) :
    ∃ s', (sys mb).Reachable s' ∧ OnDesk s' (.fio 0) { d with free := free, taken := some i } ∧
      s'.host (.fio 0) = .taken i ∧ s'.ftl = s.ftl ∧ s'.dev = s.dev ∧
      LTS.exec (step mb) s [.host (.fio 0) .get, .host (.fio 0) .take] = some s' := by
  obtain ⟨h, hI⟩ := hO.desk
  let k : Host := .fio 0
  have hk : s.host k = .idle := hO.all_idle k
  -- `shm_get`
  have h1 : step mb s (.host k .get) = some (s.setHost k .locked { s.shm with ctrl := true }) := by
    simp [step, hostStep, hk, shmGet, hO.unlocked]
  have r1 : (sys mb).Reachable (s.setHost k .locked { s.shm with ctrl := true }) := hO.reach.next h1
  have hI1 : OnDesk (s.setHost k .locked { s.shm with ctrl := true }) k d := hI.get hO.unlocked
  generalize hs1 : s.setHost k .locked { s.shm with ctrl := true } = s1 at r1 hI1
  have hk1 : s1.host k = .locked := by simp [← hs1, Sys.setHost]
  -- `shm_list_remove`
  obtain ⟨m2, em, hI2⟩ := hI1.take hk1 hf
  have he : shmListEmpty s1.shm .free = false := by
    rw [Bool.eq_false_iff]
    intro he
    rw [hI1.slots.lists.freeL.empty_iff, hf] at he
    cases he
  have h2 : step mb s1 (.host k .take) = some (s1.setHost k (.taken i) m2) := by
    simp [step, hostStep, hk1, he, em, Host.listEmpty_eq, Host.listRemove_eq]
  refine ⟨_, r1.next h2, hI2, by simp [Sys.setHost, k], ?_⟩
  subst hs1
  exact ⟨rfl, rfl, by simp only [LTS.exec, k, h1, h2, Option.bind_some]⟩

/-- An fio thread submits a command. -/
theorem Open.submit {i : Nat} {free : List Nat} (hO : Open mb s d) (hf : d.free = i :: free)
    (cmd : HostCmd) :
    ∃ s', Open mb s' { d with free := free, rdy := d.rdy ++ [(i, cmd)],
                              submitted := d.submitted ++ [cmd] } ∧
      s'.ftl = s.ftl ∧ s'.dev = s.dev ∧ LTS.exec (step mb) s (Pipeline.submit 0 cmd) = some s' := by
  have hnone := hO.idle
  obtain ⟨s2, r2, hI2, hk2, hp2, hd2, he2⟩ := hO.taking hf
  -- `shm_list_add`
  obtain ⟨m3, hp, em3, hI3⟩ := hI2.put hk2 cmd
  have h3 : step mb s2 (.host (.fio 0) (.put cmd)) =
      some { s2.setHost (.fio 0) .placed m3 with submitted := s2.submitted ++ [cmd] } := by
    simp [step, hostStep, hk2, hp, em3, Host.listAdd_eq]
  have r3 := r2.next h3
  generalize hs3 : ({ s2.setHost (.fio 0) .placed m3 with submitted := s2.submitted ++ [cmd] } : Sys) = s3
    at h3 r3 hI3
  have hk3 : s3.host (.fio 0) = .placed := by simp [← hs3, Sys.setHost]
  -- `shm_release`
  have h4 : step mb s3 (.host (.fio 0) .release) =
    some (s3.setHost (.fio 0) .idle (shmRelease s3.shm)) := by
    simp [step, hostStep, hk3]
  have hI4 := hI3.leave (by simp [hk3, HostPc.hand])
  refine ⟨_, ⟨r3.next h4, ⟨.fio 0, ?_⟩, rfl⟩, ?_⟩
  · simpa [hnone] using hI4
  · have he : LTS.exec (step mb) s (Pipeline.submit 0 cmd) =
        some (s3.setHost (.fio 0) .idle (shmRelease s3.shm)) := by
      rw [show Pipeline.submit 0 cmd = [.host (.fio 0) .get, .host (.fio 0) .take] ++
        [.host (.fio 0) (.put cmd), .host (.fio 0) .release] from rfl, LTS.exec_append, he2]
      simp only [LTS.exec, h3, h4, Option.bind_some]
    subst hs3
    exact ⟨hp2, hd2, he⟩

/-- Submissions until a given slot is the next one. -/
theorem Open.submit_until {pre free : List Nat} {i : Nat} (hO : Open mb s d)
    (hf : d.free = pre ++ i :: free) :
    ∃ s' d', Open mb s' d' ∧ d'.free = i :: free ∧ s'.ftl = s.ftl ∧ s'.dev = s.dev := by
  induction pre generalizing s d with
  | nil => exact ⟨s, d, hO, hf, rfl, rfl⟩
  | cons j pre ih =>
    obtain ⟨s1, hO1, hp1, hd1, -⟩ := hO.submit hf ⟨SHM_READ_OPS, 0, 16384⟩
    obtain ⟨s2, d2, hO2, hf2, hp2, hd2⟩ := ih hO1 rfl
    exact ⟨s2, d2, hO2, hf2, hp2.trans hp1, hd2.trans hd1⟩

theorem ftlStep_host (hs : ftlStep mb s = some s') : s'.host = s.host := by
  cases ftlStep_cases hs <;> rfl

theorem Open.next (hO : Open mb s d) (hs : ftlStep mb s = some s') (hI : OnDesk s' h d') :
    Open mb s' d' := by
  refine ⟨hO.reach.next (l := .ftl) hs, ⟨h, hI⟩, ?_⟩
  rw [Bool.eq_false_iff]
  intro hc
  refine hI.slots.lock.mp hc ?_
  rw [ftlStep_host hs]
  exact hO.all_idle h

/-- The FTL takes a step. -/
theorem Open.ftl (hO : Open mb s d) : ∃ s', ftlStep mb s = some s' ∧
    (Open mb s' d ∨ ∃ a d', Lbl.acts .ftl a ∧ Desk.step d a = some d' ∧ Open mb s' d') := by
  obtain ⟨h, hI⟩ := hO.desk
  obtain ⟨s', hs, hd⟩ := hI.ftl_step mb fun _ => hO.unlocked
  refine ⟨s', hs, ?_⟩
  rcases hd with ⟨k, hI'⟩ | ⟨a, d', k, ha, hd, hI'⟩
  · exact .inl (hO.next hs hI')
  · exact .inr ⟨a, d', ha, hd, hO.next hs hI'⟩

/-! ## A round without a command -/

/-- Something was served, or the device is as it was and `P` holds of it. -/
def Turn (P : Dev → Prop) (s s' : Sys) : Prop :=
  s.log.length < s'.log.length ∨ (s'.log = s.log ∧ s'.dev = s.dev ∧ s'.be = s.be ∧ P s.dev)

/-- No queue the FTL serves and no list it polls holds anything. -/
def Dev.Served (d : Dev) : Prop :=
  (∀ q, q ≠ .waitCq → isEmpty (d.tq q) = true) ∧ d.completeList = []

section
variable {P Q : Dev → Prop} {s'' : Sys}

theorem Turn.length_le (h : Turn P s s') : s.log.length ≤ s'.log.length := by
  rcases h with h | ⟨h, -⟩
  · exact Nat.le_of_lt h
  · rw [h]

theorem Turn.mono (h : Turn P s s') (hPQ : ∀ d, P d → Q d) : Turn Q s s' :=
  h.imp_right fun ⟨h1, h2, h3, hP⟩ => ⟨h1, h2, h3, hPQ _ hP⟩

/-- Steps that serve nothing do not count. -/
theorem Turn.after (h : Turn P s' s'') (h1 : s'.log = s.log) (h2 : s'.dev = s.dev) (h3 : s'.be = s.be) :
    Turn P s s'' := by
  unfold Turn at h ⊢
  rwa [h1, h2, h3] at h

theorem Turn.trans (h : Turn P s s') (h' : Turn Q s' s'') : Turn (fun d => P d ∧ Q d) s s'' := by
  rcases h with h | ⟨h1, h2, h3, hP⟩
  · exact .inl (Nat.lt_of_lt_of_le h h'.length_le)
  · rcases h' with h' | ⟨h1', h2', h3', hQ⟩
    · exact .inl (h1 ▸ h')
    · exact .inr ⟨h1'.trans h1, h2'.trans h2, h3'.trans h3, hP, h2 ▸ hQ⟩

end

/-- With nothing in hand and nothing waiting the desk stays as it is. -/
theorem Open.calm (hO : Open mb s d) (hh : d.hand = .empty) (hr : d.rdy = []) :
    ∃ s', ftlStep mb s = some s' ∧ Open mb s' d := by
  obtain ⟨s', hs, hO' | ⟨a, d', ha, hd, -⟩⟩ := hO.ftl
  · exact ⟨s', hs, hO'⟩
  · cases a with
    | take => exact absurd ha id
    | put c => exact absurd ha id
    | _ => simp [Desk.step, hh, hr] at hd

/-- As long as a queue is being served each step is an event. -/
theorem serve_logs {q : Status} {cnt j : Nat} (hr : (sys mb).Reachable s) (hp : s.ftl = .serve q cnt j)
    (hlt : j < cnt) (hs : ftlStep mb s = some s') :
    s'.ftl = .serve q cnt (j + 1) ∧ s.log.length < s'.log.length := by
  obtain ⟨n, hI, h⟩ := reachable_sim hr
  rcases e : removeHead (s.dev.tq q) with ⟨_ | i, ring⟩
  · obtain ⟨k, r, hq⟩ := h.serving hp hlt
    have h1 := (h.dev.places.removeHead hq).1
    rw [e] at h1
    cases h1
  · obtain ⟨k, r, -, -, hev⟩ := h.serve_first hI hp hlt e rfl (rfl : _ = func mb q _ i)
    simp only [ftlStep, hp, hlt, if_true, e, hev] at hs
    cases hs
    exact ⟨rfl, by simp⟩

/-- Then a queue is served to its end. -/
theorem Open.serve {q : Status} {cnt j : Nat} (hh : d.hand = .empty) (hr : d.rdy = [])
    (hO : Open mb s d) (hp : s.ftl = .serve q cnt j) :
    ∃ s', Open mb s' d ∧ s'.ftl = .after q ∧ Turn (fun _ => cnt ≤ j) s s' := by
  generalize hk : cnt - j = k
  induction k generalizing s j with
  | zero =>
    obtain ⟨s', hs, hO'⟩ := hO.calm hh hr
    have hlt : ¬ j < cnt := by omega
    simp only [ftlStep, hp, hlt, if_false] at hs
    cases hs
    exact ⟨_, hO', rfl, .inr ⟨rfl, rfl, rfl, by omega⟩⟩
  | succ k ih =>
    obtain ⟨s1, hs, hO1⟩ := hO.calm hh hr
    obtain ⟨hp1, hl⟩ := serve_logs hO.reach hp (by omega) hs
    obtain ⟨s', hO', hp', ht⟩ := ih hO1 hp1 (by omega)
    exact ⟨s', hO', hp', .inl (Nat.lt_of_lt_of_le hl ht.length_le)⟩

theorem Open.stage {q : Status} (hh : d.hand = .empty) (hr : d.rdy = []) (hO : Open mb s d)
    (hp : s.ftl = .stage q) :
    ∃ s', Open mb s' d ∧ s'.ftl = .after q ∧ Turn (fun d => isEmpty (d.tq q) = true) s s' := by
  obtain ⟨s1, hs, hO1⟩ := hO.calm hh hr
  simp only [ftlStep, hp, Option.some.injEq] at hs
  subst hs
  obtain ⟨s', hO', hp', ht⟩ := hO1.serve hh hr rfl
  refine ⟨s', hO', hp', ht.imp_right fun ⟨h1, h2, h3, h4⟩ => ⟨h1, h2, h3, ?_⟩⟩
  simpa [isEmpty] using h4

theorem cqRound_completeList (d : Dev) (sq : EmuSq) (rest : List EmuSq) :
    (cqRound d sq rest).completeList = rest := by
  rw [cqRound_eq rfl]
  split <;> rfl

theorem Open.cqLoop (hh : d.hand = .empty) (hr : d.rdy = []) (hO : Open mb s d)
    (hp : s.ftl = .cqLoop) :
    ∃ s', Open mb s' d ∧ s'.ftl = .poll 0 ∧ Turn (fun d => d.completeList = []) s s' := by
  generalize hn : s.dev.completeList = l
  induction l generalizing s with
  | nil =>
    obtain ⟨s', hs, hO'⟩ := hO.calm hh hr
    simp only [ftlStep, hp, hn] at hs
    cases hs
    exact ⟨_, hO', rfl, .inr ⟨rfl, rfl, rfl, hn⟩⟩
  | cons sq rest ih =>
    obtain ⟨s1, hs, hO1⟩ := hO.calm hh hr
    simp only [ftlStep, hp, hn] at hs
    cases hs
    obtain ⟨s', hO', hp', ht⟩ := ih hO1 rfl (cqRound_completeList s.dev sq rest)
    exact ⟨s', hO', hp', .inl (Nat.lt_of_lt_of_le (by simp) ht.length_le)⟩

/-- The FTL comes round to the next call of `FTL_nvme_req_polling`. -/
theorem Open.round (hh : d.hand = .empty) (hr : d.rdy = []) (hO : Open mb s d)
    (hp : s.ftl = .stage .checkCache) : ∃ s', Open mb s' d ∧ s'.ftl = .poll 0 ∧ Turn Dev.Served s s' := by
  obtain ⟨s1, hO1, hp1, t1⟩ := hO.stage hh hr hp
  obtain ⟨s2, hO2, hp2, t2⟩ := hO1.stage hh hr hp1
  obtain ⟨s3, hO3, hp3, t3⟩ := hO2.stage hh hr hp2
  obtain ⟨s4, hO4, hp4, t4⟩ := hO3.stage hh hr hp3
  obtain ⟨s5, hO5, hp5, t5⟩ := hO4.stage hh hr hp4
  obtain ⟨s6, hs6, hO6⟩ := hO5.calm hh hr
  simp only [ftlStep, hp5, FtlPc.after, Option.some.injEq] at hs6
  subst hs6
  obtain ⟨s7, hO7, hp7, t7⟩ := hO6.cqLoop hh hr rfl
  have t6 : Turn _ s5 s7 := t7.after rfl rfl rfl
  refine ⟨s7, hO7, hp7, ((((t1.trans t2).trans t3).trans t4).trans (t5.trans t6)).mono ?_⟩
  rintro d ⟨⟨⟨⟨h1, h2⟩, h3⟩, h4⟩, h5, h6⟩
  refine ⟨fun q hq => ?_, h6⟩
  cases q with
  | waitCq => exact absurd rfl hq
  | _ => assumption

theorem Open.poll {i : Nat} (hh : d.hand = .empty) (hr : d.rdy = []) (hO : Open mb s d)
    (hp : s.ftl = .poll i) : ∃ s', Open mb s' d ∧ s'.ftl = .poll 0 ∧ Turn Dev.Served s s' := by
  generalize hk : MAX_POLLING_NUM - i = k
  induction k generalizing s i with
  | zero =>
    obtain ⟨s1, hs, hO1⟩ := hO.calm hh hr
    have hlt : ¬ i < MAX_POLLING_NUM := by omega
    simp only [ftlStep, hp, hlt, if_false, Option.some.injEq] at hs
    subst hs
    obtain ⟨s', hO', hp', ht⟩ := hO1.round hh hr rfl
    exact ⟨s', hO', hp', ht.after rfl rfl rfl⟩
  | succ k ih =>
    obtain ⟨s1, hs, hO1⟩ := hO.calm hh hr
    have hlt : i < MAX_POLLING_NUM := by omega
    obtain ⟨h, hI⟩ := hO.desk
    have hsl := hI.slots
    rw [hr] at hsl
    simp only [ftlStep, hp, hlt, if_true, shmGetRdyList_nil hsl.lists hO.unlocked] at hs
    cases hs
    obtain ⟨s', hO', hp', ht⟩ := ih hO1 rfl (by omega)
    exact ⟨s', hO', hp', ht.after rfl rfl rfl⟩

/-! ## Taking a command -/

/-- The next waiting command is taken. -/
theorem Open.get {i : Nat} {x : Nat × HostCmd} {rdy : List (Nat × HostCmd)} (hO : Open mb s d)
    (hp : s.ftl = .poll i) (hlt : i < MAX_POLLING_NUM) (hr : d.rdy = x :: rdy) :
    ∃ s' c, Open mb s' { d with hand := .got x.1 x.2, rdy := rdy } ∧ s'.ftl = .got i x.1 c ∧
      c.toHostCmd = x.2 ∧ s'.dev = s.dev ∧ step mb s .ftl = some s' := by
  obtain ⟨h, hI⟩ := hO.desk
  obtain ⟨m, c, e, hI'⟩ := hI.got hp hO.unlocked hr
  have hs : ftlStep mb s = some { s with shm := m, ftl := .got i x.1 c } := by
    simp [ftlStep, hp, hlt, e]
  have hc : (Desk.Hand.got x.1 c.toHostCmd : Desk.Hand Nat HostCmd) = .got x.1 x.2 := hI'.hand
  exact ⟨_, c, hO.next hs hI', rfl, by simpa using hc, rfl, hs⟩

/-- With an entry to spare it is accepted, and its slot returned. -/
theorem Open.accept {i j k : Nat} {c : ShmCmd} {hcl : HcmdPool} (hO : Open mb s d)
    (hp : s.ftl = .got i j c) (hg : getHostCmdEntry s.dev.hcl = (some k, hcl)) :
    ∃ s', Open mb s' { d with hand := .empty, free := d.free ++ [j],
                              accepted := d.accepted ++ [(j, c.toHostCmd)] } ∧
      s'.ftl = .poll (i + 1) ∧ s'.dev = (acceptInto s i j c.toHostCmd k hcl).dev ∧
      LTS.exec (step mb) s [.ftl, .ftl] = some s' := by
  obtain ⟨h, hI⟩ := hO.desk
  have hs : ftlStep mb s = some (acceptInto s i j c.toHostCmd k hcl) := by simp [ftlStep, hp, hg]
  have hO1 := hO.next hs (hI.accept hp k hcl)
  obtain ⟨h1, hI1⟩ := hO1.desk
  obtain ⟨m, e, hI2⟩ := hI1.giveBack rfl hO1.unlocked
  have hs2 : ftlStep mb (acceptInto s i j c.toHostCmd k hcl) =
      some { acceptInto s i j c.toHostCmd k hcl with shm := m, ftl := .poll (i + 1) } := by
    simp only [ftlStep, acceptInto] at e ⊢
    simp [e]
  exact ⟨_, hO1.next hs2 hI2, rfl, rfl, by simp only [LTS.exec, step, hs, hs2, Option.bind_some]⟩

/-- With all entries in use it is to be put back. -/
theorem Open.refuse {i j : Nat} {c : ShmCmd} {hcl : HcmdPool} (hO : Open mb s d)
    (hp : s.ftl = .got i j c) (hg : getHostCmdEntry s.dev.hcl = (none, hcl)) :
    ∃ s', Open mb s' { d with hand := .put j c.toHostCmd } ∧ s'.ftl = .put i j c := by
  obtain ⟨h, hI⟩ := hO.desk
  have hs : ftlStep mb s = some { s with ftl := .put i j c } := by simp [ftlStep, hp, hg]
  exact ⟨_, hO.next hs (hI.refuse hp), rfl⟩

/-- And goes to the end of the line. -/
theorem Open.putBack {i j : Nat} {c : ShmCmd} (hO : Open mb s d) (hp : s.ftl = .put i j c) :
    ∃ s', step mb s .ftl = some s' ∧
      Open mb s' { d with hand := .empty, rdy := d.rdy ++ [(j, c.toHostCmd)] } := by
  obtain ⟨h, hI⟩ := hO.desk
  obtain ⟨m, e, hI'⟩ := hI.putBack hp hO.unlocked
  have hs : ftlStep mb s = some { s with shm := m, ftl := .poll (i + 1) } := by simp [ftlStep, hp, e]
  exact ⟨_, hs, hO.next hs hI'⟩

/-! ## One command after the other -/

/-- Between two rounds of the FTL, with nothing waiting. -/
structure Ready (mb : BitVec 32) (s : Sys) (d : Desk Nat HostCmd) : Prop extends Open mb s d where
  poll : s.ftl = .poll 0
  rdy : d.rdy = []
  hand : d.hand = .empty

theorem exists_ready (mb : BitVec 32) : ∃ s d, Ready mb s d ∧ d.accepted = [] := by
  obtain ⟨m, hm, -, hc⟩ := shmInit_spec
  have hO : Open mb (.init m) ⟨List.range CMD_SLOT_NUM, [], none, .empty, [], []⟩ :=
    ⟨.start ⟨m, hm, rfl⟩, ⟨.fe, (slots_init hm).onDesk⟩, hc⟩
  exact ⟨_, _, ⟨hO, rfl, rfl, rfl⟩, rfl⟩

/-- Submitted, accepted, and the round run to its end. -/
theorem Ready.command (h : Ready mb s d) (hg : allocated s.dev.hcl < HCMD_NUM) (cmd : HostCmd) :
    ∃ s' d' i, Ready mb s' d' ∧ d'.accepted = d.accepted ++ [(i, cmd)] := by
  have hlen := h.free_length h.rdy h.hand
  cases hf : d.free with
  | nil => rw [hf] at hlen; cases hlen
  | cons i free =>
    obtain ⟨s1, hO1, hp1, hd1, -⟩ := h.submit hf cmd
    have hr1 : d.rdy ++ [(i, cmd)] = [(i, cmd)] := by rw [h.rdy]; rfl
    obtain ⟨s2, c, hO2, hp2, hc, hd2, -⟩ := hO1.get (hp1.trans h.poll) (by decide) hr1
    have hroom : allocated s2.dev.hcl < HCMD_NUM := by rw [hd2, hd1]; exact hg
    obtain ⟨e, hcl, hget⟩ := getHostCmdEntry_of_lt hroom
    obtain ⟨s3, hO3, hp3, -⟩ := hO2.accept hp2 hget
    obtain ⟨s4, hO4, hp4, -⟩ := hO3.poll rfl rfl hp3
    exact ⟨s4, _, i, ⟨hO4, hp4, rfl, rfl⟩, by rw [hc]⟩

end

end OpenSSDEmu.L4.Pipeline
