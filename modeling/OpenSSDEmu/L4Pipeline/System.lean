import OpenSSDEmu.L4Pipeline.Handlers
import OpenSSDEmu.L4Pipeline.Jobs

/-!
# The emulator as a system of threads

The submitters (`fe`, and any number of fio threads in `fio_emussd_queue`),
the FTL thread (`FTL_core0_task_run`: `FTL_nvme_req_polling`,
`FTL_core0task_polling`, `FTL_CQ_polling`, round and round) and the backend
thread `be()`. One step of a thread is one lock-protected section or one
handler invocation, and steps interleave in any order:

* a submitter takes the lock with one step and works under it with further
  ones, so every other user of the lock is shut out in between;
* the three sections of the FTL in `shmem.c` are one step each, enabled
  while no submitter holds the lock;
* `FTL_CQ_polling` holds `fcl_be_mutex` for its whole loop (`cqLoop`), so
  the backend's two sections are not enabled there.

A handler touches nothing another thread writes except through
`BE_send_sq`, itself one section, so running a handler in one step loses no
state between two invocations.

A submitter may write any content; `fe` itself always writes the same read.
The fields after `c` are bookkeeping the code does not have: the submitted
commands in order, the acceptances in order with the entry as it was handed
to `FTL_sendhcmd`, the events in order, and the number of finished rounds
of the FTL loop.

`none` is a step that is not enabled (waiting for a lock or for work) or a
null-pointer dereference; `ftl_progress` in `L4Pipeline.Slots` excludes the latter.
-/
namespace OpenSSDEmu.L4.Pipeline
open L2.Hcl L2.Fcl L2.Shmem L2.TaskQueue
open Jobs (Job Kind Place)

/-- mirrors src/ftl/ftl_nvme.h:4 -/
def MAX_POLLING_NUM : Nat := 8

inductive Host | fe | fio (t : Nat)
  deriving DecidableEq, Repr

/-- `idle` also stands for spinning on the lock, before and inside the wait
for a free slot. -/
inductive HostPc | idle | locked | taken (i : Nat) | placed
  deriving DecidableEq, Repr

/-- The FTL thread: in round `i` of the accept loop, before the
service of queue `s`, in round `j` of `cnt` of that service, before or
inside the completion loop. -/
inductive FtlPc
  | poll (i : Nat)
  | got (i index : Nat) (scmd : ShmCmd)
  | free (i index : Nat)
  | put (i index : Nat) (scmd : ShmCmd)
  | stage (s : Status)
  | serve (s : Status) (cnt j : Nat)
  | cq
  | cqLoop
  deriving DecidableEq, Repr

/-- The backend thread: waiting, holding a request, holding an executed one. -/
inductive BePc | idle | hand (sq : EmuSq) | done (sq : EmuSq)
  deriving DecidableEq, Repr

/-- An acceptance, with the entry as filled in. -/
structure Acc extends Job where
  entry : HostCmdEntry
  deriving DecidableEq, Repr

/-- An event: what happened to which job, and its entry just before. -/
structure Ev where
  kind : Kind
  job : Option Job
  entry : HostCmdEntry
  deriving DecidableEq, Repr

structure Sys where
  shm : Shm
  host : Host → HostPc
  dev : Dev
  ftl : FtlPc
  be : BePc
  c : UInt32
  submitted : List HostCmd
  accs : List Acc
  log : List Ev
  polls : Nat

/-- mirrors src/emu/emu_main.c:36-59 -/
def Sys.init (m : Shm) : Sys :=
  { shm := m, host := fun _ => .idle, dev := .init, ftl := .poll 0, be := .idle, c := 0,
    submitted := [], accs := [], log := [], polls := 0 }

/-- The latest acceptance into entry `i`. -/
def Sys.owner (s : Sys) (i : Nat) : Option Job :=
  (s.accs.reverse.find? fun a => a.idx = i).map Acc.toJob

def Sys.event (s : Sys) (k : Kind) (i : Nat) : Ev := ⟨k, s.owner i, s.dev.entry i⟩

/-! ## Submitters -/

/-- The list functions a submitter is compiled with. -/
def Host.listEmpty : Host → Shm → ListType → Bool
  | .fe => shmListEmpty
  | .fio _ => shmListEmptyX64

def Host.listAdd : Host → Shm → Nat → ListType → Option Shm
  | .fe => shmListAdd
  | .fio _ => shmListAddX64

def Host.listRemove : Host → Shm → ListType → Option (Nat × Shm)
  | .fe => shmListRemove
  | .fio _ => shmListRemoveX64

inductive HostAct | get | wait | sync | take | put (cmd : HostCmd) | release
  deriving DecidableEq, Repr

def Sys.setHost (s : Sys) (h : Host) (pc : HostPc) (m : Shm) : Sys :=
  { s with shm := m, host := fun k => if k = h then pc else s.host k }

/-- `wait`: the FREE list is empty, release and try again. `sync`: an fio
request that is neither read nor write.
mirrors src/emu/fe/fe.c:25-37 and src/fio4emu/engines/emu_io.c:36-52,68-102 -/
def hostStep (s : Sys) (h : Host) : HostAct → Option Sys
  | .get =>
    if s.host h = .idle then (shmGet s.shm).map (s.setHost h .locked) else none
  | .wait =>
    if s.host h = .locked ∧ h.listEmpty s.shm .free = true then
      some (s.setHost h .idle (shmRelease s.shm))
    else none
  | .sync =>
    if s.host h = .locked ∧ h ≠ .fe ∧ h.listEmpty s.shm .free = false then
      some (s.setHost h .idle (shmRelease s.shm))
    else none
  | .take =>
    if s.host h = .locked ∧ h.listEmpty s.shm .free = false then do
      let (i, m) ← h.listRemove s.shm .free
      return s.setHost h (.taken i) m
    else none
  | .put cmd =>
    match s.host h with
    | .taken i => do
      let slot ← slotPtr i
      let m := setSlot s.shm slot { s.shm.slot slot with toHostCmd := cmd }
      let m ← h.listAdd m i .rdy
      return { s.setHost h .placed m with submitted := s.submitted ++ [cmd] }
    | _ => none
  | .release =>
    if s.host h = .placed then some (s.setHost h .idle (shmRelease s.shm)) else none

/-! ## The FTL thread -/

/-- Accepting the command copied out of slot `index` into entry `k`.
mirrors src/ftl/ftl_nvme.c:69-108 -/
def acceptInto (s : Sys) (i index : Nat) (scmd : HostCmd) (k : Nat) (hcl : HcmdPool) : Sys :=
  let c := s.c + 1
  let e := fillEntry (hcl.queue k) scmd index c
  let j : Job := ⟨s.accs.length, k, scmd, s.polls⟩
  let d := { s.dev with hcl := L2.Hcl.setEntry hcl k e }
  { s with dev := (sendhcmd d k .checkCache).2, c := c, ftl := .free i index,
           accs := s.accs ++ [⟨j, e⟩], log := s.log ++ [⟨.accept, some j, e⟩] }

/-- The events of one invocation of the handler of queue `q` on entry `i`,
which took `d` to `d'`: a submission is one per request registered. -/
def handlerEvents (s : Sys) (q : Status) (d d' : Dev) (i : Nat) : List Ev :=
  if q = .toSq then
    (d'.registerList.drop d.registerList.length).map fun sq => s.event .send sq.hcmd
  else [s.event (Place.queue q).kind i]

/-- mirrors src/ftl/ftl_taskqueue.c:157 (`i++`) -/
def FtlPc.after : Status → FtlPc
  | .checkCache => .stage .toSq
  | .toSq => .stage .dataMoved
  | .dataMoved => .stage .fromCq
  | .fromCq => .stage .finish
  | _ => .cq

/-- mirrors src/ftl/ftl.c:22-40, src/ftl/ftl_nvme.c:53-117,
src/ftl/ftl_taskqueue.c:157-219 and src/ftl/ftl_core1.c:75-95 -/
def ftlStep (memBase : BitVec 32) (s : Sys) : Option Sys :=
  match s.ftl with
  | .poll i =>
    if i < MAX_POLLING_NUM then do
      let (r, m) ← shmGetRdyList s.shm
      match r with
      | none => return { s with shm := m, ftl := .poll (i + 1) }
      | some (index, scmd) => return { s with shm := m, ftl := .got i index scmd }
    else some { s with ftl := .stage .checkCache }
  | .got i index scmd =>
    match getHostCmdEntry s.dev.hcl with
    | (some k, hcl) => some (acceptInto s i index scmd.toHostCmd k hcl)
    | (none, _) => some { s with ftl := .put i index scmd }
  | .free i index => do
    let m ← shmAddFreeList s.shm index
    return { s with shm := m, ftl := .poll (i + 1) }
  | .put i index scmd => do
    let m ← shmAddRdyList s.shm index scmd
    return { s with shm := m, ftl := .poll (i + 1) }
  | .stage q => some { s with ftl := .serve q (s.dev.tq q).cnt.toNat 0 }
  | .serve q cnt j =>
    if j < cnt then
      let (hcmdEntry, ring) := removeHead (s.dev.tq q)
      let d := { s.dev with tq := fun t => if t = q then ring else s.dev.tq t }
      match hcmdEntry with
      | none => some { s with dev := d, ftl := .serve q cnt (j + 1) }
      | some i =>
        let d' := func memBase q d i
        some { s with dev := d', ftl := .serve q cnt (j + 1), log := s.log ++ handlerEvents s q d d' i }
    else some { s with ftl := .after q }
  | .cq => some { s with ftl := .cqLoop }
  | .cqLoop =>
    match s.dev.completeList with
    | [] => some { s with ftl := .poll 0, polls := s.polls + 1 }
    | sq :: rest =>
      some { s with dev := cqRound s.dev sq rest, log := s.log ++ [s.event .cq sq.hcmd] }

/-! ## The backend thread -/

/-- What the request does to the flash image is in `L1Encoding.FlashLog`.
mirrors src/emu/be/be.c:42-95 -/
def beStep (s : Sys) : Option Sys :=
  match s.be with
  | .idle =>
    if s.ftl = .cqLoop then none
    else
      match s.dev.registerList with
      | [] => none
      | sq :: rest =>
        some { s with dev := { s.dev with registerList := rest }, be := .hand sq,
                      log := s.log ++ [s.event .take sq.hcmd] }
  | .hand sq => some { s with be := .done sq, log := s.log ++ [s.event .exec sq.hcmd] }
  | .done sq =>
    if s.ftl = .cqLoop then none
    else
      some { s with dev := { s.dev with completeList := s.dev.completeList ++ [sq] }, be := .idle,
                    log := s.log ++ [s.event .post sq.hcmd] }

/-! ## The system -/

inductive Lbl
  | host (h : Host) (a : HostAct)
  | ftl
  | be
  deriving DecidableEq, Repr

def step (memBase : BitVec 32) (s : Sys) : Lbl → Option Sys
  | .host h a => hostStep s h a
  | .ftl => ftlStep memBase s
  | .be => beStep s

/-- The emulator from the state `main` starts its threads in. `memBase` is
where `malloc` put the simulated DRAM. -/
def sys (memBase : BitVec 32) : LTS Sys Lbl where
  init s := ∃ m, shmInit = some m ∧ s = .init m
  step s l s' := step memBase s l = some s'

/-- The state a schedule leads to. -/
def run (memBase : BitVec 32) (ls : List Lbl) : Option Sys :=
  shmInit.bind fun m => LTS.exec (step memBase) (.init m) ls

/-! ## What a step can do -/

/-- Everything a step of the FTL thread can do. -/
inductive FtlStep (mb : BitVec 32) (s : Sys) : Sys → Prop
  | empty {i : Nat} {m : Shm} (hp : s.ftl = .poll i) (hi : i < MAX_POLLING_NUM)
      (e : shmGetRdyList s.shm = some (none, m)) :
      FtlStep mb s { s with shm := m, ftl := .poll (i + 1) }
  | got {i index : Nat} {scmd : ShmCmd} {m : Shm} (hp : s.ftl = .poll i) (hi : i < MAX_POLLING_NUM)
      (e : shmGetRdyList s.shm = some (some (index, scmd), m)) :
      FtlStep mb s { s with shm := m, ftl := .got i index scmd }
  | polled {i : Nat} (hp : s.ftl = .poll i) (hi : ¬ i < MAX_POLLING_NUM) :
      FtlStep mb s { s with ftl := .stage .checkCache }
  | accept {i index k : Nat} {scmd : ShmCmd} {hcl : HcmdPool} (hp : s.ftl = .got i index scmd)
      (e : getHostCmdEntry s.dev.hcl = (some k, hcl)) :
      FtlStep mb s (acceptInto s i index scmd.toHostCmd k hcl)
  | refuse {i index : Nat} {scmd : ShmCmd} {hcl : HcmdPool} (hp : s.ftl = .got i index scmd)
      (e : getHostCmdEntry s.dev.hcl = (none, hcl)) :
      FtlStep mb s { s with ftl := .put i index scmd }
  | giveBack {i index : Nat} {m : Shm} (hp : s.ftl = .free i index)
      (e : shmAddFreeList s.shm index = some m) :
      FtlStep mb s { s with shm := m, ftl := .poll (i + 1) }
  | putBack {i index : Nat} {scmd : ShmCmd} {m : Shm} (hp : s.ftl = .put i index scmd)
      (e : shmAddRdyList s.shm index scmd = some m) :
      FtlStep mb s { s with shm := m, ftl := .poll (i + 1) }
  | stage {q : Status} (hp : s.ftl = .stage q) :
      FtlStep mb s { s with ftl := .serve q (s.dev.tq q).cnt.toNat 0 }
  | skip {q : Status} {cnt j : Nat} {ring : L2.TaskQueue Nat} (hp : s.ftl = .serve q cnt j) (hj : j < cnt)
      (e : removeHead (s.dev.tq q) = (none, ring)) :
      FtlStep mb s { s with
        dev := { s.dev with tq := fun t => if t = q then ring else s.dev.tq t }
        ftl := .serve q cnt (j + 1) }
  | serve {q : Status} {cnt j i : Nat} {ring : L2.TaskQueue Nat} {d d' : Dev} (hp : s.ftl = .serve q cnt j)
      (hj : j < cnt) (e : removeHead (s.dev.tq q) = (some i, ring))
      (hd : d = { s.dev with tq := fun t => if t = q then ring else s.dev.tq t })
      (hd' : d' = func mb q d i) :
      FtlStep mb s { s with
        dev := d', ftl := .serve q cnt (j + 1), log := s.log ++ handlerEvents s q d d' i }
  | served {q : Status} {cnt j : Nat} (hp : s.ftl = .serve q cnt j) (hj : ¬ j < cnt) :
      FtlStep mb s { s with ftl := .after q }
  | cq (hp : s.ftl = .cq) : FtlStep mb s { s with ftl := .cqLoop }
  | done (hp : s.ftl = .cqLoop) (e : s.dev.completeList = []) :
      FtlStep mb s { s with ftl := .poll 0, polls := s.polls + 1 }
  | round {sq : EmuSq} {rest : List EmuSq} (hp : s.ftl = .cqLoop)
      (e : s.dev.completeList = sq :: rest) :
      FtlStep mb s { s with dev := cqRound s.dev sq rest, log := s.log ++ [s.event .cq sq.hcmd] }

theorem ftlStep_cases {mb : BitVec 32} {s s' : Sys} (hs : ftlStep mb s = some s') : FtlStep mb s s' := by
  unfold ftlStep at hs
  split at hs
  · rename_i i hp
    split at hs
    · rename_i hi
      simp only [Option.bind_eq_bind, Option.bind_eq_some_iff, Option.pure_def] at hs
      obtain ⟨⟨r, m⟩, e, hs⟩ := hs
      cases r with
      | none =>
        cases hs
        exact .empty hp hi e
      | some x =>
        cases hs
        exact .got hp hi e
    · rename_i hi
      cases hs
      exact .polled hp hi
  · rename_i i index scmd hp
    split at hs
    · rename_i e
      cases hs
      exact .accept hp e
    · rename_i e
      cases hs
      exact .refuse hp e
  · rename_i i index hp
    simp only [Option.bind_eq_bind, Option.bind_eq_some_iff, Option.pure_def] at hs
    obtain ⟨m, e, hs⟩ := hs
    cases hs
    exact .giveBack hp e
  · rename_i i index scmd hp
    simp only [Option.bind_eq_bind, Option.bind_eq_some_iff, Option.pure_def] at hs
    obtain ⟨m, e, hs⟩ := hs
    cases hs
    exact .putBack hp e
  · rename_i q hp
    cases hs
    exact .stage hp
  · rename_i q cnt j hp
    split at hs
    · rename_i hj
      rcases e : removeHead (s.dev.tq q) with ⟨_ | i, ring⟩
      · simp only [e, Option.some.injEq] at hs
        subst hs
        exact .skip hp hj e
      · simp only [e, Option.some.injEq] at hs
        subst hs
        exact .serve hp hj e rfl rfl
    · rename_i hj
      cases hs
      exact .served hp hj
  · rename_i hp
    cases hs
    exact .cq hp
  · rename_i hp
    split at hs
    · rename_i e
      cases hs
      exact .done hp e
    · rename_i e
      cases hs
      exact .round hp e

/-- Everything a step of the backend can do. -/
inductive BeStep (s : Sys) : Sys → Prop
  | take {sq : EmuSq} {rest : List EmuSq} (hb : s.be = .idle) (hp : s.ftl ≠ .cqLoop)
      (e : s.dev.registerList = sq :: rest) :
      BeStep s { s with
        dev := { s.dev with registerList := rest }, be := .hand sq, log :=
          s.log ++ [s.event .take sq.hcmd] }
  | exec {sq : EmuSq} (hb : s.be = .hand sq) :
      BeStep s { s with be := .done sq, log := s.log ++ [s.event .exec sq.hcmd] }
  | post {sq : EmuSq} (hb : s.be = .done sq) (hp : s.ftl ≠ .cqLoop) :
      BeStep s { s with
        dev := { s.dev with completeList := s.dev.completeList ++ [sq] }, be := .idle
        log := s.log ++ [s.event .post sq.hcmd] }

theorem beStep_cases {s s' : Sys} (hs : beStep s = some s') : BeStep s s' := by
  unfold beStep at hs
  split at hs
  · rename_i hb
    split at hs
    · cases hs
    · rename_i hp
      split at hs
      · cases hs
      · rename_i e
        cases hs
        exact .take hb hp e
  · rename_i hb
    cases hs
    exact .exec hb
  · rename_i hb
    split at hs
    · cases hs
    · rename_i hp
      cases hs
      exact .post hb hp

/-- Everything a step of a submitter can do. -/
inductive HostStep (s : Sys) (k : Host) : HostAct → Sys → Prop
  | get {m : Shm} (hk : s.host k = .idle) (e : shmGet s.shm = some m) :
      HostStep s k .get (s.setHost k .locked m)
  | wait (hk : s.host k = .locked) (he : k.listEmpty s.shm .free = true) :
      HostStep s k .wait (s.setHost k .idle (shmRelease s.shm))
  | sync (hk : s.host k = .locked) (hfe : k ≠ .fe) (he : k.listEmpty s.shm .free = false) :
      HostStep s k .sync (s.setHost k .idle (shmRelease s.shm))
  | take {i : Nat} {m : Shm} (hk : s.host k = .locked) (he : k.listEmpty s.shm .free = false)
      (e : k.listRemove s.shm .free = some (i, m)) : HostStep s k .take (s.setHost k (.taken i) m)
  | put {i slot : Nat} {m : Shm} {cmd : HostCmd} (hk : s.host k = .taken i) (hp : slotPtr i = some slot)
      (e : k.listAdd (setSlot s.shm slot { s.shm.slot slot with toHostCmd := cmd }) i .rdy = some m) :
      HostStep s k (.put cmd) { s.setHost k .placed m with submitted := s.submitted ++ [cmd] }
  | release (hk : s.host k = .placed) : HostStep s k .release (s.setHost k .idle (shmRelease s.shm))

theorem hostStep_cases {s s' : Sys} {k : Host} {a : HostAct} (hs : hostStep s k a = some s') :
    HostStep s k a s' := by
  cases a with
  | get =>
    simp only [hostStep] at hs
    split at hs
    · rename_i hk
      obtain ⟨m, e, rfl⟩ := Option.map_eq_some_iff.mp hs
      exact .get hk e
    · cases hs
  | wait =>
    simp only [hostStep] at hs
    split at hs
    · rename_i hk
      cases hs
      exact .wait hk.1 hk.2
    · cases hs
  | sync =>
    simp only [hostStep] at hs
    split at hs
    · rename_i hk
      cases hs
      exact .sync hk.1 hk.2.1 hk.2.2
    · cases hs
  | take =>
    simp only [hostStep] at hs
    split at hs
    · rename_i hk
      simp only [Option.bind_eq_bind, Option.bind_eq_some_iff, Option.pure_def] at hs
      obtain ⟨⟨i, m⟩, e, hs⟩ := hs
      cases hs
      exact .take hk.1 hk.2 e
    · cases hs
  | put cmd =>
    simp only [hostStep] at hs
    split at hs
    · rename_i i hk
      simp only [Option.bind_eq_bind, Option.bind_eq_some_iff, Option.pure_def] at hs
      obtain ⟨slot, hp, m, e, hs⟩ := hs
      cases hs
      exact .put hk hp e
    · cases hs
  | release =>
    simp only [hostStep] at hs
    split at hs
    · rename_i hk
      cases hs
      exact .release hk
    · cases hs

/-- A schedule that runs through shows a reachable state. -/
theorem exists_run (mb : BitVec 32) {P : Sys → Bool} (ls : List Lbl) (h : (run mb ls).any P = true) :
    ∃ s, (sys mb).Reachable s ∧ P s = true := by
  obtain ⟨s, hs, hP⟩ := (Option.any_eq_true _ _).mp h
  obtain ⟨m, hm, he⟩ := Option.bind_eq_some_iff.mp hs
  exact ⟨s, LTS.Reachable.exec (fun _ _ _ h => h) (.start ⟨m, hm, rfl⟩) he, hP⟩

/-- The schedule of one submission by an fio thread. -/
def submit (t : Nat) (cmd : HostCmd) : List Lbl :=
  [.host (.fio t) .get, .host (.fio t) .take, .host (.fio t) (.put cmd), .host (.fio t) .release]

end OpenSSDEmu.L4.Pipeline
