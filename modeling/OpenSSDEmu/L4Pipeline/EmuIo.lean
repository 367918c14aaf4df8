import OpenSSDEmu.Core.Lock
import OpenSSDEmu.L4Pipeline.System

/-!
# The fio engine and its two locks

`fio4emu/engines/emu_io.c`. The threads of the fio process share a mutex
`mu`, and with the emulator the byte `CTRL_BYTE` in shared memory, taken with
`shm_get` and cleared with `shm_release`. `L4Pipeline.System` has a submitter
hold the second one only; here the two entry points of the engine are cut at
every statement that takes, releases or returns, so that both locks and the
calls that fail are visible:

* `fio_emussd_open_file` works under `mu` and has three system calls that can
  fail;
* `fio_emussd_queue` takes `mu`, then the byte, gives the byte up and takes it
  again while no slot is free, and releases `mu` before the byte.

On the emulator's side are `fe` and the three functions the FTL calls
(`shmem.c`), each one section under the byte. The FTL may call them in any
order with any argument, which includes what `FTL_nvme_req_polling` does; `fe`
may submit more than its 500 commands.

`inMu`, `inShm` say who is inside. A thread that returned is `idle`, whatever it
left locked. Left out: `log_info`, `do_io_u_trim` and `do_io_u_sync`, which
touch neither lock, and a failing `calloc`. `none` is a step that is not
enabled (waiting for a lock), a null-pointer dereference or a failed `assert`.
-/
namespace OpenSSDEmu.L4.EmuIo
open L2.Shmem
open Lock (Use Abandon Guarded Orphaned)

/-- mirrors src/fio4emu/io_ddir.h:4-13 -/
inductive Ddir | read | write | trim | sync | datasync | syncFileRange | wait
  deriving DecidableEq, Repr

/-- The fields of `struct io_u` the engine reads. -/
structure IoU where
  file : Nat
  ddir : Ddir
  offset : UInt64
  xferBuflen : UInt64
  deriving DecidableEq, Repr

/-- An fio thread: which statement it is before. -/
inductive FioPc
  | idle
  | shmOpen (f : Nat)
  | ftruncate (f : Nat)
  | mmap (f : Nat)
  | opened
  | queued (u : IoU)
  | testing (u : IoU)
  | sleeping (u : IoU)
  | placing (u : IoU)
  | unlocking
  | releasing
  deriving DecidableEq, Repr

/-- `fe`: before `shm_get`, at the test of the FREE list, before `shm_release`. -/
inductive FePc | idle | testing | releasing
  deriving DecidableEq, Repr

/-- The sections of the FTL. -/
inductive FtlCall
  | getRdyList
  | addRdyList (index : Nat) (scmd : ShmCmd)
  | addFreeList (index : Nat)
  deriving DecidableEq, Repr

/-- `eng f`: `FILE_ENG_DATA` of file `f` is set. `ftl` is the section the FTL is in. -/
structure Io where
  shm : Shm
  mu : Bool
  eng : Nat → Bool
  thread : Nat → FioPc
  fe : FePc
  ftl : Option FtlCall

def Io.init (m : Shm) : Io :=
  { shm := m, mu := false, eng := fun _ => false, thread := fun _ => .idle, fe := .idle, ftl := none }

def Io.setThread (s : Io) (t : Nat) (pc : FioPc) : Io :=
  { s with thread := fun k => if k = t then pc else s.thread k }

/-! ## The fio threads -/

/-- The fields of a slot are 32 bits wide.
mirrors src/fio4emu/engines/emu_io.c:30-53 -/
def sendCmdToShm (m : Shm) (offset dataLen : UInt64) (ops : UInt32) : Option Shm := do
  let lpn := offset / HOST_BLOCK_SIZE.toUInt64
  let (i, m) ← shmListRemoveX64 m .free
  let victimSlot ← slotPtr i
  if i ≤ 255 then
    let cmd : HostCmd := ⟨ops, lpn.toUInt32, dataLen.toUInt32⟩
    shmListAddX64 (setSlot m victimSlot { m.slot victimSlot with toHostCmd := cmd }) i .rdy
  else none

inductive Call | openFile (f : Nat) | queue (u : IoU)
  deriving DecidableEq, Repr

/-- A call up to its `pthread_mutex_lock(&mu)`.
mirrors src/fio4emu/engines/emu_io.c:62,110 -/
def callStep (s : Io) (t : Nat) (c : Call) : Option Io :=
  if s.thread t = .idle ∧ s.mu = false then
    match c with
    | .openFile f => some { s.setThread t (.shmOpen f) with mu := true }
    | .queue u => some { s.setThread t (.queued u) with mu := true }
  else none

/-- The next statement of a thread; `ok` is the result of a system call.
mirrors src/fio4emu/engines/emu_io.c:63-104,112-144 -/
def fioStep (s : Io) (t : Nat) (ok : Bool) : Option Io :=
  match s.thread t with
  | .idle => none
  | .shmOpen f => some (s.setThread t (if ok then .ftruncate f else .idle))
  | .ftruncate f => some (s.setThread t (if ok then .mmap f else .idle))
  | .mmap f =>
    if ok then some { s.setThread t .opened with eng := fun g => if g = f then true else s.eng g }
    else some (s.setThread t .idle)
  | .opened => some { s.setThread t .idle with mu := false }
  | .queued u =>
    if s.eng u.file then (shmGet s.shm).map fun m => { s.setThread t (.testing u) with shm := m }
    else none
  | .testing u =>
    if shmListEmptyX64 s.shm .free then
      some { s.setThread t (.sleeping u) with shm := shmRelease s.shm }
    else some (s.setThread t (.placing u))
  | .sleeping u => (shmGet s.shm).map fun m => { s.setThread t (.testing u) with shm := m }
  | .placing u =>
    match u.ddir with
    | .read =>
      (sendCmdToShm s.shm u.offset u.xferBuflen SHM_READ_OPS).map fun m =>
        { s.setThread t .unlocking with shm := m }
    | .write =>
      (sendCmdToShm s.shm u.offset u.xferBuflen SHM_WRITE_OPS).map fun m =>
        { s.setThread t .unlocking with shm := m }
    | .trim => some (s.setThread t .idle)
    | _ => some (s.setThread t .unlocking)
  | .unlocking => some { s.setThread t .releasing with mu := false }
  | .releasing => some { s.setThread t .idle with shm := shmRelease s.shm }

/-! ## The emulator's side -/

/-- What `fe` writes into every slot.
mirrors src/emu/fe/fe.c:33-35 -/
def feCmd : HostCmd := ⟨SHM_READ_OPS, 20, 16 * 1024⟩

/-- mirrors src/emu/fe/fe.c:25-37 -/
def feStep (s : Io) : Option Io :=
  match s.fe with
  | .idle => (shmGet s.shm).map fun m => { s with fe := .testing, shm := m }
  | .testing =>
    if shmListEmpty s.shm .free then some { s with fe := .idle, shm := shmRelease s.shm }
    else do
      let (i, m) ← shmListRemove s.shm .free
      let tCmd ← slotPtr i
      let m ← shmListAdd (setSlot m tCmd { m.slot tCmd with toHostCmd := feCmd }) i .rdy
      return { s with fe := .releasing, shm := m }
  | .releasing => some { s with fe := .idle, shm := shmRelease s.shm }

/-- A section of the FTL between `shm_get` and `shm_release`.
mirrors src/emu/fe/shmem.c:92-111,118-124,131 -/
def FtlCall.body (m : Shm) : FtlCall → Option Shm
  | .getRdyList =>
    if shmListEmpty m .rdy then some m
    else do
      let (i, m) ← shmListRemove m .rdy
      let _ ← slotPtr i
      return m
  | .addRdyList index scmd => do
    let cmd ← slotPtr index
    shmListAdd (setSlot m cmd scmd) index .rdy
  | .addFreeList index => shmListAdd m index .free

def ftlGet (s : Io) (c : FtlCall) : Option Io :=
  if s.ftl = none then (shmGet s.shm).map fun m => { s with ftl := some c, shm := m } else none

def ftlRelease (s : Io) : Option Io := do
  let c ← s.ftl
  let m ← c.body s.shm
  return { s with ftl := none, shm := shmRelease m }

/-! ## The system -/

inductive Lbl
  | call (t : Nat) (c : Call)
  | fio (t : Nat) (ok : Bool)
  | fe
  | ftlGet (c : FtlCall)
  | ftlRelease
  deriving DecidableEq, Repr

def step (s : Io) : Lbl → Option Io
  | .call t c => callStep s t c
  | .fio t ok => fioStep s t ok
  | .fe => feStep s
  | .ftlGet c => EmuIo.ftlGet s c
  | .ftlRelease => EmuIo.ftlRelease s

def io : LTS Io Lbl where
  init s := ∃ m, shmInit = some m ∧ s = .init m
  step s l s' := step s l = some s'

/-- Between `pthread_mutex_lock(&mu)` and its `unlock`. -/
def FioPc.inMu : FioPc → Bool
  | .idle | .releasing => false
  | _ => true

/-- Between `shm_get` and `shm_release`. -/
def FioPc.inShm : FioPc → Bool
  | .testing _ | .placing _ | .unlocking | .releasing => true
  | _ => false

inductive Party | fio (t : Nat) | fe | ftl
  deriving DecidableEq, Repr

def Io.inMu (s : Io) (t : Nat) : Bool := (s.thread t).inMu

def Io.inShm (s : Io) : Party → Bool
  | .fio t => (s.thread t).inShm
  | .fe => decide (s.fe ≠ .idle)
  | .ftl => s.ftl.isSome

/-! ## The sections are those of the other models -/

section
variable {m m' : Shm}

theorem shmGetRdyList_body : (shmGetRdyList m).map Prod.snd =
    (shmGet m).bind fun m => (FtlCall.getRdyList.body m).map shmRelease := by
  unfold shmGetRdyList FtlCall.body
  cases shmGet m with
  | none => rfl
  | some m =>
    by_cases he : shmListEmpty m .rdy = true
    · simp [he]
    · cases hr : shmListRemove m .rdy with
      | none => simp [he, hr]
      | some x =>
        obtain ⟨i, m'⟩ := x
        cases hp : slotPtr i <;> simp [he, hr, hp]

theorem shmAddRdyList_body (i : Nat) (c : ShmCmd) : shmAddRdyList m i c =
    (shmGet m).bind fun m => ((FtlCall.addRdyList i c).body m).map shmRelease := by
  unfold shmAddRdyList FtlCall.body
  cases shmGet m with
  | none => rfl
  | some m =>
    cases hp : slotPtr i with
    | none => simp [hp]
    | some slot =>
      simp only [hp, Option.bind_eq_bind, Option.bind_some]
      cases shmListAdd (setSlot m slot c) i .rdy <;> rfl

theorem shmAddFreeList_body (i : Nat) : shmAddFreeList m i =
    (shmGet m).bind fun m => ((FtlCall.addFreeList i).body m).map shmRelease := by
  unfold shmAddFreeList FtlCall.body
  cases shmGet m with
  | none => rfl
  | some m =>
    simp only [Option.bind_eq_bind, Option.bind_some]
    cases shmListAdd m i .free <;> rfl

/-- `send_cmd_to_shm` is the `take` and the `put` of a submitter. -/
theorem sendCmdToShm_host {s : Pipeline.Sys} {t : Nat} {offset len : UInt64} {ops : UInt32}
    (hl : s.host (.fio t) = .locked) (he : shmListEmpty s.shm .free = false)
    (hs : sendCmdToShm s.shm offset len ops = some m') :
    ∃ s1 s2, Pipeline.hostStep s (.fio t) .take = some s1 ∧
      Pipeline.hostStep s1 (.fio t)
        (.put ⟨ops, (offset / HOST_BLOCK_SIZE.toUInt64).toUInt32, len.toUInt32⟩) = some s2 ∧
      s2.shm = m' := by
  unfold sendCmdToShm at hs
  simp only [Option.bind_eq_bind, Option.bind_eq_some_iff] at hs
  obtain ⟨⟨i, m⟩, hr, slot, hp, hs⟩ := hs
  split at hs
  · let cmd : HostCmd := ⟨ops, (offset / HOST_BLOCK_SIZE.toUInt64).toUInt32, len.toUInt32⟩
    refine ⟨s.setHost (.fio t) (.taken i) m,
      { (s.setHost (.fio t) (.taken i) m).setHost (.fio t) .placed m' with
        submitted := s.submitted ++ [cmd] }, ?_, ?_, rfl⟩
    · simp only [Pipeline.hostStep, Pipeline.Host.listEmpty, Pipeline.Host.listRemove, shmListEmptyX64,
        hl, he, and_self, if_true, hr]
      rfl
    · simp only [Pipeline.hostStep, Pipeline.Sys.setHost, if_true, hp, Pipeline.Host.listAdd,
        Option.bind_eq_bind, Option.bind_some, hs]
      rfl
  · cases hs

/-! ## The lock stays as it is inside a section -/

theorem sendCmdToShm_ctrl {offset len : UInt64} {ops : UInt32}
    (hs : sendCmdToShm m offset len ops = some m') : m'.ctrl = m.ctrl := by
  unfold sendCmdToShm at hs
  simp only [Option.bind_eq_bind, Option.bind_eq_some_iff] at hs
  obtain ⟨⟨i, m1⟩, hr, slot, -, hs⟩ := hs
  split at hs
  · have h1 := shmListRemove_ctrl (show shmListRemove m .free = some (i, m1) from hr)
    have h2 := shmListAdd_ctrl (show shmListAdd _ i .rdy = some m' from hs)
    exact h2.trans h1
  · cases hs

end

end OpenSSDEmu.L4.EmuIo
