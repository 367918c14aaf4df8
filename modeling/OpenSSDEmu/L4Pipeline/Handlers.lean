import OpenSSDEmu.L2Machine.Fcl
import OpenSSDEmu.L2Machine.Shmem
import OpenSSDEmu.L2Machine.TaskQueue

/-!
# The FTL handlers

`ftl/ftl_core0.c`, the loop body of `FTL_CQ_polling` (`ftl/ftl_core1.c`) and
the entry set-up of `FTL_nvme_req_polling` (`ftl/ftl_nvme.c`), as functions
on the device state `Dev`. A `host_cmd_entry *` is the entry's index.

`FTL_core0task_polling` ignores the return code of the handlers, so they
return the new state only. `register_list` and `complete_list` are lists of
`EMU_sq` here. Left out: logging, the host DMA that `FTL_handle_datamove`
has commented out, and the result of `L2P_check_buf_hit`, which
`FTL_handle_checkcache` discards.
-/
namespace OpenSSDEmu.L4.Pipeline
open L2.Hcl L2.Fcl L2.Shmem L2.TaskQueue

/-- mirrors src/fcl/fcl.h:18-21 -/
def HCMD_SPACE : BitVec 1 := 0

/-- mirrors src/emu/be/be.h:14-21 (the list node is left out) -/
structure EmuSq where
  ch : Nat
  ce : Nat
  sqIndex : Nat
  sqEntry : HwQueueEntry
  deriving DecidableEq, Repr

/-- The entry an outstanding request belongs to. -/
def EmuSq.hcmd (sq : EmuSq) : Nat := sq.sqEntry.hcmdIndex.toNat

structure Dev where
  hcl : HcmdPool
  tq : Status → L2.TaskQueue Nat
  fcl : SqPool
  registerList : List EmuSq
  completeList : List EmuSq

/-- mirrors src/emu/emu_main.c:22-36 -/
def Dev.init : Dev :=
  { hcl := initHostCmdEntryQueue, tq := fun _ => L2.TaskQueue.init, fcl := initHwQueue,
    registerList := [], completeList := [] }

def Dev.entry (d : Dev) (i : Nat) : HostCmdEntry := d.hcl.queue i

def Dev.setEntry (d : Dev) (i : Nat) (e : HostCmdEntry) : Dev :=
  { d with hcl := L2.Hcl.setEntry d.hcl i e }

/-- `true` = `SUCCESS`.
mirrors src/ftl/ftl_taskqueue.c:277-293 -/
def sendhcmd (d : Dev) (i : Nat) (s : Status) : Bool × Dev :=
  let (ok, q) := addTail (d.tq s) i
  (ok, { d with tq := fun t => if t = s then q else d.tq t })

/-- The `while (cur_cnt < req_num)` loop; the first argument bounds the
rounds and is `req_num` at the call.
mirrors src/ftl/ftl_core0.c:41-63 -/
def checkcacheLoop (reqNum : UInt32) : Nat → UInt32 → HostCmdEntry → UInt32 × HostCmdEntry
  | 0, curCnt, e => (curCnt, e)
  | k + 1, curCnt, e =>
    if curCnt < reqNum then checkcacheLoop reqNum k (curCnt + 1) { e with curLpn := e.curLpn + 1 }
    else (curCnt, e)

/-- An op code that is neither read nor write is forwarded nowhere.
mirrors src/ftl/ftl_core0.c:24-78 -/
def handleCheckcache (d : Dev) (i : Nat) : Dev :=
  let e := d.entry i
  let (curCnt, e') := checkcacheLoop e.reqNum e.reqNum.toNat e.curCnt e
  let d := d.setEntry i { e' with curCnt := curCnt }
  match e.opCode with
  | .write => (sendhcmd d i .dataMoved).2
  | .read => (sendhcmd d i .toSq).2
  | _ => d

/-- The fixed address used until address translation is in place. The
remaining bits of the union are not initialised in the source and nobody
reads them.
mirrors src/ftl/ftl_core0.c:108,115-121 -/
def fakePpa : PhyPageAddr :=
  let a := setSlcPage (setSlcBlock (setSlcPlane (setSlcLun 0#64 0) 0) 0) 20
  { ch := 1, ce := 0, nandFlashAddr := a }

/-- `FCL_send_SQ_entry` in the emulator build is `BE_send_sq`, which copies
the entry and appends it to `register_list`; it always succeeds.
mirrors src/fcl/fcl.c:234-239 and src/emu/be/be.c:99-117 -/
def sendSQEntry (d : Dev) (index ch ce : Nat) : Dev :=
  { d with registerList := d.registerList ++ [⟨ch, ce, index, d.fcl.entry ch index⟩] }

/-- The `while (send_sq_cnt < buf_cnt)` loop; `none` = left through the
"cannot get sq" branch, which requeues the command.
mirrors src/ftl/ftl_core0.c:106-151 -/
def tosqLoop (memBase : BitVec 32) (i : Nat) (opCode : HcmdOpcode) (bufCnt : UInt32) :
    Nat → UInt32 → Dev → Option UInt32 × Dev
  | 0, sendSqCnt, d => (some sendSqCnt, d)
  | k + 1, sendSqCnt, d =>
    if sendSqCnt < bufCnt then
      let ppa := fakePpa
      match getFreeSQEntry d.fcl ppa.ch.toNat with
      | (none, _) => (none, (sendhcmd d i .toSq).2)
      | (some tmpSqIndex, f) =>
        let d := { d with fcl := setSQEntry memBase f i tmpSqIndex 0 opCode ppa HCMD_SPACE }
        let d := sendSQEntry d tmpSqIndex ppa.ch.toNat ppa.ce.toNat
        tosqLoop memBase i opCode bufCnt k (sendSqCnt + 1) d
    else (some sendSqCnt, d)

/-- mirrors src/ftl/ftl_core0.c:88-160 -/
def handleTosq (memBase : BitVec 32) (d : Dev) (i : Nat) : Dev :=
  let e := { d.entry i with bufCnt := 1 }
  let d := d.setEntry i e
  match tosqLoop memBase i e.opCode e.bufCnt e.bufCnt.toNat 0 d with
  | (none, d) => d
  | (some sendSqCnt, d) => d.setEntry i { d.entry i with sendSqCnt := sendSqCnt }

/-- mirrors src/ftl/ftl_core0.c:186-196 and 202-215 -/
def dmaLoop (bufCnt : UInt32) : Nat → UInt32 → UInt32
  | 0, nvmeDmaCpl => nvmeDmaCpl
  | k + 1, nvmeDmaCpl =>
    if nvmeDmaCpl < bufCnt then dmaLoop bufCnt k (nvmeDmaCpl + 1) else nvmeDmaCpl

/-- mirrors src/ftl/ftl_core0.c:170-224 -/
def handleDatamove (d : Dev) (i : Nat) : Dev :=
  let e := { d.entry i with bufCnt := 1 }
  let d := d.setEntry i { e with nvmeDmaCpl := dmaLoop e.bufCnt e.bufCnt.toNat e.nvmeDmaCpl }
  if e.opCode = .read then (sendhcmd d i .finish).2 else (sendhcmd d i .toSq).2

/-- mirrors src/ftl/ftl_core0.c:234-255 -/
def handleFromcq (d : Dev) (i : Nat) : Dev :=
  if (d.entry i).opCode = .write then
    (sendhcmd (d.setEntry i { d.entry i with status := .finish }) i .finish).2
  else (sendhcmd (d.setEntry i { d.entry i with status := .dataMoved }) i .dataMoved).2

/-- mirrors src/ftl/ftl_core0.c:265-280 -/
def handleFinish (d : Dev) (i : Nat) : Dev := { d with hcl := reclaimHcmdEntry d.hcl i }

/-- The function table of the queues; `HCE_WAIT_CQ` has none.
mirrors src/ftl/ftl_taskqueue.c:48-53 -/
def func (memBase : BitVec 32) : Status → Dev → Nat → Dev
  | .checkCache => handleCheckcache
  | .toSq => handleTosq memBase
  | .dataMoved => handleDatamove
  | .fromCq => handleFromcq
  | .finish => handleFinish
  | .waitCq => fun d _ => d

/-- One round of the `FTL_CQ_polling` loop on the head of `complete_list`.
mirrors src/ftl/ftl_core1.c:81-92 -/
def cqRound (d : Dev) (sq : EmuSq) (rest : List EmuSq) : Dev :=
  let d := { d with fcl := freeSQEntry d.fcl sq.ch sq.sqIndex }
  let i := sq.hcmd
  let d := d.setEntry i { d.entry i with cplCnt := (d.entry i).cplCnt + 1 }
  let d := if (d.entry i).cplCnt = (d.entry i).reqNum then (sendhcmd d i .fromCq).2 else d
  { d with completeList := rest }

/-- How an accepted command is written into its entry. An op that is neither
read nor write is reported and leaves `op_code` as the recycled entry has it.
mirrors src/ftl/ftl_nvme.c:69-106 -/
def fillEntry (e : HostCmdEntry) (scmd : HostCmd) (index : Nat) (emuId : UInt32) : HostCmdEntry :=
  { e with
    opCode := if scmd.ops = SHM_WRITE_OPS then .write
              else if scmd.ops = SHM_READ_OPS then .read else e.opCode
    nvmeStartLba := scmd.lpn
    nvmeReqNum := scmd.size / HOST_BLOCK_SIZE
    startLpa := scmd.lpn / 4
    reqNum := scmd.size / HOST_BLOCK_SIZE / 4
    curLpn := scmd.lpn / 4
    nvmeDmaCpl := 0
    modReqNum := 0
    modStartLA := 0
    curCnt := 0
    cplCnt := 0
    sendSqCnt := 0
    bufCnt := 0
    startUnalignSqindex := 0
    endUnalignSqindex := 0
    nvmeCmdSlot := UInt32.ofNat index
    emuId := emuId }

end OpenSSDEmu.L4.Pipeline
