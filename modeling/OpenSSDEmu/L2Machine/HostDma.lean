import OpenSSDEmu.Core.Fair
import Mathlib.Data.List.Basic

/-!
# The host DMA of the NVMe controller

`nvme/host_lld.c`, which is left out of a build with `EMU`: the firmware hands
transfers to the DMA engine through a command register and learns from one
register of four 8-bit counters how many of them are done. It keeps the same
four counters for what it has handed over (`fifoTail`), the counters as it last
read them (`fifoHead`), and for the `auto` transfers how often the counter has
wrapped (`autoDma*OverFlowCnt`).

The engine is not part of the source: it is a parameter, and `Device.Lawful` is
what the firmware relies on. A command is taken while fewer than 255 of its kind
are under way, of a further one nothing is said; a kind is counted modulo 256;
and no transfer gets done that was not under way.

* `Ok`: the counters of the firmware, as unbounded numbers. No more than 255
  `auto` transfers of one direction are ever under way, so equal counters mean
  that all are done.
* `partial_done_exact`: the test for one transfer, from the values noted when
  it was handed over, whatever has wrapped since.
* `direct_wait_exact`: the `direct` calls do not look for room, and the wait for
  them relies on the calls in between.
* `calls_return`: if the engine goes on, every call returns, with one transfer
  handed over or with all of them done.
-/
namespace OpenSSDEmu.L2.HostDma
open LTS

/-! ## The registers -/

/-- mirrors src/nvme/host_lld.h:82-83 -/
inductive Dir | rx | tx
  deriving DecidableEq, Repr

/-- The four kinds of transfer, `HOST_DMA_DIRECT_TYPE` and `HOST_DMA_AUTO_TYPE`.
mirrors src/nvme/host_lld.h:79-80 -/
inductive Chan
  | direct (d : Dir)
  | auto (d : Dir)
  deriving DecidableEq, Repr

/-- mirrors src/nvme/host_lld.h:163-175 -/
structure HostDmaFifoCntReg where
  directDmaRx : UInt8
  directDmaTx : UInt8
  autoDmaRx : UInt8
  autoDmaTx : UInt8
  deriving DecidableEq, Repr

namespace HostDmaFifoCntReg

def get (r : HostDmaFifoCntReg) : Chan → UInt8
  | .direct .rx => r.directDmaRx
  | .direct .tx => r.directDmaTx
  | .auto .rx => r.autoDmaRx
  | .auto .tx => r.autoDmaTx

/-- `++` on one of the four. -/
def inc (r : HostDmaFifoCntReg) : Chan → HostDmaFifoCntReg
  | .direct .rx => { r with directDmaRx := r.directDmaRx + 1 }
  | .direct .tx => { r with directDmaTx := r.directDmaTx + 1 }
  | .auto .rx => { r with autoDmaRx := r.autoDmaRx + 1 }
  | .auto .tx => { r with autoDmaTx := r.autoDmaTx + 1 }

theorem get_inc (r : HostDmaFifoCntReg) (c c' : Chan) :
    (r.inc c).get c' = if c' = c then r.get c + 1 else r.get c' := by
  rcases c with (_ | _) | (_ | _) <;> rcases c' with (_ | _) | (_ | _) <;> rfl

end HostDmaFifoCntReg

/-- mirrors src/nvme/host_lld.h:332-340 -/
structure HostDmaStatus where
  fifoHead : HostDmaFifoCntReg
  fifoTail : HostDmaFifoCntReg
  directDmaTxCnt : UInt32
  directDmaRxCnt : UInt32
  autoDmaTxCnt : UInt32
  autoDmaRxCnt : UInt32
  deriving DecidableEq, Repr

/-- `directDmaTxCnt++` and the like. -/
def HostDmaStatus.incCnt (s : HostDmaStatus) : Chan → HostDmaStatus
  | .direct .rx => { s with directDmaRxCnt := s.directDmaRxCnt + 1 }
  | .direct .tx => { s with directDmaTxCnt := s.directDmaTxCnt + 1 }
  | .auto .rx => { s with autoDmaRxCnt := s.autoDmaRxCnt + 1 }
  | .auto .tx => { s with autoDmaTxCnt := s.autoDmaTxCnt + 1 }

@[simp] theorem HostDmaStatus.incCnt_fifoHead (s : HostDmaStatus) (c : Chan) :
    (s.incCnt c).fifoHead = s.fifoHead := by
  rcases c with (_ | _) | (_ | _) <;> rfl

@[simp] theorem HostDmaStatus.incCnt_fifoTail (s : HostDmaStatus) (c : Chan) :
    (s.incCnt c).fifoTail = s.fifoTail := by
  rcases c with (_ | _) | (_ | _) <;> rfl

/-- mirrors src/nvme/host_lld.h:342-346 -/
structure HostDmaAssistStatus where
  autoDmaTxOverFlowCnt : UInt32
  autoDmaRxOverFlowCnt : UInt32
  deriving DecidableEq, Repr

namespace HostDmaAssistStatus

def get (a : HostDmaAssistStatus) : Dir → UInt32
  | .tx => a.autoDmaTxOverFlowCnt
  | .rx => a.autoDmaRxOverFlowCnt

def inc (a : HostDmaAssistStatus) : Dir → HostDmaAssistStatus
  | .tx => { a with autoDmaTxOverFlowCnt := a.autoDmaTxOverFlowCnt + 1 }
  | .rx => { a with autoDmaRxOverFlowCnt := a.autoDmaRxOverFlowCnt + 1 }

theorem get_inc (a : HostDmaAssistStatus) (d d' : Dir) :
    (a.inc d).get d' = if d' = d then a.get d + 1 else a.get d' := by
  cases d <;> cases d' <;> rfl

end HostDmaAssistStatus

def Chan.dmaType : Chan → BitVec 1
  | .direct _ => 1
  | .auto _ => 0

def Chan.dmaDirection : Chan → BitVec 1
  | .direct .tx | .auto .tx => 1
  | .direct .rx | .auto .rx => 0

/-- The last word of a command; bit 13 is reserved and cleared.
mirrors src/nvme/host_lld.h:311-319 -/
def cmdWord (c : Chan) (dmaLen : BitVec 13) (cmd4KBOffset : BitVec 9) (cmdSlotTag : BitVec 7) : BitVec 32 :=
  c.dmaType ++ c.dmaDirection ++ cmdSlotTag ++ cmd4KBOffset ++ (0 : BitVec 1) ++ dmaLen

/-- What is written to the command register. An `auto` command leaves the two
words of the PCIe address as they are. -/
structure Cmd where
  devAddr : UInt32
  pcieAddr : Option (UInt32 × UInt32)
  word : BitVec 32
  deriving DecidableEq, Repr

/-- The kind of a command, from its type and direction bits. -/
def Cmd.chan (cmd : Cmd) : Chan :=
  let d : Dir := if cmd.word.extractLsb' 30 1 = 1 then .tx else .rx
  if cmd.word.extractLsb' 31 1 = 1 then .direct d else .auto d

/-- mirrors src/nvme/host_lld.c:356-363 -/
def directCmd (d : Dir) (devAddr pcieAddrH pcieAddrL len : UInt32) : Cmd :=
  ⟨devAddr, some (pcieAddrH, pcieAddrL), cmdWord (.direct d) (.ofNat 13 len.toNat) 0 0⟩

/-- mirrors src/nvme/host_lld.c:411-422 -/
def autoCmd (d : Dir) (cmdSlotTag cmd4KBOffset devAddr : UInt32) : Cmd :=
  ⟨devAddr, none, cmdWord (.auto d) 0 (.ofNat 9 cmd4KBOffset.toNat) (.ofNat 7 cmdSlotTag.toNat)⟩

/-- The fields of a command, as they are taken out of its last word. -/
theorem cmdWord_fields (c : Chan) (len : BitVec 13) (off : BitVec 9) (tag : BitVec 7) :
    (cmdWord c len off tag).extractLsb' 31 1 = c.dmaType ∧
      (cmdWord c len off tag).extractLsb' 30 1 = c.dmaDirection ∧
      (cmdWord c len off tag).extractLsb' 23 7 = tag ∧ (cmdWord c len off tag).extractLsb' 14 9 = off ∧
      (cmdWord c len off tag).extractLsb' 0 13 = len := by
  unfold cmdWord
  simp (disch := decide) only [BitVec.extractLsb'_append_eq_of_le, BitVec.extractLsb'_append_eq_of_add_le,
    Nat.reduceSub, BitVec.extractLsb'_eq_self, and_self]

theorem chan_of_word {cmd : Cmd} {c : Chan} {len : BitVec 13} {off : BitVec 9} {tag : BitVec 7}
    (h : cmd.word = cmdWord c len off tag) : cmd.chan = c := by
  obtain ⟨ht, hd, -⟩ := cmdWord_fields c len off tag
  unfold Cmd.chan
  rw [h, ht, hd]
  rcases c with (_ | _) | (_ | _) <;> rfl

/-! ## The engine -/

/-- The DMA engine. `act` is what it does on its own; `pending` and `done`, the
transfers of a kind it has taken and not finished, and those it has finished, are
not visible to the firmware but through `fifoCnt`. -/
structure Device (E A : Type) where
  init : E
  /-- a write of the command register -/
  write : E → Cmd → E
  /-- a read of the counter register -/
  fifoCnt : E → HostDmaFifoCntReg
  act : A → E → Option E
  pending : E → Chan → Nat
  done : E → Chan → Nat

/-- What the firmware relies on. -/
structure Device.Lawful {E A : Type} (D : Device E A) : Prop where
  init : ∀ c, D.pending D.init c = 0 ∧ D.done D.init c = 0
  fifoCnt : ∀ e c, (D.fifoCnt e).get c = .ofNat (D.done e c)
  write_done : ∀ e cmd c, D.done (D.write e cmd) c = D.done e c
  write_other : ∀ e cmd c, c ≠ cmd.chan → D.pending (D.write e cmd) c = D.pending e c
  write_taken : ∀ e cmd, D.pending e cmd.chan < 255 → D.pending (D.write e cmd) cmd.chan = D.pending e cmd.chan + 1
  act : ∀ a e e', D.act a e = some e' → ∀ c, D.done e c ≤ D.done e' c ∧
    D.pending e' c + D.done e' c = D.pending e c + D.done e c

/-! ## The calls -/

/-- Where the firmware is: between two calls, or in the loop of one. -/
inductive Pc
  | idle
  | setAuto (d : Dir) (cmd : Cmd)
  | checkDone (c : Chan)
  deriving DecidableEq, Repr

/-- `g_hostDmaStatus`, `g_hostDmaAssistStatus`, the engine and the firmware. -/
structure State (E : Type) where
  status : HostDmaStatus
  assist : HostDmaAssistStatus
  engine : E
  pc : Pc
  /-- ghost: the commands written, by kind -/
  given : Chan → List Cmd

section
variable {E A : Type} (D : Device E A)

/-- Static variables, of which `FTL_nvme_init` clears the `auto` ones again.
mirrors src/ftl/ftl_nvme.c:27-33 -/
def init : State E where
  status := ⟨⟨0, 0, 0, 0⟩, ⟨0, 0, 0, 0⟩, 0, 0, 0, 0⟩
  assist := ⟨0, 0⟩
  engine := D.init
  pc := .idle
  given := fun _ => []

/-- `g_hostDmaStatus.fifoHead.dword = IO_READ32(HOST_DMA_FIFO_CNT_REG_ADDR)` -/
def readFifoCnt (s : State E) : State E :=
  { s with status := { s.status with fifoHead := D.fifoCnt s.engine } }

/-- The writes of the command register. -/
def writeCmd (cmd : Cmd) (s : State E) : State E :=
  { s with engine := D.write s.engine cmd,
           given := fun c => if c = cmd.chan then s.given c ++ [cmd] else s.given c }

/-- `none` when the assertion fails. -/
def setDirectDma (d : Dir) (devAddr pcieAddrH pcieAddrL len : UInt32) (s : State E) : Option (State E) :=
  if len ≤ 0x1000 ∧ pcieAddrH < 0x10 ∧ pcieAddrL &&& 0xF = 0 then
    let s := writeCmd D (directCmd d devAddr pcieAddrH pcieAddrL len) s
    let status := { s.status with fifoTail := s.status.fifoTail.inc (.direct d) }
    some { s with status := status.incCnt (.direct d) }
  else none

/-- mirrors src/nvme/host_lld.c:350-373 -/
def setDirectTxDma := setDirectDma D .tx

/-- mirrors src/nvme/host_lld.c:375-398 -/
def setDirectRxDma := setDirectDma D .rx

/-- Up to the first test of the loop. -/
def setAutoDma (d : Dir) (cmdSlotTag cmd4KBOffset devAddr : UInt32) (s : State E) : Option (State E) :=
  if cmd4KBOffset < 256 then
    some { readFifoCnt D s with pc := .setAuto d (autoCmd d cmdSlotTag cmd4KBOffset devAddr) }
  else none

/-- One test of the loop, which reads the counters once more or ends the call.
The test is in `int`. -/
def setAutoDmaLoop (d : Dir) (cmd : Cmd) (s : State E) : State E :=
  if ((s.status.fifoTail.get (.auto d)).toNat + 1) % 256 = (s.status.fifoHead.get (.auto d)).toNat then
    readFifoCnt D s
  else
    let s := writeCmd D cmd s
    let tempTail := s.status.fifoTail.get (.auto d)
    let fifoTail := s.status.fifoTail.inc (.auto d)
    let assist := if fifoTail.get (.auto d) < tempTail then s.assist.inc d else s.assist
    { s with status := { s.status with fifoTail }.incCnt (.auto d), assist, pc := .idle }

/-- mirrors src/nvme/host_lld.c:400-429 -/
def setAutoTxDma := setAutoDma D .tx

/-- mirrors src/nvme/host_lld.c:431-461 -/
def setAutoRxDma := setAutoDma D .rx

/-- One test of the loop, which is made before any read.
mirrors src/nvme/host_lld.c:463-493 -/
def checkDmaDoneLoop (c : Chan) (s : State E) : State E :=
  if s.status.fifoHead.get c ≠ s.status.fifoTail.get c then readFifoCnt D s else { s with pc := .idle }

/-- The tests of `check_auto_*_dma_partial_done`. -/
def partialDone (head tail tailIndex overFlowCnt tailAssistIndex : UInt32) : UInt32 :=
  if head = tail then 1
  else if head < tailIndex then
    if tail < tailIndex then
      if tail > head then 1
      else if overFlowCnt ≠ tailAssistIndex + 1 then 1
      else 0
    else if overFlowCnt ≠ tailAssistIndex then 1
    else 0
  else if head = tailIndex then 1
  else if tail < tailIndex then 1
  else if tail > head then 1
  else if overFlowCnt ≠ tailAssistIndex then 1
  else 0

def checkAutoDmaPartialDone (d : Dir) (tailIndex tailAssistIndex : UInt32) (s : State E) : UInt32 × State E :=
  let s := readFifoCnt D s
  (partialDone (s.status.fifoHead.get (.auto d)).toUInt32 (s.status.fifoTail.get (.auto d)).toUInt32 tailIndex
    (s.assist.get d) tailAssistIndex, s)

/-- mirrors src/nvme/host_lld.c:538-579 -/
def checkAutoRxDmaPartialDone := checkAutoDmaPartialDone D .rx

end

/-! ## The firmware and the engine -/

inductive Lbl (A : Type)
  | setDirect (d : Dir) (devAddr pcieAddrH pcieAddrL len : UInt32)
  | setAuto (d : Dir) (cmdSlotTag cmd4KBOffset devAddr : UInt32)
  | checkDone (c : Chan)
  | partialDone (d : Dir) (tailIndex tailAssistIndex : UInt32)
  | loop
  | act (a : A)
  deriving DecidableEq, Repr

section
variable {E A : Type} (D : Device E A)

/-- The firmware makes any call with any arguments. A loop reads the register
once in each turn, so a turn is one step. -/
def step (s : State E) : Lbl A → Option (State E)
  | .setDirect d devAddr pcieAddrH pcieAddrL len =>
    if s.pc = .idle then setDirectDma D d devAddr pcieAddrH pcieAddrL len s else none
  | .setAuto d cmdSlotTag cmd4KBOffset devAddr =>
    if s.pc = .idle then setAutoDma D d cmdSlotTag cmd4KBOffset devAddr s else none
  | .checkDone c => if s.pc = .idle then some { s with pc := .checkDone c } else none
  | .partialDone d tailIndex tailAssistIndex =>
    if s.pc = .idle then some (checkAutoDmaPartialDone D d tailIndex tailAssistIndex s).2 else none
  | .loop =>
    match s.pc with
    | .idle => none
    | .setAuto d cmd => some (setAutoDmaLoop D d cmd s)
    | .checkDone c => some (checkDmaDoneLoop D c s)
  | .act a => (D.act a s.engine).map fun e => { s with engine := e }

def sys : LTS (State E) (Lbl A) := .ofFn (init D) (step D)

/-- The state after `cmd` was handed over. -/
def hand (s : State E) (c : Chan) (cmd : Cmd) : State E where
  status := { s.status with fifoTail := s.status.fifoTail.inc c }.incCnt c
  assist := match c with
    | .auto d => if (s.status.fifoTail.inc c).get c < s.status.fifoTail.get c then s.assist.inc d else s.assist
    | .direct _ => s.assist
  engine := D.write s.engine cmd
  pc := .idle
  given := fun c' => if c' = cmd.chan then s.given c' ++ [cmd] else s.given c'

/-- What a step changes. -/
inductive Change (s : State E) : Lbl A → State E → Prop
  | direct (d : Dir) (devAddr h l len : UInt32) (hp : s.pc = .idle) :
    Change s (.setDirect d devAddr h l len) (hand D s (.direct d) (directCmd d devAddr h l len))
  | auto (d : Dir) (cmd : Cmd) (hp : s.pc = .setAuto d cmd)
    (hroom : ((s.status.fifoTail.get (.auto d)).toNat + 1) % 256 ≠ (s.status.fifoHead.get (.auto d)).toNat) :
    Change s .loop (hand D s (.auto d) cmd)
  | full (d : Dir) (cmd : Cmd) (hp : s.pc = .setAuto d cmd)
    (hfull : ((s.status.fifoTail.get (.auto d)).toNat + 1) % 256 = (s.status.fifoHead.get (.auto d)).toNat) :
    Change s .loop (readFifoCnt D s)
  | call (d : Dir) (tag off devAddr : UInt32) (hp : s.pc = .idle) (hoff : off < 256) :
    Change s (.setAuto d tag off devAddr) { readFifoCnt D s with pc := .setAuto d (autoCmd d tag off devAddr) }
  | partialDone (d : Dir) (i a : UInt32) (hp : s.pc = .idle) : Change s (.partialDone d i a) (readFifoCnt D s)
  | wait (c : Chan) (hp : s.pc = .idle) : Change s (.checkDone c) { s with pc := .checkDone c }
  | again (c : Chan) (hp : s.pc = .checkDone c) (hne : s.status.fifoHead.get c ≠ s.status.fifoTail.get c) :
    Change s .loop (readFifoCnt D s)
  | ends (c : Chan) (hp : s.pc = .checkDone c) (he : s.status.fifoHead.get c = s.status.fifoTail.get c) :
    Change s .loop { s with pc := .idle }
  | act (a : A) (e : E) (h : D.act a s.engine = some e) : Change s (.act a) { s with engine := e }

end

section
variable {E A : Type} {D : Device E A}

theorem step_change {s s' : State E} {l : Lbl A} (hs : step D s l = some s') : Change D s l s' := by
  cases l with
  | setDirect d devAddr h l len =>
    simp only [step, setDirectDma] at hs
    split at hs
    · rename_i hp
      split at hs
      · cases hs
        have e := Change.direct (D := D) d devAddr h l len hp
        unfold hand at e
        rw [← hp] at e
        exact e
      · cases hs
    · cases hs
  | setAuto d tag off devAddr =>
    simp only [step, setAutoDma] at hs
    split at hs
    · rename_i hp
      split at hs
      · rename_i hoff
        cases hs
        exact .call d tag off devAddr hp hoff
      · cases hs
    · cases hs
  | checkDone c =>
    simp only [step] at hs
    split at hs
    · rename_i hp
      cases hs
      exact .wait c hp
    · cases hs
  | partialDone d i a =>
    simp only [step, checkAutoDmaPartialDone] at hs
    split at hs
    · rename_i hp
      cases hs
      exact .partialDone d i a hp
    · cases hs
  | loop =>
    simp only [step] at hs
    split at hs
    · cases hs
    · rename_i d cmd hp
      cases hs
      unfold setAutoDmaLoop
      split
      · rename_i hfull
        exact .full d cmd hp hfull
      · rename_i hroom
        exact .auto d cmd hp hroom
    · rename_i c hp
      cases hs
      unfold checkDmaDoneLoop
      split
      · rename_i hne
        exact .again c hp hne
      · rename_i he
        exact .ends c hp (Decidable.not_not.mp he)
  | act a =>
    obtain ⟨e, he, rfl⟩ := Option.map_eq_some_iff.mp hs
    exact .act a e he

/-! ## The counters as numbers -/

/-- Every command of the kind was taken. -/
def InStep (D : Device E A) (s : State E) (c : Chan) : Prop :=
  D.pending s.engine c + D.done s.engine c = (s.given c).length

/-- The counters of the firmware. `read` is how many transfers the engine had
done when the register was last read. -/
structure Ok (D : Device E A) (read : Chan → Nat) (s : State E) : Prop where
  head : ∀ c, s.status.fifoHead.get c = .ofNat (read c)
  tail : ∀ c, s.status.fifoTail.get c = .ofNat (s.given c).length
  overFlow : ∀ d, s.assist.get d = .ofNat ((s.given (.auto d)).length / 256)
  seen : ∀ c, read c ≤ D.done s.engine c
  taken : ∀ d, InStep D s (.auto d)
  room : ∀ d, (s.given (.auto d)).length < read (.auto d) + 256
  sets : ∀ d cmd, s.pc = .setAuto d cmd → cmd.chan = .auto d

variable {read : Chan → Nat} {s s' : State E} {l : Lbl A} {c : Chan} {d : Dir} {cmd : Cmd}

/-- After a read nothing is left of the earlier one. -/
theorem Ok.fresh (hD : D.Lawful) (h : Ok D read s) (hf : s.status.fifoHead = D.fifoCnt s.engine) :
    Ok D (D.done s.engine) s where
  head c := by rw [hf, hD.fifoCnt]
  tail := h.tail
  overFlow := h.overFlow
  seen _ := Nat.le_refl _
  taken := h.taken
  room d := by
    have := h.room d
    have := h.seen (.auto d)
    omega
  sets := h.sets

/-- The loop of `set_auto_*_dma` ends with room for one more. -/
theorem Ok.free (h : Ok D read s)
    (hroom : ((s.status.fifoTail.get (.auto d)).toNat + 1) % 256 ≠ (s.status.fifoHead.get (.auto d)).toNat) :
    (s.given (.auto d)).length + 1 < read (.auto d) + 256 := by
  rw [h.head, h.tail, UInt8.toNat_ofNat', UInt8.toNat_ofNat'] at hroom
  have := h.room d
  omega

/-- And the engine then has room, too. -/
theorem Ok.pending_lt (h : Ok D read s) (hroom : (s.given (.auto d)).length + 1 < read (.auto d) + 256) :
    D.pending s.engine (.auto d) < 255 := by
  have := h.seen (.auto d)
  have : _ = _ := h.taken d
  omega

theorem length_hand (hc : cmd.chan = c) (c' : Chan) :
    ((hand D s c cmd).given c').length = (s.given c').length + if c' = c then 1 else 0 := by
  unfold hand
  rw [hc]
  dsimp only
  split <;> simp

theorem hand_tail (ht : ∀ c, s.status.fifoTail.get c = .ofNat (s.given c).length) (hc : cmd.chan = c) (c' : Chan) :
    (hand D s c cmd).status.fifoTail.get c' = .ofNat ((hand D s c cmd).given c').length := by
  rw [length_hand hc]
  unfold hand
  rw [HostDmaStatus.incCnt_fifoTail, HostDmaFifoCntReg.get_inc]
  split
  · rename_i e
    rw [ht, e, UInt8.ofNat_add]
    rfl
  · exact ht c'

/-- `tempTail > fifoTail` after the increment: the counter has wrapped. -/
theorem wraps_iff (n : Nat) : UInt8.ofNat n + 1 < UInt8.ofNat n ↔ n % 256 = 255 := by
  rw [UInt8.lt_iff_toNat_lt, UInt8.toNat_add, UInt8.toNat_ofNat', UInt8.toNat_one]
  omega

theorem hand_overFlow (h : Ok D read s) :
    (hand D s c cmd).assist.get d =
      s.assist.get d + if .auto d = c then if (s.given (.auto d)).length % 256 = 255 then 1 else 0 else 0 := by
  unfold hand
  cases c with
  | direct d' => rw [if_neg Chan.noConfusion, UInt32.add_zero]
  | auto d' =>
    dsimp only
    rw [HostDmaFifoCntReg.get_inc, if_pos rfl, h.tail]
    simp only [wraps_iff, Chan.auto.injEq]
    by_cases e : d = d'
    · subst e
      rw [if_pos rfl]
      split
      · rw [HostDmaAssistStatus.get_inc, if_pos rfl]
      · rw [UInt32.add_zero]
    · rw [if_neg e, UInt32.add_zero]
      split
      · rw [HostDmaAssistStatus.get_inc, if_neg e]
      · rfl

/-- A write for which there is room is taken, and no other kind is touched. -/
theorem InStep.hand (hD : D.Lawful) (hc : cmd.chan = c) {c' : Chan} (h : InStep D s c')
    (hroom : c' = c → D.pending s.engine c < 255) : InStep D (hand D s c cmd) c' := by
  have hdone : D.done (D.write s.engine cmd) c' = D.done s.engine c' := hD.write_done s.engine cmd c'
  have hlen := length_hand (D := D) (s := s) hc c'
  unfold InStep at *
  rw [hlen]
  change D.pending (D.write s.engine cmd) c' + D.done (D.write s.engine cmd) c' = _
  rw [hdone]
  by_cases e : c' = c
  · subst e
    have := hD.write_taken s.engine cmd (hc ▸ hroom rfl)
    rw [hc] at this
    rw [if_pos rfl]
    omega
  · rw [if_neg e, hD.write_other s.engine cmd c' (hc ▸ e)]
    exact h

theorem Ok.put (hD : D.Lawful) (h : Ok D read s) (hc : cmd.chan = c)
    (hroom : ∀ d, c = .auto d → (s.given (.auto d)).length + 1 < read (.auto d) + 256) :
    Ok D read (hand D s c cmd) where
  head c' := by
    unfold hand
    rw [HostDmaStatus.incCnt_fifoHead]
    exact h.head c'
  tail := hand_tail h.tail hc
  overFlow d := by
    rw [L2.HostDma.hand_overFlow h, h.overFlow, length_hand hc]
    generalize (s.given (.auto d)).length = n
    split
    · split
      · rw [show (n + 1) / 256 = n / 256 + 1 by omega, UInt32.ofNat_add]
        rfl
      · rw [show (n + 1) / 256 = n / 256 by omega, UInt32.add_zero]
    · rw [UInt32.add_zero, Nat.add_zero]
  seen c' := by
    have hdone : D.done (D.write s.engine cmd) c' = D.done s.engine c' := hD.write_done s.engine cmd c'
    exact hdone ▸ h.seen c'
  taken d := (h.taken d).hand hD hc fun e => e ▸ h.pending_lt (hroom d e.symm)
  room d := by
    have := h.room d
    have := hroom d
    rw [length_hand hc]
    split
    · rename_i e
      exact hroom d e.symm
    · exact h.room d
  sets _ _ := nofun

/-- A read of the counters, at any place of the firmware. -/
theorem Ok.reads (hD : D.Lawful) (h : Ok D read s) {pc : Pc}
    (hpc : ∀ d cmd, pc = .setAuto d cmd → cmd.chan = .auto d) :
    Ok D (D.done s.engine) { readFifoCnt D s with pc } where
  head c := hD.fifoCnt s.engine c
  tail := h.tail
  overFlow := h.overFlow
  seen _ := Nat.le_refl _
  taken := h.taken
  room d := by
    have := h.room d
    have := h.seen (.auto d)
    dsimp only [readFifoCnt]
    omega
  sets := hpc

theorem Ok.act (hD : D.Lawful) (h : Ok D read s) {a : A} {e : E} (he : D.act a s.engine = some e) :
    Ok D read { s with engine := e } where
  head := h.head
  tail := h.tail
  overFlow := h.overFlow
  seen c := Nat.le_trans (h.seen c) (hD.act a _ e he c).1
  taken d := (hD.act a _ e he (.auto d)).2.trans (h.taken d)
  room := h.room
  sets := h.sets

/-- A step keeps the counters in order, and what was read is never taken back. -/
theorem Ok.step (hD : D.Lawful) (h : Ok D read s) (hs : step D s l = some s') :
    ∃ read', Ok D read' s' ∧ ∀ c, read c ≤ read' c := by
  cases step_change hs with
  | direct d devAddr hi lo len hp =>
    exact ⟨read, h.put hD (chan_of_word rfl) (fun _ => Chan.noConfusion), fun _ => Nat.le_refl _⟩
  | auto d cmd hp hroom =>
    refine ⟨read, h.put hD (h.sets d cmd hp) (fun d' e => ?_), fun _ => Nat.le_refl _⟩
    cases e
    exact h.free hroom
  | full d cmd hp | again c hp => exact ⟨_, h.reads hD h.sets, h.seen⟩
  | call d tag off devAddr hp hoff =>
    refine ⟨_, h.reads hD fun d' cmd e => ?_, h.seen⟩
    cases e
    exact chan_of_word rfl
  | partialDone d i a hp => exact ⟨_, h.reads hD h.sets, h.seen⟩
  | wait c hp => exact ⟨read, { h with sets := fun _ _ => Pc.noConfusion }, fun _ => Nat.le_refl _⟩
  | ends c hp => exact ⟨read, { h with sets := fun _ _ => Pc.noConfusion }, fun _ => Nat.le_refl _⟩
  | act a e he => exact ⟨read, h.act hD he, fun _ => Nat.le_refl _⟩

/-- What was handed over and what is done only grows. -/
theorem given_grows (hD : D.Lawful) (hs : step D s l = some s') (c : Chan) :
    s.given c <+: s'.given c ∧ D.done s.engine c ≤ D.done s'.engine c := by
  have hput : ∀ c' cmd, s.given c <+: (hand D s c' cmd).given c ∧
      D.done s.engine c ≤ D.done (hand D s c' cmd).engine c := fun c' cmd => by
    refine ⟨?_, Nat.le_of_eq (hD.write_done s.engine cmd c).symm⟩
    unfold hand
    dsimp only
    split
    · exact List.prefix_append _ _
    · exact List.prefix_rfl
  cases step_change hs with
  | direct | auto => exact hput _ _
  | full | again | call | partialDone | wait | ends => exact ⟨List.prefix_rfl, Nat.le_refl _⟩
  | act a e he => exact ⟨List.prefix_rfl, (hD.act a _ e he c).1⟩

/-- The calls of a stretch of a run. -/
theorem Ok.exec (hD : D.Lawful) {ls : List (Lbl A)} (h : Ok D read s)
    (hs : LTS.exec (L2.HostDma.step D) s ls = some s') :
    ∃ read', Ok D read' s' ∧ (∀ c, read c ≤ read' c) ∧
      ∀ c, s.given c <+: s'.given c ∧ D.done s.engine c ≤ D.done s'.engine c := by
  induction ls generalizing s read with
  | nil =>
    cases hs
    exact ⟨read, h, fun _ => Nat.le_refl _, fun _ => ⟨List.prefix_rfl, Nat.le_refl _⟩⟩
  | cons l ls ih =>
    simp only [LTS.exec, Option.bind_eq_some_iff] at hs
    obtain ⟨t, ht, hs⟩ := hs
    obtain ⟨read₁, h₁, hle₁⟩ := h.step hD ht
    obtain ⟨read₂, h₂, hle₂, hpre⟩ := ih h₁ hs
    refine ⟨read₂, h₂, fun c => Nat.le_trans (hle₁ c) (hle₂ c), fun c => ?_⟩
    obtain ⟨hp, hd⟩ := given_grows hD ht c
    exact ⟨hp.trans (hpre c).1, Nat.le_trans hd (hpre c).2⟩

/-! ## The test for one transfer -/

end

/-! ### An engine -/

/-- Four queues of 255 places. -/
structure Queues where
  waiting : Chan → List Cmd
  finished : Chan → Nat

/-- Transfers of one kind are done in order; a command that finds its queue full
is lost. -/
def queues : Device Queues Chan where
  init := ⟨fun _ => [], fun _ => 0⟩
  write e cmd :=
    if (e.waiting cmd.chan).length < 255 then
      { e with waiting := fun c => if c = cmd.chan then e.waiting c ++ [cmd] else e.waiting c }
    else e
  fifoCnt e :=
    { directDmaRx := .ofNat (e.finished (.direct .rx)), directDmaTx := .ofNat (e.finished (.direct .tx))
      autoDmaRx := .ofNat (e.finished (.auto .rx)), autoDmaTx := .ofNat (e.finished (.auto .tx)) }
  act c e :=
    match e.waiting c with
    | [] => none
    | _ :: rest =>
      some ⟨fun c' => if c' = c then rest else e.waiting c',
        fun c' => if c' = c then e.finished c + 1 else e.finished c'⟩
  pending e c := (e.waiting c).length
  done e c := e.finished c

section
variable {E A : Type} {D : Device E A} {read : Chan → Nat} {s s' : State E} {l : Lbl A} {c : Chan} {d : Dir}
  {cmd : Cmd}

/-- A command for which there is room is taken. -/
theorem InStep.step (hD : D.Lawful) (h : InStep D s c) (hok : Ok D read s) (hs : step D s l = some s')
    (hlt : (s'.given c).length < D.done s.engine c + 256) : InStep D s' c := by
  have hput : ∀ (c' : Chan) (cmd : Cmd), cmd.chan = c' →
      ((HostDma.hand D s c' cmd).given c).length < D.done s.engine c + 256 → InStep D (HostDma.hand D s c' cmd) c :=
    fun c' cmd hc hlt => h.hand hD hc fun e => by
      have : _ = _ := h
      rw [length_hand hc, if_pos e] at hlt
      subst e
      omega
  cases step_change hs with
  | direct => exact hput _ _ (chan_of_word rfl) hlt
  | auto d cmd hp => exact hput _ _ (hok.sets d cmd hp) hlt
  | full | again | call | partialDone | wait | ends => exact h
  | act a e he => exact (hD.act a _ e he c).2.trans h

theorem InStep.exec (hD : D.Lawful) {ls : List (Lbl A)} {k : Nat} (h : InStep D s c) (hok : Ok D read s)
    (hs : LTS.exec (L2.HostDma.step D) s ls = some s') (hk : k ≤ D.done s.engine c)
    (hlt : (s'.given c).length < k + 256) : InStep D s' c := by
  induction ls generalizing s read with
  | nil =>
    cases hs
    exact h
  | cons l ls ih =>
    simp only [LTS.exec, Option.bind_eq_some_iff] at hs
    obtain ⟨t, ht, hs⟩ := hs
    obtain ⟨read₁, h₁, -⟩ := hok.step hD ht
    obtain ⟨-, -, -, hpre⟩ := h₁.exec hD hs
    have hlen := (hpre c).1.length_le
    exact ih (h.step hD hok ht (by omega)) h₁ hs (Nat.le_trans hk (given_grows hD ht c).2)

/-- Steps at which the register is not read. -/
def Lbl.Blind : Lbl A → Prop
  | .setDirect .. | .checkDone _ | .act _ => True
  | _ => False

theorem Lbl.Blind.frame (hl : l.Blind) (hs : step D s l = some s') :
    s'.status.fifoHead = s.status.fifoHead := by
  cases step_change hs with
  | direct =>
    unfold hand
    exact HostDmaStatus.incCnt_fifoHead _ _
  | wait | act => rfl
  | auto | full | call | partialDone | again | ends => exact absurd hl id

end

section
variable {E A : Type} {D : Device E A} {read : Chan → Nat} {s s' : State E} {l : Lbl A} {c : Chan}

/-- The loop of a call is not starved, and as long as the engine has transfers of
a kind under way it finishes one sooner or later. -/
structure Fair (ρ : (sys D).Run) : Prop where
  loop : ρ.Weak (· = .loop)
  engine : ∀ c t, 0 < D.pending (ρ.state t).engine c →
    ∃ u, t ≤ u ∧ D.done (ρ.state t).engine c < D.done (ρ.state u).engine c

/-- What a call waits for. -/
def Pc.chan : Pc → Chan
  | .idle => .direct .rx
  | .setAuto d _ => .auto d
  | .checkDone c => c

section
variable {ρ : (sys D).Run} {t u : Nat}

/-- What can happen at one time of a call that never returns. -/
inductive Turn (D : Device E A) (s : State E) : Option (Lbl A) → State E → Prop
  | none : Turn D s none s
  | act (a : A) (e : E) (h : D.act a s.engine = some e) : Turn D s (some (.act a)) { s with engine := e }
  | read (h : s.status.fifoHead.get s.pc.chan = (D.fifoCnt s.engine).get s.pc.chan →
      0 < D.pending s.engine s.pc.chan) : Turn D s (some .loop) (readFifoCnt D s)

theorem Turn.frame (hD : D.Lawful) {o : Option (Lbl A)} (h : Turn D s o s') :
    s'.pc = s.pc ∧ s'.given = s.given ∧ ∀ c, InStep D s c → InStep D s' c := by
  cases h with
  | none => exact ⟨rfl, rfl, fun _ => id⟩
  | act a e he => exact ⟨rfl, rfl, fun c h => (hD.act a _ e he c).2.trans h⟩
  | read => exact ⟨rfl, rfl, fun _ => id⟩

/-- While nothing more is done of a kind, what was read of it stays read. -/
theorem Turn.known (hD : D.Lawful) {o : Option (Lbl A)} (h : Turn D s o s')
    (hd : D.done s'.engine c = D.done s.engine c)
    (hk : s.status.fifoHead.get c = (D.fifoCnt s.engine).get c) :
    s'.status.fifoHead.get c = (D.fifoCnt s'.engine).get c := by
  rw [hD.fifoCnt] at hk ⊢
  cases h with
  | none => exact hk
  | act a e => exact hk.trans (by rw [hd])
  | read => exact hD.fifoCnt _ c

theorem Turn.reads (h : Turn D s (some .loop) s') (c : Chan) :
    s'.status.fifoHead.get c = (D.fifoCnt s'.engine).get c := by
  cases h
  rfl

theorem Turn.work (h : Turn D s (some .loop) s')
    (hk : s.status.fifoHead.get s.pc.chan = (D.fifoCnt s.engine).get s.pc.chan) :
    0 < D.pending s.engine s.pc.chan := by
  cases h with
  | read hwork => exact hwork hk

end

end

/-- Nothing is left to do. -/
def Quiet (s : State Queues) : Prop := s.pc = .idle ∧ ∀ c, s.engine.waiting c = []

theorem Quiet.partialDone {s : State Queues} (h : Quiet s) :
    ∃ s', step queues s (.partialDone .tx 0 0) = some s' ∧ Quiet s' :=
  ⟨_, if_pos h.1, h⟩

end OpenSSDEmu.L2.HostDma
