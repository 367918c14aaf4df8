import OpenSSDEmu.L2Machine.Hcl

/-!
# Submission queue entries of the flash controller

`fcl/fcl.h` and the part of `fcl/fcl.c` the emulator build runs: per
channel, 256 `hw_queue_entry` records and a bitmap of the used ones.
Bit fields are `BitVec`s of their declared width. `nand_flash_addr_cmd` is
the 64-bit union itself: as gcc lays it out for `-m32`, `block` does not fit
behind `plane` in the first 32-bit unit and starts the second one.

The spin locks around the bitmap are no-ops in the emulator build
(`lib/lock.c`, `#ifndef EMU`) and are left out.
-/
namespace OpenSSDEmu.L2.Fcl
open Hcl (HcmdOpcode)

/-- mirrors src/config/config.h:24,72 -/
def HW_QUEUE_DEPTH : Nat := 256

/-- mirrors src/config/config.h:9 -/
def TOTAL_CHANNEL : Nat := 4

/-- mirrors src/fcl/fcl.h:23-53 (the unnamed padding fields are left out) -/
structure HwQueueEntry where
  curPtr : BitVec 8
  t0AddDa : BitVec 1
  t1AddDf : BitVec 1
  t2Use1a : BitVec 1
  errSum : BitVec 9
  ph : BitVec 2
  op : BitVec 2
  cmdSpace : BitVec 1
  nulptr : BitVec 1
  ce : BitVec 8
  bufAdr : BitVec 18
  a0 : BitVec 8
  a1 : BitVec 8
  a2 : BitVec 8
  a3 : BitVec 8
  a4 : BitVec 8
  a5 : BitVec 8
  hcmdIndex : BitVec 8
  nextPtr : BitVec 8
  deriving DecidableEq, Repr

/-! ## The physical page address -/

/-- Bits `off, …, off + w - 1` of the union. -/
def getField (a : BitVec 64) (off w : Nat) : BitVec w := a.extractLsb' off w

def setField (a : BitVec 64) (off : Nat) {w : Nat} (v : BitVec w) : BitVec 64 :=
  (a &&& ~~~((BitVec.allOnes w).setWidth 64 <<< off)) ||| (v.setWidth 64 <<< off)

/-- mirrors src/fcl/fcl.h:80-85 -/
structure PhyPageAddr where
  ch : UInt16
  ce : UInt16
  nandFlashAddr : BitVec 64
  deriving DecidableEq, Repr

/-- mirrors src/fcl/fcl.h:66-76 (`slc_mode`) -/
def setSlcPage (a : BitVec 64) (v : Nat) : BitVec 64 := setField a 16 (BitVec.ofNat 9 v)
def setSlcPlane (a : BitVec 64) (v : Nat) : BitVec 64 := setField a 27 (BitVec.ofNat 1 v)
def setSlcBlock (a : BitVec 64) (v : Nat) : BitVec 64 := setField a 32 (BitVec.ofNat 10 v)
def setSlcLun (a : BitVec 64) (v : Nat) : BitVec 64 := setField a 43 (BitVec.ofNat 3 v)
def slcPage (a : BitVec 64) : BitVec 9 := getField a 16 9
def slcPlane (a : BitVec 64) : BitVec 1 := getField a 27 1
def slcBlock (a : BitVec 64) : BitVec 10 := getField a 32 10
def slcLun (a : BitVec 64) : BitVec 3 := getField a 43 3

/-- mirrors src/fcl/fcl.h:77 (`array[k]`, little endian) -/
def addrByte (a : BitVec 64) (k : Nat) : BitVec 8 := getField a (8 * k) 8

/-- mirrors src/buffer/buffer.c:179-183 (`BUFFER_BASE_ADDR` is `mem_base + 600 MB`) -/
def getBufferAddr (memBase : BitVec 32) (buffId : Nat) : BitVec 32 :=
  BitVec.ofNat 32 (buffId * 16 * 1024) + (memBase + BitVec.ofNat 32 (600 * 1024 * 1024))

/-! ## The queues -/

structure SqPool where
  entry : Nat → Nat → HwQueueEntry
  bitmap : Nat → Bitmap.Words

/-- mirrors src/fcl/fcl.c:80-98 -/
def initHwQueue : SqPool where
  entry _ j :=
    { curPtr := BitVec.ofNat 8 j, t0AddDa := 0, t1AddDf := 0, t2Use1a := 0, errSum := 0, ph := 0,
      op := 0, cmdSpace := 0, nulptr := 0, ce := 0, bufAdr := 0, a0 := 0, a1 := 0, a2 := 0,
      a3 := 0, a4 := 0, a5 := 0, hcmdIndex := 0,
      nextPtr := if j = HW_QUEUE_DEPTH - 1 then BitVec.ofNat 8 j else BitVec.ofNat 8 (j + 1) }
  bitmap _ := fun _ => 0#32

/-- The bitmap bit of entry `i` of channel `ch`. -/
def sqBit (f : SqPool) (ch i : Nat) : Bool := Bitmap.get (f.bitmap ch) i

/-- `none` = `INVALID_INDEX`.
mirrors src/fcl/fcl.c:114-143 -/
def getFreeSQEntry (f : SqPool) (ch : Nat) : Option Nat × SqPool :=
  match Bitmap.findClear (f.bitmap ch) (HW_QUEUE_DEPTH / 32) with
  | some (i, j) =>
    (some (32 * i + j),
      { f with bitmap := fun c => if c = ch then Bitmap.setBit (f.bitmap ch) i j else f.bitmap c })
  | none => (none, f)

/-- mirrors src/fcl/fcl.c:145-160 -/
def sqEmpty (f : SqPool) (ch : Nat) : Bool :=
  (Bitmap.findClear (f.bitmap ch) (HW_QUEUE_DEPTH / 32)).isNone

/-- mirrors src/fcl/fcl.c:267-278 -/
def freeSQEntry (f : SqPool) (ch index : Nat) : SqPool :=
  { f with bitmap := fun c => if c = ch then Bitmap.clearBit (f.bitmap ch) (index / 32) (index % 32)
                              else f.bitmap c }

/-- mirrors src/fcl/fcl.c:170-198 -/
def setSQEntry (memBase : BitVec 32) (f : SqPool) (hcmdEntryIndex sqEntryIndex bufferIndex : Nat)
    (opcode : HcmdOpcode) (ppa : PhyPageAddr) (cmdSp : BitVec 1) : SqPool :=
  let ch := ppa.ch.toNat
  let e := f.entry ch sqEntryIndex
  let e := { e with op := BitVec.ofNat 2 opcode.toNat, t0AddDa := 1, cmdSpace := cmdSp }
  let byte := addrByte ppa.nandFlashAddr
  let e :=
    if opcode ≠ .erase then
      { e with bufAdr := (getBufferAddr memBase bufferIndex >>> 14).setWidth 18,
               a0 := byte 0, a1 := byte 1, a2 := byte 2, a3 := byte 3, a4 := byte 4, a5 := byte 5 }
    else { e with a0 := byte 2, a1 := byte 3, a2 := byte 4, a3 := byte 5 }
  let e := { e with hcmdIndex := BitVec.ofNat 8 hcmdEntryIndex }
  { f with entry := fun c i => if c = ch ∧ i = sqEntryIndex then e else f.entry c i }

/-! ## Specifications -/

theorem sqBit_init (ch i : Nat) : sqBit initHwQueue ch i = false := Bitmap.get_zero i

@[simp] theorem setSQEntry_sqBit (mb : BitVec 32) (f : SqPool) (h s b : Nat) (o : HcmdOpcode)
    (p : PhyPageAddr) (c : BitVec 1) (ch i : Nat) :
    sqBit (setSQEntry mb f h s b o p c) ch i = sqBit f ch i := rfl

/-- The entry just filled holds the command's index. -/
theorem setSQEntry_hcmdIndex (mb : BitVec 32) (f : SqPool) (h s b : Nat) (o : HcmdOpcode)
    (p : PhyPageAddr) (c : BitVec 1) :
    ((setSQEntry mb f h s b o p c).entry p.ch.toNat s).hcmdIndex = BitVec.ofNat 8 h := by
  simp [setSQEntry]

/-- What `FCL_set_SQ_entry` leaves in the entry of a read or a write. -/
theorem setSQEntry_entry (mb : BitVec 32) (f : SqPool) (h s b : Nat) {o : HcmdOpcode}
    (ho : o ≠ .erase) (ppa : PhyPageAddr) (c : BitVec 1) :
    (setSQEntry mb f h s b o ppa c).entry ppa.ch.toNat s =
      { f.entry ppa.ch.toNat s with
        op := BitVec.ofNat 2 o.toNat, t0AddDa := 1, cmdSpace := c,
        bufAdr := (getBufferAddr mb b >>> 14).setWidth 18,
        a0 := addrByte ppa.nandFlashAddr 0, a1 := addrByte ppa.nandFlashAddr 1,
        a2 := addrByte ppa.nandFlashAddr 2, a3 := addrByte ppa.nandFlashAddr 3,
        a4 := addrByte ppa.nandFlashAddr 4, a5 := addrByte ppa.nandFlashAddr 5,
        hcmdIndex := BitVec.ofNat 8 h } := by
  simp [setSQEntry, ho]

theorem setSQEntry_other (mb : BitVec 32) (f : SqPool) (h s b : Nat) (o : HcmdOpcode)
    (ppa : PhyPageAddr) (c : BitVec 1) {ch i : Nat} (hne : ¬ (ch = ppa.ch.toNat ∧ i = s)) :
    (setSQEntry mb f h s b o ppa c).entry ch i = f.entry ch i := by
  simp [setSQEntry, hne]

theorem getFreeSQEntry_entry {f f' : SqPool} {ch i : Nat} (e : getFreeSQEntry f ch = (some i, f')) :
    f'.entry = f.entry := by
  unfold getFreeSQEntry at e
  split at e
  · cases e; rfl
  · cases e

/-- A successful allocation marks one free index of its own channel. -/
theorem getFreeSQEntry_some {f f' : SqPool} {ch i : Nat} (e : getFreeSQEntry f ch = (some i, f')) :
    i < HW_QUEUE_DEPTH ∧ sqBit f ch i = false ∧ (∀ k, k < i → sqBit f ch k = true) ∧
      ∀ c k, sqBit f' c k = (decide (c = ch ∧ k = i) || sqBit f c k) := by
  unfold getFreeSQEntry at e
  split at e
  · rename_i w b hf
    obtain ⟨hw, hb, hclear, hmin⟩ := Bitmap.findClear_some hf
    simp only [Prod.mk.injEq, Option.some.injEq] at e
    obtain ⟨rfl, rfl⟩ := e
    refine ⟨by unfold HW_QUEUE_DEPTH at *; omega, hclear, hmin, fun c k => ?_⟩
    by_cases hc : c = ch
    · subst hc; simp [sqBit, Bitmap.get_setBit _ _ _ _ hb]
    · simp [sqBit, hc]
  · simp at e

theorem getFreeSQEntry_none {f f' : SqPool} {ch : Nat} (e : getFreeSQEntry f ch = (none, f')) :
    (∀ k, k < HW_QUEUE_DEPTH → sqBit f ch k = true) ∧ f' = f := by
  unfold getFreeSQEntry at e
  split at e
  · simp at e
  · rename_i hf
    simp only [Prod.mk.injEq, true_and] at e
    exact ⟨fun k hk => Bitmap.findClear_none hf k (by unfold HW_QUEUE_DEPTH at *; omega), e.symm⟩

theorem freeSQEntry_sqBit (f : SqPool) (ch i c k : Nat) :
    sqBit (freeSQEntry f ch i) c k = (!decide (c = ch ∧ k = i) && sqBit f c k) := by
  by_cases hc : c = ch
  · subst hc
    have := Bitmap.get_clearBit (f.bitmap c) (i / 32) (i % 32) k (Nat.mod_lt _ (by decide))
    rw [Nat.div_add_mod] at this
    simp [sqBit, freeSQEntry, this]
  · simp [sqBit, freeSQEntry, hc]

end OpenSSDEmu.L2.Fcl
