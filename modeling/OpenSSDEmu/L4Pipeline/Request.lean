import OpenSSDEmu.L1Encoding.FlashLog
import OpenSSDEmu.L2Machine.SqEntry
import OpenSSDEmu.L3Buffer.Buffer
import OpenSSDEmu.L4Pipeline.Handlers

/-!
# What the back end reads from a request

`FCL_set_SQ_entry` packs a request into a submission queue entry,
`BE_send_sq` copies the entry, and `be()` (`emu/be/be.c`) unpacks the copy
into the arguments of `BE_read_log` or `BE_write_log`. The buffer address
travels as its upper 18 bits, which is enough because `main` puts `mem_base`
on a 16 KB boundary.

* `getBufferAddr_toNat`: no buffer address wraps.
* `bufAdr_shift`: a multiple of 16 KB survives the 18-bit field.
* `request_roundtrip`: the call the back end makes is the one the handler
  asked for.
-/
namespace OpenSSDEmu.L4.Pipeline
open L2.Hcl L2.Fcl
open L1.FlashLog (Ppa)
open L3.Buffer (BUFFER_NUMBER)

/-- mirrors src/lib/type.h:6-8 -/
def KB : Nat := 1024
def GB : Nat := 1024 * 1024 * 1024

/-- `mem_base`, from the address `malloc` returned.
mirrors src/emu/emu_main.c:47-48 -/
def memBaseOf (p : BitVec 32) : BitVec 32 := ((p >>> 14) <<< 14) + BitVec.ofNat 32 (16 * KB)

/-- A call of `BE_read_log` or `BE_write_log`: the address and `buf_addr`. -/
inductive LogCall
  | read (ppa : Ppa) (bufAddr : BitVec 32)
  | write (ppa : Ppa) (bufAddr : BitVec 32)
  deriving DecidableEq, Repr

/-- The call `be()` makes for a request; `none` for an op that is neither.
`junk` is the union before its first six bytes are assigned.
mirrors src/emu/be/be.c:57-89 -/
def beCall (junk : BitVec 64) (sq : EmuSq) : Option LogCall :=
  let e := sq.sqEntry
  let addr : PhyPageAddr :=
    { ch := UInt16.ofNat sq.ch, ce := UInt16.ofNat sq.ce,
      nandFlashAddr := setBytes junk e.a0 e.a1 e.a2 e.a3 e.a4 e.a5 }
  let ppa : Ppa :=
    { ch := addr.ch.toUInt32, ce := addr.ce.toUInt32,
      lun := UInt32.ofNat (slcLun addr.nandFlashAddr).toNat,
      plane := UInt32.ofNat (slcPlane addr.nandFlashAddr).toNat,
      block := UInt32.ofNat (slcBlock addr.nandFlashAddr).toNat,
      page := UInt32.ofNat (slcPage addr.nandFlashAddr).toNat }
  if e.op.toNat = HcmdOpcode.read.toNat then some (.read ppa (e.bufAdr.setWidth 32 <<< 14))
  else if e.op.toNat = HcmdOpcode.write.toNat then some (.write ppa (e.bufAdr.setWidth 32 <<< 14))
  else none

/-! ## Addresses -/

theorem KB_eq : KB = 1024 := rfl

theorem GB_eq : GB = 1073741824 := rfl

theorem memBaseOf_toNat {p : BitVec 32} (hp : p.toNat + 1 * GB + 16 * KB < 4 * GB) :
    (memBaseOf p).toNat = p.toNat / 16384 * 16384 + 16384 := by
  rw [GB_eq, KB_eq] at hp
  have h : memBaseOf p = ((p >>> 14) <<< 14) + 16384#32 := rfl
  rw [h]
  simp only [BitVec.toNat_add, BitVec.toNat_shiftLeft, BitVec.toNat_ushiftRight,
    BitVec.toNat_ofNat, Nat.shiftRight_eq_div_pow, Nat.shiftLeft_eq]
  omega

theorem getBufferAddr_toNat {p : BitVec 32} (hp : p.toNat + 1 * GB + 16 * KB < 4 * GB) {id : Nat}
    (hid : id < BUFFER_NUMBER) :
    (getBufferAddr (memBaseOf p) id).toNat =
      (memBaseOf p).toNat + 629145600 + id * 16384 := by
  have hm := memBaseOf_toNat hp
  have hid : id < 1500 := hid
  rw [GB_eq, KB_eq] at hp
  have h : getBufferAddr (memBaseOf p) id =
      BitVec.ofNat 32 (id * 16 * 1024) + (memBaseOf p + 629145600#32) := rfl
  rw [h]
  have hlt : (memBaseOf p).toNat ≤ 3221225472 := by omega
  have h1 : (BitVec.ofNat 32 (id * 16 * 1024)).toNat = id * 16384 := by
    rw [BitVec.toNat_ofNat, Nat.mod_eq_of_lt (by omega)]
    omega
  have h2 : (memBaseOf p + 629145600#32).toNat = (memBaseOf p).toNat + 629145600 :=
    BitVec.toNat_add_of_lt (by rw [BitVec.toNat_ofNat]; omega)
  rw [BitVec.toNat_add_of_lt (by omega), h1, h2, Nat.add_comm]

/-- The upper 18 bits of a multiple of 16 KB determine it. -/
theorem bufAdr_shift {x : BitVec 32} (h : x.toNat % 16384 = 0) :
    ((x >>> 14).setWidth 18).setWidth 32 <<< 14 = x := by
  apply BitVec.eq_of_toNat_eq
  simp only [BitVec.toNat_shiftLeft, BitVec.toNat_setWidth, BitVec.toNat_ushiftRight,
    Nat.shiftRight_eq_div_pow, Nat.shiftLeft_eq]
  have := x.isLt
  omega

theorem getBufferAddr_aligned {p : BitVec 32} (hp : p.toNat + 1 * GB + 16 * KB < 4 * GB) {id : Nat}
    (hid : id < BUFFER_NUMBER) : (getBufferAddr (memBaseOf p) id).toNat % 16384 = 0 := by
  rw [getBufferAddr_toNat hp hid, memBaseOf_toNat hp]
  omega

/-- The 16 KB of a buffer lie in the gigabyte behind `mem_base`, which lies
in the block `malloc` returned. -/
theorem buffer_window {p : BitVec 32} (hp : p.toNat + 1 * GB + 16 * KB < 4 * GB) {id : Nat}
    (hid : id < BUFFER_NUMBER) :
    (memBaseOf p).toNat ≤ (getBufferAddr (memBaseOf p) id).toNat ∧
      (getBufferAddr (memBaseOf p) id).toNat + 16 * KB ≤ (memBaseOf p).toNat + 1 * GB ∧
      p.toNat ≤ (memBaseOf p).toNat ∧
      (memBaseOf p).toNat + 1 * GB ≤ p.toNat + 1 * GB + 16 * KB := by
  rw [getBufferAddr_toNat hp hid, memBaseOf_toNat hp]
  unfold BUFFER_NUMBER at hid
  rw [GB_eq, KB_eq] at *
  omega

/-- Two buffers do not overlap. -/
theorem buffer_windows_disjoint {p : BitVec 32} (hp : p.toNat + 1 * GB + 16 * KB < 4 * GB)
    {id id' : Nat} (hid : id < BUFFER_NUMBER) (hid' : id' < BUFFER_NUMBER) (hne : id ≠ id') :
    (getBufferAddr (memBaseOf p) id).toNat + 16 * KB ≤ (getBufferAddr (memBaseOf p) id').toNat ∨
      (getBufferAddr (memBaseOf p) id').toNat + 16 * KB ≤
        (getBufferAddr (memBaseOf p) id).toNat := by
  rw [getBufferAddr_toNat hp hid, getBufferAddr_toNat hp hid']
  rw [KB_eq]
  omega

/-! ## The call -/

/-- The decoded address is that of the six bytes. -/
theorem beCall_eq (junk : BitVec 64) {sq : EmuSq} {a : BitVec 64}
    (h0 : sq.sqEntry.a0 = addrByte a 0) (h1 : sq.sqEntry.a1 = addrByte a 1)
    (h2 : sq.sqEntry.a2 = addrByte a 2) (h3 : sq.sqEntry.a3 = addrByte a 3)
    (h4 : sq.sqEntry.a4 = addrByte a 4) (h5 : sq.sqEntry.a5 = addrByte a 5) :
    beCall junk sq =
      let ppa : Ppa :=
        { ch := (UInt16.ofNat sq.ch).toUInt32, ce := (UInt16.ofNat sq.ce).toUInt32,
          lun := UInt32.ofNat (slcLun a).toNat, plane := UInt32.ofNat (slcPlane a).toNat,
          block := UInt32.ofNat (slcBlock a).toNat, page := UInt32.ofNat (slcPage a).toNat }
      let buf := sq.sqEntry.bufAdr.setWidth 32 <<< 14
      if sq.sqEntry.op.toNat = HcmdOpcode.read.toNat then some (.read ppa buf)
      else if sq.sqEntry.op.toNat = HcmdOpcode.write.toNat then some (.write ppa buf) else none := by
  have hlun : slcLun (setBytes junk (addrByte a 0) (addrByte a 1) (addrByte a 2) (addrByte a 3)
      (addrByte a 4) (addrByte a 5)) = slcLun a := getField_setBytes a junk (by decide)
  have hplane : slcPlane (setBytes junk (addrByte a 0) (addrByte a 1) (addrByte a 2) (addrByte a 3)
      (addrByte a 4) (addrByte a 5)) = slcPlane a := getField_setBytes a junk (by decide)
  have hblock : slcBlock (setBytes junk (addrByte a 0) (addrByte a 1) (addrByte a 2) (addrByte a 3)
      (addrByte a 4) (addrByte a 5)) = slcBlock a := getField_setBytes a junk (by decide)
  have hpage : slcPage (setBytes junk (addrByte a 0) (addrByte a 1) (addrByte a 2) (addrByte a 3)
      (addrByte a 4) (addrByte a 5)) = slcPage a := getField_setBytes a junk (by decide)
  simp only [beCall, h0, h1, h2, h3, h4, h5, hlun, hplane, hblock, hpage]

/-- The call a handler asks for when it fills an entry. -/
def askedFor (op : HcmdOpcode) (ppa : Ppa) (bufAddr : BitVec 32) : Option LogCall :=
  match op with
  | .read => some (.read ppa bufAddr)
  | .write => some (.write ppa bufAddr)
  | _ => none

/-- For every block `malloc` can return below 4 GB, the request the back end
executes is the one that was set: same channel, chip, lun, plane, block, page
and op, the index of the command, and the address of the buffer, whose 16 KB
are its own and inside the emulated memory. Neither the rest of the address
union (`a` on the sending side, `junk` in `be()`) nor the padding of the
copied words matters. No other entry changes, and the links of this one
stay. -/
theorem request_roundtrip {p : BitVec 32} (hp : p.toNat + 1 * GB + 16 * KB < 4 * GB) (d : Dev)
    (ch ce : UInt16) (a junk : BitVec 64)
    {lun plane block page : Nat} (hlun : lun < 8) (hplane : plane < 2)
    (hblock : block < 1024) (hpage : page < 512) (sqIndex : Nat) {hcmd buf : Nat}
    (hhcmd : hcmd < HCMD_NUM) (hbuf : buf < BUFFER_NUMBER)
    {op : HcmdOpcode} (hop : op = .read ∨ op = .write) (cmdSp : BitVec 1)
    (pad5 : BitVec 5) (pad1 : BitVec 1) (pad6 : BitVec 6) :
    let memBase := memBaseOf p
    let ppa : PhyPageAddr := { ch := ch, ce := ce, nandFlashAddr := setSlc a lun plane block page }
    let f := setSQEntry memBase d.fcl hcmd sqIndex buf op ppa cmdSp
    let sq : EmuSq :=
      { ch := ch.toNat, ce := ce.toNat, sqIndex := sqIndex,
        sqEntry := ((f.entry ch.toNat sqIndex).words pad5 pad1 pad6).entry }
    (sendSQEntry { d with fcl := f } sqIndex ch.toNat ce.toNat).registerList =
        d.registerList ++ [sq] ∧
      beCall junk sq =
        askedFor op
          { ch := ch.toUInt32, ce := ce.toUInt32, lun := UInt32.ofNat lun,
            plane := UInt32.ofNat plane, block := UInt32.ofNat block, page := UInt32.ofNat page }
          (getBufferAddr memBase buf) ∧
      sq.hcmd = hcmd ∧
      ((memBase.toNat ≤ (getBufferAddr memBase buf).toNat ∧
          (getBufferAddr memBase buf).toNat + 16 * KB ≤ memBase.toNat + 1 * GB) ∧
        ∀ buf', buf' < BUFFER_NUMBER → buf' ≠ buf →
          (getBufferAddr memBase buf).toNat + 16 * KB ≤ (getBufferAddr memBase buf').toNat ∨
          (getBufferAddr memBase buf').toNat + 16 * KB ≤ (getBufferAddr memBase buf).toNat) ∧
      (∀ c i, ¬ (c = ch.toNat ∧ i = sqIndex) → f.entry c i = d.fcl.entry c i) ∧
      (f.entry ch.toNat sqIndex).curPtr = (d.fcl.entry ch.toNat sqIndex).curPtr ∧
      (f.entry ch.toNat sqIndex).nextPtr = (d.fcl.entry ch.toNat sqIndex).nextPtr := by
  have hne : op ≠ .erase := by rcases hop with rfl | rfl <;> simp
  intro memBase ppa f sq
  have hset : f.entry ch.toNat sqIndex = _ :=
    setSQEntry_entry memBase d.fcl hcmd sqIndex buf hne ppa cmdSp
  have hsq : sq.sqEntry = f.entry ch.toNat sqIndex := entry_words _ _ _ _
  have hwin := buffer_window hp hbuf
  refine ⟨?_, ?_, ?_, ⟨⟨hwin.1, hwin.2.1⟩, fun buf' hbuf' hne' => ?_⟩, fun c i hci => ?_, ?_, ?_⟩
  · have h : sq = ⟨ch.toNat, ce.toNat, sqIndex, f.entry ch.toNat sqIndex⟩ := congrArg _ hsq
    rw [h]
    rfl
  · have hbuf' : sq.sqEntry.bufAdr.setWidth 32 <<< 14 = getBufferAddr memBase buf := by
      rw [hsq, hset]
      exact bufAdr_shift (getBufferAddr_aligned hp hbuf)
    have hop' : sq.sqEntry.op = BitVec.ofNat 2 op.toNat := by rw [hsq, hset]
    rw [beCall_eq junk (by rw [hsq, hset]) (by rw [hsq, hset]) (by rw [hsq, hset])
      (by rw [hsq, hset]) (by rw [hsq, hset]) (by rw [hsq, hset])]
    rw [slcLun_setSlc _ _ _ _ hlun, slcPlane_setSlc _ _ _ _ hplane, slcBlock_setSlc _ _ _ _ hblock,
      slcPage_setSlc _ _ _ _ hpage, hbuf', hop']
    have hch : UInt16.ofNat sq.ch = ch := UInt16.ofNat_toNat
    have hce : UInt16.ofNat sq.ce = ce := UInt16.ofNat_toNat
    rw [hch, hce]
    rcases hop with rfl | rfl
    · rfl
    · rfl
  · show sq.sqEntry.hcmdIndex.toNat = hcmd
    rw [hsq, hset]
    exact Nat.mod_eq_of_lt hhcmd
  · exact buffer_windows_disjoint hp hbuf hbuf' (Ne.symm hne')
  · exact setSQEntry_other _ _ _ _ _ _ ppa _ hci
  · rw [hset]
  · rw [hset]

/-- A write of page 20 on channel 1 from buffer 3, for a block at 4 KB. -/
theorem write_request_roundtrip : ∃ sq : EmuSq,
    beCall 0 sq = some (.write ⟨1, 0, 5, 1, 1023, 20⟩ (getBufferAddr (memBaseOf 4096) 3)) ∧
      sq.hcmd = 255 :=
  let h := @request_roundtrip 4096 (by decide) Dev.init 1 0 0 0 5 1 1023 20 (by decide) (by decide)
    (by decide) (by decide) 255 255 3 (by decide) (by decide) .write (.inr rfl) HCMD_SPACE 0 0 0
  ⟨_, h.2.1, h.2.2.1⟩

end OpenSSDEmu.L4.Pipeline
