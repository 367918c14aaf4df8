import OpenSSDEmu.L2Machine.Fcl

/-!
# The layout of a submission queue entry

`fcl/fcl.h`, as gcc lays it out for `-m32`: the bit fields of
`hw_queue_entry` in its four words, and those of the `slc_mode` address seen
as the six bytes that travel in an entry.

* `entry_words`: the fields of an entry fill the words without overlap, so a
  copy of the words is a copy of the fields.
* `getField_setBytes`: six bytes carry every field of the address that ends
  below bit 48, whatever the rest of the union holds.
* `slcLun_setSlc`, `slcPlane_setSlc`, `slcBlock_setSlc`, `slcPage_setSlc`: the
  fields of an address do not disturb each other.
-/
namespace OpenSSDEmu.L2.Fcl

/-! ## The four words of an entry -/

/-- The memory of a `hw_queue_entry`, with the widths of the fields from the
most significant one down. -/
structure EntryWords where
  w0 : BitVec (1 + 1 + 2 + 2 + 1 + 9 + 5 + 1 + 1 + 1 + 8)
  w1 : BitVec (18 + 6 + 8)
  w2 : BitVec (8 + 8 + 8 + 8)
  w3 : BitVec (8 + 8 + 8 + 8)

/-- The entry in memory; `pad5`, `pad1` and `pad6` are the unnamed fields.
mirrors src/fcl/fcl.h:23-53 -/
def HwQueueEntry.words (e : HwQueueEntry) (pad5 : BitVec 5) (pad1 : BitVec 1) (pad6 : BitVec 6) :
    EntryWords where
  w0 := e.nulptr ++ e.cmdSpace ++ e.op ++ e.ph ++ pad1 ++ e.errSum ++ pad5 ++ e.t2Use1a ++
    e.t1AddDf ++ e.t0AddDa ++ e.curPtr
  w1 := e.bufAdr ++ pad6 ++ e.ce
  w2 := e.a3 ++ e.a2 ++ e.a1 ++ e.a0
  w3 := e.nextPtr ++ e.hcmdIndex ++ e.a5 ++ e.a4

/-- The fields read from memory.
mirrors src/fcl/fcl.h:23-53 -/
def EntryWords.entry (w : EntryWords) : HwQueueEntry where
  curPtr := w.w0.extractLsb' 0 8
  t0AddDa := w.w0.extractLsb' 8 1
  t1AddDf := w.w0.extractLsb' 9 1
  t2Use1a := w.w0.extractLsb' 10 1
  errSum := w.w0.extractLsb' 16 9
  ph := w.w0.extractLsb' 26 2
  op := w.w0.extractLsb' 28 2
  cmdSpace := w.w0.extractLsb' 30 1
  nulptr := w.w0.extractLsb' 31 1
  ce := w.w1.extractLsb' 0 8
  bufAdr := w.w1.extractLsb' 14 18
  a0 := w.w2.extractLsb' 0 8
  a1 := w.w2.extractLsb' 8 8
  a2 := w.w2.extractLsb' 16 8
  a3 := w.w2.extractLsb' 24 8
  a4 := w.w3.extractLsb' 0 8
  a5 := w.w3.extractLsb' 8 8
  hcmdIndex := w.w3.extractLsb' 16 8
  nextPtr := w.w3.extractLsb' 24 8

theorem entry_words (e : HwQueueEntry) (pad5 : BitVec 5) (pad1 : BitVec 1) (pad6 : BitVec 6) :
    (e.words pad5 pad1 pad6).entry = e := by
  simp (disch := decide) only [HwQueueEntry.words, EntryWords.entry,
    BitVec.extractLsb'_append_eq_of_le, BitVec.extractLsb'_append_eq_of_add_le, Nat.reduceSub,
    BitVec.extractLsb'_eq_self]

/-! ## Fields of the address union -/

theorem getLsbD_setField (a : BitVec 64) (off : Nat) {w : Nat} (v : BitVec w) {i : Nat}
    (hi : i < 64) :
    (setField a off v).getLsbD i =
      if off ≤ i ∧ i < off + w then v.getLsbD (i - off) else a.getLsbD i := by
  by_cases h1 : off ≤ i
  · have h5 : ¬ i < off := by omega
    by_cases h2 : i < off + w
    · have h3 : i - off < w := by omega
      simp [setField, hi, h1, h2, h3, h5]
    · have h3 : ¬ i - off < w := by omega
      have h4 : v.getLsbD (i - off) = false := BitVec.getLsbD_of_ge _ _ (by omega)
      simp [setField, hi, h2, h3, h4]
  · have h5 : i < off := by omega
    simp [setField, hi, h1, h5]

theorem getLsbD_getField (a : BitVec 64) (off w i : Nat) :
    (getField a off w).getLsbD i = (decide (i < w) && a.getLsbD (off + i)) := by
  simp [getField]

/-- A field is read back, whatever its surroundings were. -/
theorem getField_setField (a : BitVec 64) {off w : Nat} (v : BitVec w) (h : off + w ≤ 64) :
    getField (setField a off v) off w = v := by
  refine BitVec.eq_of_getLsbD_eq fun i hi => ?_
  rw [getLsbD_getField, getLsbD_setField _ _ _ (by omega), if_pos (by omega)]
  simp [hi]

/-- Fields that do not overlap keep each other. -/
theorem getField_setField_of_disjoint (a : BitVec 64) {off w off' w' : Nat} (v : BitVec w)
    (h' : off' + w' ≤ 64) (hd : off + w ≤ off' ∨ off' + w' ≤ off) :
    getField (setField a off v) off' w' = getField a off' w' := by
  refine BitVec.eq_of_getLsbD_eq fun i hi => ?_
  rw [getLsbD_getField, getLsbD_getField, getLsbD_setField _ _ _ (by omega), if_neg (by omega)]

/-- `array[0]` to `array[5]` are assigned. -/
def setBytes (a : BitVec 64) (b0 b1 b2 b3 b4 b5 : BitVec 8) : BitVec 64 :=
  setField (setField (setField (setField (setField (setField a 0 b0) 8 b1) 16 b2) 24 b3) 32 b4) 40 b5

/-- The six bytes of an address determine its low 48 bits. -/
theorem getLsbD_setBytes (a junk : BitVec 64) {i : Nat} (hi : i < 48) :
    (setBytes junk (addrByte a 0) (addrByte a 1) (addrByte a 2) (addrByte a 3) (addrByte a 4)
      (addrByte a 5)).getLsbD i = a.getLsbD i := by
  have hbyte : ∀ k, 8 * k ≤ i → i < 8 * k + 8 →
      (addrByte a k).getLsbD (i - 8 * k) = a.getLsbD i := by
    intro k h1 h2
    have h3 : i - 8 * k < 8 := by omega
    rw [addrByte, getLsbD_getField, show 8 * k + (i - 8 * k) = i by omega]
    simp [h3]
  simp only [setBytes, getLsbD_setField _ _ _ (show i < 64 by omega)]
  split
  · exact hbyte 5 (by omega) (by omega)
  split
  · exact hbyte 4 (by omega) (by omega)
  split
  · exact hbyte 3 (by omega) (by omega)
  split
  · exact hbyte 2 (by omega) (by omega)
  split
  · exact hbyte 1 (by omega) (by omega)
  split
  · exact hbyte 0 (by omega) (by omega)
  · omega

theorem getField_setBytes (a junk : BitVec 64) {off w : Nat} (h : off + w ≤ 48) :
    getField (setBytes junk (addrByte a 0) (addrByte a 1) (addrByte a 2) (addrByte a 3)
      (addrByte a 4) (addrByte a 5)) off w = getField a off w := by
  refine BitVec.eq_of_getLsbD_eq fun i hi => ?_
  rw [getLsbD_getField, getLsbD_getField, getLsbD_setBytes _ _ (by omega)]

/-- The four assignments of a page address, in the order of
src/ftl/ftl_core0.c:118-121. -/
def setSlc (a : BitVec 64) (lun plane block page : Nat) : BitVec 64 :=
  setSlcPage (setSlcBlock (setSlcPlane (setSlcLun a lun) plane) block) page

theorem slcLun_setSlc (a : BitVec 64) (plane block page : Nat) {lun : Nat} (h : lun < 8) :
    (slcLun (setSlc a lun plane block page)).toNat = lun := by
  unfold slcLun setSlc setSlcPage setSlcBlock setSlcPlane setSlcLun
  rw [getField_setField_of_disjoint _ _ (by decide) (by decide),
    getField_setField_of_disjoint _ _ (by decide) (by decide),
    getField_setField_of_disjoint _ _ (by decide) (by decide),
    getField_setField _ _ (by decide)]
  exact Nat.mod_eq_of_lt h

theorem slcPlane_setSlc (a : BitVec 64) (lun block page : Nat) {plane : Nat} (h : plane < 2) :
    (slcPlane (setSlc a lun plane block page)).toNat = plane := by
  unfold slcPlane setSlc setSlcPage setSlcBlock setSlcPlane
  rw [getField_setField_of_disjoint _ _ (by decide) (by decide),
    getField_setField_of_disjoint _ _ (by decide) (by decide),
    getField_setField _ _ (by decide)]
  exact Nat.mod_eq_of_lt h

theorem slcBlock_setSlc (a : BitVec 64) (lun plane page : Nat) {block : Nat} (h : block < 1024) :
    (slcBlock (setSlc a lun plane block page)).toNat = block := by
  unfold slcBlock setSlc setSlcPage setSlcBlock
  rw [getField_setField_of_disjoint _ _ (by decide) (by decide),
    getField_setField _ _ (by decide)]
  exact Nat.mod_eq_of_lt h

theorem slcPage_setSlc (a : BitVec 64) (lun plane block : Nat) {page : Nat} (h : page < 512) :
    (slcPage (setSlc a lun plane block page)).toNat = page := by
  unfold slcPage setSlc setSlcPage
  rw [getField_setField _ _ (by decide)]
  exact Nat.mod_eq_of_lt h

end OpenSSDEmu.L2.Fcl
