import OpenSSDEmu.Core.Bitmap

/-!
# Host command entries

`hcl/hcl.h` and `hcl/hcl.c`: 256 `host_cmd_entry` records and the bitmap
`hcmd_map` that says which are allocated. A `host_cmd_entry *` is modelled
by the entry's index (`HCL_get_hcmd_entry_index` / `HCL_get_hcmd_entry_addr`
convert between the two).

The allocator lemmas (`getHostCmdEntry_some`, `getHostCmdEntry_none`,
`reclaim_bit`) speak of the bit of an index, never of a word.
-/
namespace OpenSSDEmu.L2.Hcl

/-- mirrors src/hcl/hcl.h:8 -/
def HCMD_NUM : Nat := 256

/-- mirrors src/hcl/hcl.h:12-17; `unset` is the 0 that `memset` leaves, which
is no enumerator. -/
inductive HcmdOpcode | unset | read | write | erase
  deriving DecidableEq, Repr

/-- The value stored in the 2-bit `op` field of a submission queue entry. -/
def HcmdOpcode.toNat : HcmdOpcode → Nat
  | .unset => 0
  | .read => 1
  | .write => 2
  | .erase => 3

/-- mirrors src/hcl/hcl.h:19-29; `HCE_INIT` only counts the others. -/
inductive Status | checkCache | toSq | dataMoved | fromCq | finish | waitCq
  deriving DecidableEq, Repr

/-- mirrors src/hcl/hcl.h:31-61 (`NORMAL_MODE`) -/
structure HostCmdEntry where
  nvmeStartLba : UInt32
  nvmeReqNum : UInt32
  startLpa : UInt32
  curLpn : UInt32
  modStartLA : UInt16
  modReqNum : UInt16
  startUnalignSqindex : UInt16
  endUnalignSqindex : UInt16
  reqNum : UInt32
  curCnt : UInt32
  cplCnt : UInt32
  sendSqCnt : UInt32
  bufCnt : UInt32
  nvmeDmaCpl : UInt32
  nvmeCmdSlot : UInt32
  opCode : HcmdOpcode
  status : Status
  emuId : UInt32
  deriving DecidableEq, Repr

/-- `memset(hcmd_entry, 0, sizeof(host_cmd_entry))` -/
def HostCmdEntry.zero : HostCmdEntry :=
  ⟨0, 0, 0, 0, 0, 0, 0, 0, 0, 0, 0, 0, 0, 0, 0, .unset, .checkCache, 0⟩

/-- `hcmd_queue` and `hcmd_map`. -/
structure HcmdPool where
  queue : Nat → HostCmdEntry
  map : Bitmap.Words

/-- mirrors src/hcl/hcl.c:25-32 -/
def initHostCmdEntryQueue : HcmdPool := ⟨fun _ => .zero, fun _ => 0#32⟩

/-- The `hcmd_map` bit of entry `i`. -/
def bit (h : HcmdPool) (i : Nat) : Bool := Bitmap.get h.map i

/-- How many entries are handed out. -/
def allocated (h : HcmdPool) : Nat := (List.range HCMD_NUM).countP (bit h)

def setEntry (h : HcmdPool) (i : Nat) (e : HostCmdEntry) : HcmdPool :=
  { h with queue := fun j => if j = i then e else h.queue j }

/-- `TRUE` exactly when no entry is free.
mirrors src/hcl/hcl.c:34-48 -/
def hcmdQueueEmpty (h : HcmdPool) : Bool := (Bitmap.findClear h.map (HCMD_NUM / 32)).isNone

/-- `none` = `NULL`.
mirrors src/hcl/hcl.c:58-91 -/
def getHostCmdEntry (h : HcmdPool) : Option Nat × HcmdPool :=
  match Bitmap.findClear h.map (HCMD_NUM / 32) with
  | some (i, j) => (some (i * 32 + j), { h with map := Bitmap.setBit h.map i j })
  | none => (none, h)

/-- mirrors src/hcl/hcl.c:132-143 -/
def reclaimHcmdEntry (h : HcmdPool) (index : Nat) : HcmdPool :=
  setEntry { h with map := Bitmap.clearBit h.map (index / 32) (index % 32) } index .zero

/-! ## Specifications -/

@[simp] theorem setEntry_queue (h : HcmdPool) (i j : Nat) (e : HostCmdEntry) :
    (setEntry h i e).queue j = if j = i then e else h.queue j := rfl

@[simp] theorem setEntry_bit (h : HcmdPool) (i j : Nat) (e : HostCmdEntry) :
    bit (setEntry h i e) j = bit h j := rfl

theorem bit_init (i : Nat) : bit initHostCmdEntryQueue i = false := Bitmap.get_zero i

/-- A successful allocation returns a free index below 256 and marks only it. -/
theorem getHostCmdEntry_some {h h' : HcmdPool} {i : Nat} (e : getHostCmdEntry h = (some i, h')) :
    i < HCMD_NUM ∧ bit h i = false ∧ (∀ k, k < i → bit h k = true) ∧
      (∀ k, bit h' k = (decide (k = i) || bit h k)) ∧ h'.queue = h.queue := by
  unfold getHostCmdEntry at e
  split at e
  · rename_i w b hf
    obtain ⟨hw, hb, hclear, hmin⟩ := Bitmap.findClear_some hf
    simp only [Prod.mk.injEq, Option.some.injEq] at e
    obtain ⟨rfl, rfl⟩ := e
    rw [Nat.mul_comm w 32]
    refine ⟨?_, hclear, hmin, fun k => Bitmap.get_setBit _ _ _ _ hb, rfl⟩
    unfold HCMD_NUM at *; omega
  · simp at e

/-- Allocation fails only when all 256 entries are taken, and changes nothing. -/
theorem getHostCmdEntry_none {h h' : HcmdPool} (e : getHostCmdEntry h = (none, h')) :
    (∀ k, k < HCMD_NUM → bit h k = true) ∧ h' = h := by
  unfold getHostCmdEntry at e
  split at e
  · simp at e
  · rename_i hf
    simp only [Prod.mk.injEq, true_and] at e
    exact ⟨fun k hk => Bitmap.findClear_none hf k (by unfold HCMD_NUM at *; omega), e.symm⟩

theorem allocated_le (h : HcmdPool) : allocated h ≤ HCMD_NUM := by
  simpa [allocated] using List.countP_le_length (p := bit h) (l := List.range HCMD_NUM)

theorem allocated_full {h : HcmdPool} : allocated h = HCMD_NUM ↔ ∀ i, i < HCMD_NUM → bit h i = true := by
  have := List.countP_eq_length (p := bit h) (l := List.range HCMD_NUM)
  simpa [allocated] using this

/-- Allocation succeeds as long as an entry is free. -/
theorem getHostCmdEntry_of_lt {h : HcmdPool} (hl : allocated h < HCMD_NUM) :
    ∃ i h', getHostCmdEntry h = (some i, h') := by
  rcases e : getHostCmdEntry h with ⟨_ | i, h'⟩
  · have := allocated_full.mpr (getHostCmdEntry_none e).1
    omega
  · exact ⟨i, h', rfl⟩

theorem getHostCmdEntry_of_full {h : HcmdPool} (hl : HCMD_NUM ≤ allocated h) :
    ∃ h', getHostCmdEntry h = (none, h') := by
  rcases e : getHostCmdEntry h with ⟨_ | i, h'⟩
  · exact ⟨h', rfl⟩
  · obtain ⟨hi, hfree, -⟩ := getHostCmdEntry_some e
    have hall := allocated_full.mp (Nat.le_antisymm (allocated_le h) hl)
    rw [hall i hi] at hfree
    cases hfree

theorem reclaim_bit (h : HcmdPool) (i k : Nat) :
    bit (reclaimHcmdEntry h i) k = (!decide (k = i) && bit h k) := by
  have := Bitmap.get_clearBit h.map (i / 32) (i % 32) k (Nat.mod_lt _ (by decide))
  rw [Nat.div_add_mod] at this
  exact this

@[simp] theorem reclaim_queue (h : HcmdPool) (i k : Nat) :
    (reclaimHcmdEntry h i).queue k = if k = i then .zero else h.queue k := rfl

end OpenSSDEmu.L2.Hcl
