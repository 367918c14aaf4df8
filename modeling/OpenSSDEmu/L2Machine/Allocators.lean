import OpenSSDEmu.Core.LTS
import OpenSSDEmu.Core.Memory
import OpenSSDEmu.L2Machine.Fcl

/-!
# The bitmap allocators in memory

The allocators of `hcl/hcl.c` and `fcl/fcl.c` on the words of the simulated
DRAM, with the addresses of `config/mem.h`: the bitmap of the host command
entries lies behind the 256 entries, those of the channels back to back behind
the submission queues. `HcmdPool` and `SqPool` are what the two modules see of
this memory (`View`), and the set of taken indices is what a caller sees of
them (`Marks`).

Of the entry records only the address range is here, since a `memset` of a
record must not reach a bitmap; their contents are in `Hcl` and `Fcl`.
-/
namespace OpenSSDEmu.L2.Alloc
open Memory
open Hcl (HcmdPool HCMD_NUM)
open Fcl (SqPool HW_QUEUE_DEPTH TOTAL_CHANNEL)

/-! ## Addresses -/

def KB : Nat := 1024
def MB : Nat := 1024 * KB

/-- `sizeof(host_cmd_entry)`: sixteen words.
mirrors src/hcl/hcl.h:31-61 -/
def HCMD_SIZE : Nat := 64

/-- mirrors src/config/mem.h:63-64,71,77 -/
def SQ_ENTRY_SZ_PER_CHANNEL : Nat := 4 * KB
def SQ_BITMAP_SZ_PER_CHANNEL : Nat := 32
def CQ_ENTRY_SZ_PER_CHANNEL : Nat := 4 * KB
def HCMD_BASE : Nat := 8 * MB

/-- mirrors src/config/mem.h:66-67,72 -/
def HW_CH_SQ_ENTRY : Nat := 6 * MB
def HW_CH_SQ_BITMAP : Nat := HW_CH_SQ_ENTRY + TOTAL_CHANNEL * SQ_ENTRY_SZ_PER_CHANNEL
def HW_CH_CQ_ENTRY : Nat := 7 * MB

/-- mirrors src/config/config.h:75 -/
def INVALID_INDEX : BitVec 32 := 0xffffffff#32

/-- A bitmap: that of the host command entries or that of a channel. -/
inductive Table
  | hcmd
  | sq (ch : Nat)
  deriving DecidableEq

namespace Table

/-- The bitmaps there are. -/
def Real : Table → Prop
  | hcmd => True
  | sq ch => ch < TOTAL_CHANNEL

instance : DecidablePred Real := fun k => match k with
  | hcmd => inferInstanceAs (Decidable True)
  | sq ch => inferInstanceAs (Decidable (ch < TOTAL_CHANNEL))

/-- mirrors src/hcl/hcl.c:28 and src/fcl/fcl.c:118 -/
def off : Table → Nat
  | hcmd => HCMD_BASE + HCMD_SIZE * HCMD_NUM
  | sq ch => HW_CH_SQ_BITMAP + ch * SQ_BITMAP_SZ_PER_CHANNEL

def base (mb : BitVec 32) (k : Table) : BitVec 32 := addr mb k.off

end Table

section
variable (mb : BitVec 32)

/-! ## The functions -/

/-- mirrors src/hcl/hcl.c:120-125 -/
def getHcmdEntryIndex (p : BitVec 32) : BitVec 32 := (p - addr mb HCMD_BASE) / BitVec.ofNat 32 HCMD_SIZE

/-- mirrors src/hcl/hcl.c:153-157 -/
def getHcmdEntryAddr (i : Nat) : BitVec 32 := addr mb (HCMD_BASE + HCMD_SIZE * i)

/-- mirrors src/hcl/hcl.c:25-32 -/
def initHostCmdEntryQueue (m : Mem) : Mem :=
  let m := memset m (addr mb HCMD_BASE) 0 (HCMD_SIZE * HCMD_NUM)
  memset m (Table.hcmd.base mb) 0 HCMD_NUM

/-- mirrors src/hcl/hcl.c:34-48 -/
def hcmdQueueEmpty (m : Mem) : Bool :=
  (Bitmap.findClear (words m (Table.hcmd.base mb)) (HCMD_NUM / 32)).isNone

/-- `index` starts as -1, which the test at the end tells from an index by its
first half alone. `none` = `NULL`.
mirrors src/hcl/hcl.c:58-91 -/
def getHostCmdEntry (m : Mem) : Option (BitVec 32) × Mem :=
  let p := Table.hcmd.base mb
  let (index, m) := match Bitmap.findClear (words m p) (HCMD_NUM / 32) with
    | some (i, j) => (BitVec.ofNat 32 (i * 32 + j), setWord m p i (words m p i ||| (1#32 <<< j)))
    | none => (-1#32, m)
  if index ≠ -1#32 ∨ index.toNat < HCMD_NUM then (some (getHcmdEntryAddr mb index.toNat), m) else (none, m)

/-- mirrors src/hcl/hcl.c:132-143 -/
def reclaimHcmdEntry (m : Mem) (hcmdEntry : BitVec 32) : Mem :=
  let p := Table.hcmd.base mb
  let index := (getHcmdEntryIndex mb hcmdEntry).toNat
  let m := setWord m p (index / 32) (words m p (index / 32) &&& ~~~(1#32 <<< (index % 32)))
  memset m hcmdEntry 0 HCMD_SIZE

/-- Store into the 8 bits from bit `b` of a word on. -/
def setByte (m : Mem) (p : BitVec 32) (i b v : Nat) : Mem :=
  setWord m p i ((words m p i &&& ~~~(0xff#32 <<< b)) ||| ((BitVec.ofNat 8 v).setWidth 32 <<< b))

/-- The round of channel `i`; `FCL_set_hw_base_addr` writes to registers.
mirrors src/fcl/fcl.c:84-96 -/
def initHwChannel (m : Mem) (i : Nat) : Mem :=
  let sq := addr mb (HW_CH_SQ_ENTRY + i * SQ_ENTRY_SZ_PER_CHANNEL)
  let m := memset m sq 0 (16 * HW_QUEUE_DEPTH)
  let m := (List.range HW_QUEUE_DEPTH).foldl (fun m j =>
    setByte (setByte m sq (4 * j + 3) 24 (j + 1)) sq (4 * j) 0 j) m
  let m := setByte m sq (4 * (HW_QUEUE_DEPTH - 1) + 3) 24 (HW_QUEUE_DEPTH - 1)
  let m := memset m ((Table.sq i).base mb) 0 (HW_QUEUE_DEPTH / 8)
  memset m (addr mb (HW_CH_CQ_ENTRY + i * CQ_ENTRY_SZ_PER_CHANNEL)) 0xffffffff (16 * HW_QUEUE_DEPTH)

/-- mirrors src/fcl/fcl.c:80-98 -/
def initHwQueue (m : Mem) : Mem := (List.range TOTAL_CHANNEL).foldl (initHwChannel mb) m

/-- mirrors src/fcl/fcl.c:114-143 -/
def getFreeSQEntry (m : Mem) (ch : Nat) : BitVec 32 × Mem :=
  let p := (Table.sq ch).base mb
  match Bitmap.findClear (words m p) (HW_QUEUE_DEPTH / 32) with
  | some (i, j) => (BitVec.ofNat 32 (32 * i + j), setWord m p i (words m p i ||| (1#32 <<< j)))
  | none => (INVALID_INDEX, m)

/-- mirrors src/fcl/fcl.c:145-160 -/
def sqEmpty (m : Mem) (ch : Nat) : Bool :=
  (Bitmap.findClear (words m ((Table.sq ch).base mb)) (HW_QUEUE_DEPTH / 32)).isNone

/-- mirrors src/fcl/fcl.c:267-278 -/
def freeSQEntry (m : Mem) (ch : Nat) (index : BitVec 32) : Mem :=
  let p := (Table.sq ch).base mb
  let index := index.toNat
  setWord m p (index / 32) (words m p (index / 32) &&& ~~~(1#32 <<< (index % 32)))

end

/-! ## What the modules see -/

/-- The words of the bitmaps in `m` are those of `w`. -/
def Sees (mb : BitVec 32) (m : Mem) (w : Table → Bitmap.Words) : Prop :=
  ∀ k : Table, k.Real → ∀ i, i < 8 → words m (k.base mb) i = w k i

/-- The bitmaps of the two modules. -/
def maps (h : HcmdPool) (f : SqPool) : Table → Bitmap.Words
  | .hcmd => h.map
  | .sq ch => f.bitmap ch

def View (mb : BitVec 32) (m : Mem) (h : HcmdPool) (f : SqPool) : Prop := Sees mb m (maps h f)

section
variable {mb v : BitVec 32} {m : Mem} {h : HcmdPool} {f : SqPool} {w w' : Table → Bitmap.Words}
  {k k' : Table} {i j n p ch : Nat}

theorem off_hcmd : Table.hcmd.off = 8 * MB + 16 * KB := rfl

theorem off_sq (ch : Nat) : (Table.sq ch).off = 6 * MB + 16 * KB + ch * 32 := rfl

/-- The bitmaps lie behind the submission queues. -/
theorem Table.off_ge (k : Table) : 6 * MB + 16 * KB ≤ k.off := by
  cases k with
  | hcmd => decide
  | sq ch => exact Nat.le_add_right _ _

theorem Table.off_le (hk : k.Real) : k.off + 32 ≤ 9 * MB := by
  cases k with
  | hcmd => decide
  | sq ch =>
    have hk : ch < 4 := hk
    simp only [off_sq, MB, KB]
    omega

/-- No two words of the bitmaps share an address. -/
theorem Table.off_inj (hk : k.Real) (hk' : k'.Real) (hi : i < 8) (hj : j < 8) :
    k'.off + 4 * j = k.off + 4 * i ↔ k' = k ∧ j = i := by
  cases k <;> cases k' <;>
    simp only [Real, off_hcmd, off_sq, TOTAL_CHANNEL, MB, KB, sq.injEq, reduceCtorEq, true_and, false_and,
      iff_false] at * <;> omega

theorem Table.addr_lt (hk : k.Real) (hi : i < 8) : k.off + 4 * i < 2 ^ 32 := by
  have := k.off_le hk
  simp only [MB, KB] at this
  omega

theorem Sees.congr (hs : Sees mb m w) (he : ∀ k : Table, k.Real → ∀ i, i < 8 → w k i = w' k i) :
    Sees mb m w' := fun k hk i hi => (hs k hk i hi).trans (he k hk i hi)

theorem Sees.findClear (hs : Sees mb m w) (hk : k.Real) :
    Bitmap.findClear (words m (k.base mb)) 8 = Bitmap.findClear (w k) 8 :=
  Bitmap.findClear_congr fun i hi => hs k hk i hi

/-- Storing a word of one bitmap. -/
theorem Sees.setWord (hs : Sees mb m w) (hk : k.Real) (hi : i < 8) (v : BitVec 32) :
    Sees mb (setWord m (k.base mb) i v) fun k' j => if k' = k ∧ j = i then v else w k' j := by
  intro k' hk' j hj
  simp only [Table.base, words_addr, setWord_addr (k'.addr_lt hk' hj) (k.addr_lt hk hi),
    Table.off_inj hk hk' hi hj]
  exact if_congr Iff.rfl rfl ((words_addr ..).symm.trans (hs k' hk' j hj))

/-- A `memset` of a range that meets no bitmap. -/
theorem Sees.outside (hs : Sees mb m w) (hp : p + n ≤ 2 ^ 32)
    (hd : ∀ k : Table, k.Real → k.off + 32 ≤ p ∨ p + n ≤ k.off) : Sees mb (memset m (addr mb p) v n) w := by
  intro k hk i hi
  rw [Table.base, words_addr, memset_addr (k.addr_lt hk hi) hp, if_neg]
  · exact (words_addr ..).symm.trans (hs k hk i hi)
  · rcases hd k hk with hd | hd <;> omega

/-! ## The modules' functions on memory -/

/-- The index is that of the entry at the address. -/
theorem getHcmdEntryIndex_addr (mb : BitVec 32) (hi : i < HCMD_NUM) :
    getHcmdEntryIndex mb (getHcmdEntryAddr mb i) = BitVec.ofNat 32 i := by
  rw [getHcmdEntryIndex, getHcmdEntryAddr, addr_sub mb (Nat.le_add_right _ _), Nat.add_sub_cancel_left]
  apply BitVec.eq_of_toNat_eq
  simp only [HCMD_NUM, HCMD_SIZE, BitVec.toNat_udiv, BitVec.toNat_ofNat, Nat.reducePow,
    Nat.reduceMod] at hi ⊢
  omega

theorem toNat_index (hi : i < 256) : (BitVec.ofNat 32 i).toNat = i :=
  Nat.mod_eq_of_lt (Nat.lt_trans hi (by decide))

theorem View.setBit {g : HcmdPool} {e : SqPool} (hv : View mb m h f) (hk : k.Real) (hi : i < 8)
    (he : maps g e = fun k' => if k' = k then Bitmap.setBit (maps h f k) i j else maps h f k') :
    View mb (setWord m (k.base mb) i (words m (k.base mb) i ||| (1#32 <<< j))) g e := by
  refine (Sees.setWord hv hk hi _).congr fun k' hk' i' hi' => ?_
  rw [he, hv k hk i hi]
  by_cases hkk : k' = k
  · subst hkk; simp [Bitmap.setBit]
  · simp [hkk]

theorem View.clearBit {g : HcmdPool} {e : SqPool} (hv : View mb m h f) (hk : k.Real) (hi : i < 8)
    (he : maps g e = fun k' => if k' = k then Bitmap.clearBit (maps h f k) i j else maps h f k') :
    View mb (setWord m (k.base mb) i (words m (k.base mb) i &&& ~~~(1#32 <<< j))) g e := by
  refine (Sees.setWord hv hk hi _).congr fun k' hk' i' hi' => ?_
  rw [he, hv k hk i hi]
  by_cases hkk : k' = k
  · subst hkk; simp [Bitmap.clearBit]
  · simp [hkk]

theorem getHostCmdEntry_view (hv : View mb m h f) :
    (getHostCmdEntry mb m).1 = (Hcl.getHostCmdEntry h).1.map (getHcmdEntryAddr mb) ∧
      View mb (getHostCmdEntry mb m).2 (Hcl.getHostCmdEntry h).2 f ∧
      ((Hcl.getHostCmdEntry h).1 = none → (getHostCmdEntry mb m).2 = m) := by
  have hscan := Sees.findClear hv (k := .hcmd) trivial
  simp only [maps] at hscan
  simp only [getHostCmdEntry, Hcl.getHostCmdEntry, show HCMD_NUM / 32 = 8 from rfl, hscan]
  cases hf : Bitmap.findClear h.map 8 with
  | none =>
    have hfail : ¬ (-1#32 ≠ -1#32 ∨ (-1#32).toNat < HCMD_NUM) := by decide
    simp only [if_neg hfail]
    exact ⟨rfl, hv, fun _ => trivial⟩
  | some ij =>
    obtain ⟨i, j⟩ := ij
    obtain ⟨hi, hj, -, -⟩ := Bitmap.findClear_some hf
    have hlt : i * 32 + j < 256 := by omega
    have hok : BitVec.ofNat 32 (i * 32 + j) ≠ -1#32 ∨ i * 32 + j < HCMD_NUM := .inr hlt
    simp only [toNat_index hlt, if_pos hok]
    refine ⟨rfl, hv.setBit (k := .hcmd) trivial hi ?_, fun e => by cases e⟩
    funext k
    cases k <;> simp [maps]

theorem getFreeSQEntry_view (hv : View mb m h f) (hch : ch < TOTAL_CHANNEL) :
    (getFreeSQEntry mb m ch).1 = (Fcl.getFreeSQEntry f ch).1.elim INVALID_INDEX (BitVec.ofNat 32) ∧
      View mb (getFreeSQEntry mb m ch).2 h (Fcl.getFreeSQEntry f ch).2 ∧
      ((Fcl.getFreeSQEntry f ch).1 = none → (getFreeSQEntry mb m ch).2 = m) := by
  have hscan := Sees.findClear hv (k := .sq ch) hch
  simp only [maps] at hscan
  simp only [getFreeSQEntry, Fcl.getFreeSQEntry, show HW_QUEUE_DEPTH / 32 = 8 from rfl, hscan]
  cases hf : Bitmap.findClear (f.bitmap ch) 8 with
  | none => exact ⟨rfl, hv, fun _ => rfl⟩
  | some ij =>
    obtain ⟨i, j⟩ := ij
    obtain ⟨hi, hj, -, -⟩ := Bitmap.findClear_some hf
    refine ⟨rfl, hv.setBit (k := .sq ch) hch hi ?_, fun e => by cases e⟩
    funext k
    cases k <;> simp [maps]

theorem reclaimHcmdEntry_view (hv : View mb m h f) (hi : i < HCMD_NUM) :
    View mb (reclaimHcmdEntry mb m (getHcmdEntryAddr mb i)) (Hcl.reclaimHcmdEntry h i) f := by
  have hi' : i < 256 := hi
  simp only [reclaimHcmdEntry, getHcmdEntryIndex_addr mb hi, toNat_index hi']
  have hword := hv.clearBit (k := .hcmd) (i := i / 32) (j := i % 32) (g := Hcl.reclaimHcmdEntry h i) (e := f)
    trivial (by omega) (by funext k; cases k <;> simp [maps, Hcl.reclaimHcmdEntry, Hcl.setEntry])
  -- the record lies between the submission queues and the bitmap of the entries
  refine Sees.outside hword ?_ fun k hk => ?_
  · simp only [HCMD_BASE, HCMD_SIZE, MB, KB]
    omega
  · cases k <;> simp only [Table.Real, off_hcmd, off_sq, HCMD_BASE, HCMD_SIZE, TOTAL_CHANNEL, MB,
      KB] at * <;> omega

theorem freeSQEntry_view (hv : View mb m h f) (hch : ch < TOTAL_CHANNEL) (hi : i < HW_QUEUE_DEPTH) :
    View mb (freeSQEntry mb m ch (BitVec.ofNat 32 i)) h (Fcl.freeSQEntry f ch i) := by
  have hi' : i < 256 := hi
  simp only [freeSQEntry, toNat_index hi']
  refine hv.clearBit (k := .sq ch) hch (by omega) ?_
  funext k
  cases k <;> simp [maps, Fcl.freeSQEntry]

theorem hcmdQueueEmpty_view (hv : View mb m h f) : hcmdQueueEmpty mb m = Hcl.hcmdQueueEmpty h := by
  have hscan := Sees.findClear hv (k := .hcmd) trivial
  rw [hcmdQueueEmpty, Hcl.hcmdQueueEmpty, show HCMD_NUM / 32 = 8 from rfl, hscan]
  rfl

theorem sqEmpty_view (hv : View mb m h f) (hch : ch < TOTAL_CHANNEL) :
    sqEmpty mb m ch = Fcl.sqEmpty f ch := by
  have hscan := Sees.findClear hv (k := .sq ch) hch
  rw [sqEmpty, Fcl.sqEmpty, show HW_QUEUE_DEPTH / 32 = 8 from rfl, hscan]
  rfl

/-! ## Initialisation -/

/-- A `memset` from the start of one bitmap that reaches no other. -/
theorem Sees.clear (hs : Sees mb m w) (hk : k.Real) (hn : 32 ≤ n) (hp : k.off + n ≤ 2 ^ 32)
    (hd : ∀ k' : Table, k'.Real → k' ≠ k → k'.off + 32 ≤ k.off ∨ k.off + n ≤ k'.off) :
    Sees mb (memset m (k.base mb) 0 n) fun k' => if k' = k then fun _ => 0#32 else w k' := by
  intro k' hk' i hi
  by_cases hkk : k' = k
  · subst hkk
    rw [Table.base, words_addr, memset_addr (k'.addr_lt hk' hi) hp, if_pos (by omega)]
    simp
  · rw [Table.base, Table.base, words_addr, memset_addr (k'.addr_lt hk' hi) hp, if_neg]
    · simp only [if_neg hkk]
      exact (words_addr ..).symm.trans (hs k' hk' i hi)
    · rcases hd k' hk' hkk with hd | hd <;> omega

/-- A store outside the bitmaps. -/
theorem Sees.setByte {b c : Nat} (hs : Sees mb m w) (hp : p + 4 * i < 2 ^ 32)
    (hd : ∀ k : Table, k.Real → k.off + 32 ≤ p + 4 * i ∨ p + 4 * i + 4 ≤ k.off) :
    Sees mb (setByte m (addr mb p) i b c) w := by
  intro k hk j hj
  rw [Alloc.setByte, Table.base, words_addr, setWord_addr (k.addr_lt hk hj) hp, if_neg]
  · exact (words_addr ..).symm.trans (hs k hk j hj)
  · rcases hd k hk with hd | hd <;> omega

theorem Sees.foldl {g : Mem → Nat → Mem} {l : List Nat}
    (hg : ∀ m a, a ∈ l → Sees mb m w → Sees mb (g m a) w) (hs : Sees mb m w) : Sees mb (l.foldl g m) w := by
  induction l generalizing m with
  | nil => exact hs
  | cons a l ih =>
    exact ih (fun m b hb => hg m b (List.mem_cons_of_mem _ hb)) (hg m a List.mem_cons_self hs)

theorem initHwChannel_sees (hs : Sees mb m w) (hch : ch < TOTAL_CHANNEL) :
    Sees mb (initHwChannel mb m ch) fun k => if k = .sq ch then fun _ => 0#32 else w k := by
  have hch : ch < 4 := hch
  -- the channel's submission queue lies before the bitmaps, its completion queue behind those of the channels
  have hqueue : ∀ k : Table, HW_CH_SQ_ENTRY + ch * SQ_ENTRY_SZ_PER_CHANNEL + 4096 ≤ k.off := by
    refine fun k => Nat.le_trans ?_ k.off_ge
    simp only [HW_CH_SQ_ENTRY, SQ_ENTRY_SZ_PER_CHANNEL, MB, KB]
    omega
  have hend : HW_CH_SQ_ENTRY + ch * SQ_ENTRY_SZ_PER_CHANNEL + 4096 < 2 ^ 32 := by
    simp only [HW_CH_SQ_ENTRY, SQ_ENTRY_SZ_PER_CHANNEL, MB, KB]
    omega
  have hbyte : ∀ (m : Mem) (i b c : Nat), i < 1024 → Sees mb m w →
      Sees mb (setByte m (addr mb (HW_CH_SQ_ENTRY + ch * SQ_ENTRY_SZ_PER_CHANNEL)) i b c) w := by
    refine fun m i b c hi hs => Sees.setByte hs (by omega) fun k hk => .inr ?_
    have := hqueue k
    omega
  have h1 : Sees mb (memset m (addr mb (HW_CH_SQ_ENTRY + ch * SQ_ENTRY_SZ_PER_CHANNEL)) 0 (16 * HW_QUEUE_DEPTH)) w :=
    Sees.outside hs (Nat.le_of_lt hend) fun k _ => .inr (hqueue k)
  have h2 := Sees.foldl (l := List.range HW_QUEUE_DEPTH) (fun m j hj hs => by
    have hj : j < 256 := List.mem_range.mp hj
    exact hbyte _ (4 * j) 0 j (by omega) (hbyte m (4 * j + 3) 24 (j + 1) (by omega) hs)) h1
  have h3 := hbyte _ (4 * (HW_QUEUE_DEPTH - 1) + 3) 24 (HW_QUEUE_DEPTH - 1) (by decide) h2
  refine Sees.outside (Sees.clear h3 (k := .sq ch) (n := HW_QUEUE_DEPTH / 8) hch (by decide) ?_ fun k hk hne => ?_)
    ?_ fun k hk => ?_
  · simp only [off_sq, HW_QUEUE_DEPTH, MB, KB]
    omega
  · cases k <;> simp only [Table.Real, off_hcmd, off_sq, HW_QUEUE_DEPTH, MB, KB, ne_eq,
      Table.sq.injEq] at * <;> omega
  · simp only [HW_CH_CQ_ENTRY, CQ_ENTRY_SZ_PER_CHANNEL, HW_QUEUE_DEPTH, MB, KB]
    omega
  · cases k <;> simp only [Table.Real, off_hcmd, off_sq, HW_CH_CQ_ENTRY, CQ_ENTRY_SZ_PER_CHANNEL, HW_QUEUE_DEPTH,
      TOTAL_CHANNEL, MB, KB] at * <;> omega

/-- Both modules start with clear bitmaps. -/
theorem init_view (mb : BitVec 32) (m : Mem) :
    View mb (initHwQueue mb (initHostCmdEntryQueue mb m)) Hcl.initHostCmdEntryQueue Fcl.initHwQueue := by
  have hany : Sees mb (memset m (addr mb HCMD_BASE) 0 (HCMD_SIZE * HCMD_NUM))
      fun k => words (memset m (addr mb HCMD_BASE) 0 (HCMD_SIZE * HCMD_NUM)) (k.base mb) :=
        fun _ _ _ _ => rfl
  have hhcl : Sees mb (initHostCmdEntryQueue mb m) _ :=
    Sees.clear hany (k := .hcmd) (n := HCMD_NUM) trivial (by decide) (by decide) fun k hk hne => by
      cases k with
      | hcmd => exact absurd rfl hne
      | sq ch =>
        simp only [Table.Real, off_hcmd, off_sq, TOTAL_CHANNEL, MB, KB] at *
        omega
  have h0 := initHwChannel_sees hhcl (show 0 < TOTAL_CHANNEL by decide)
  have h1 := initHwChannel_sees h0 (show 1 < TOTAL_CHANNEL by decide)
  have h2 := initHwChannel_sees h1 (show 2 < TOTAL_CHANNEL by decide)
  have h3 := initHwChannel_sees h2 (show 3 < TOTAL_CHANNEL by decide)
  refine Sees.congr (m := initHwQueue mb (initHostCmdEntryQueue mb m)) h3 fun k hk i _ => ?_
  cases k with
  | hcmd => simp [maps, Hcl.initHostCmdEntryQueue]
  | sq ch =>
    have hch : ch < 4 := hk
    simp only [maps, Fcl.initHwQueue, Table.sq.injEq]
    split_ifs <;> first | rfl | omega

end

/-! ## The allocators as sets of taken indices -/

abbrev Taken := Table → Nat → Bool

/-- The smallest index below 256 that is not taken. -/
def firstFree (t : Nat → Bool) : Option Nat := (List.range 256).find? fun i => !t i

def mark (t : Taken) (k : Table) (i : Nat) (b : Bool) : Taken :=
  fun k' i' => if k' = k ∧ i' = i then b else t k' i'

inductive AllocOp
  | alloc (k : Table)
  | free (k : Table) (i : Nat)

/-- What the functions return: the address of an entry, or an index. -/
inductive Reply
  | entry (hcmdEntry : Option (BitVec 32))
  | index (i : BitVec 32)
  | done

def Table.reply (mb : BitVec 32) (i : Option Nat) : Table → Reply
  | hcmd => .entry (i.map (getHcmdEntryAddr mb))
  | sq _ => .index (i.elim INVALID_INDEX (BitVec.ofNat 32))

namespace AllocOp

/-- A free is of a taken index. -/
def Ok (t : Taken) : AllocOp → Prop
  | alloc k => k.Real
  | free k i => k.Real ∧ t k i = true

/-- The call on the memory. -/
def exec (mb : BitVec 32) (m : Mem) : AllocOp → Reply × Mem
  | alloc .hcmd => (.entry (getHostCmdEntry mb m).1, (getHostCmdEntry mb m).2)
  | alloc (.sq ch) => (.index (getFreeSQEntry mb m ch).1, (getFreeSQEntry mb m ch).2)
  | free .hcmd i => (.done, reclaimHcmdEntry mb m (getHcmdEntryAddr mb i))
  | free (.sq ch) i => (.done, freeSQEntry mb m ch (BitVec.ofNat 32 i))

/-- The call on the sets of taken indices. -/
def spec (mb : BitVec 32) (t : Taken) : AllocOp → Reply × Taken
  | alloc k => (k.reply mb (firstFree (t k)), (firstFree (t k)).elim t fun i => mark t k i true)
  | free k i => (.done, mark t k i false)

end AllocOp

/-- Bit `i` of a bitmap in memory. -/
def bit (mb : BitVec 32) (m : Mem) (k : Table) (i : Nat) : Bool := Bitmap.get (words m (k.base mb)) i

/-- The bitmaps of `m`, as the two modules see them, mark the indices of `t`. -/
structure Marks (mb : BitVec 32) (m : Mem) (t : Taken) : Prop where
  view : ∃ h f, View mb m h f ∧ ∀ k : Table, k.Real → ∀ i, i < 256 → Bitmap.get (maps h f k) i = t k i
  bound : ∀ k i, t k i = true → i < 256

section
variable {mb : BitVec 32} {m : Mem} {t : Taken} {k : Table} {i : Nat} {w w' : Table → Bitmap.Words}

theorem firstFree_eq_some {t : Nat → Bool} :
    firstFree t = some i ↔ i < 256 ∧ t i = false ∧ ∀ j, j < i → t j = true := by
  rw [firstFree, List.find?_range_eq_some]
  simp only [Bool.not_eq_true', List.mem_range, Bool.not_not]
  tauto

theorem firstFree_eq_none {t : Nat → Bool} : firstFree t = none ↔ ∀ i, i < 256 → t i = true := by
  rw [firstFree, List.find?_eq_none]
  simp only [List.mem_range, Bool.not_eq_true', Bool.not_eq_false]

theorem mark_bound (hb : ∀ k i, t k i = true → i < 256) {b : Bool} (hi : i < 256) :
    ∀ k' i', mark t k i b k' i' = true → i' < 256 := by
  intro k' i' hm
  unfold mark at hm
  split at hm
  · rename_i e; rw [e.2]; exact hi
  · exact hb k' i' hm

theorem Marks.bits (hm : Marks mb m t) (hk : k.Real) (hi : i < 256) : bit mb m k i = t k i := by
  obtain ⟨⟨h, f, hv, ht⟩, -⟩ := hm
  rw [← ht k hk i hi, bit, Bitmap.get, hv k hk (i / 32) (by omega)]
  rfl

/-- The first clear bit of a bitmap is that of the first free index. -/
theorem firstFree_of_clear (ht : ∀ j, j < 256 → Bitmap.get (w k) j = t k j) (hi : i < 256)
    (hc : Bitmap.get (w k) i = false) (hmin : ∀ j, j < i → Bitmap.get (w k) j = true) :
    firstFree (t k) = some i := by
  refine firstFree_eq_some.mpr ⟨hi, (ht i hi) ▸ hc, fun j hj => ?_⟩
  rw [← ht j (Nat.lt_trans hj hi)]
  exact hmin j hj

/-- Changing the bit of an index is changing its mark. -/
theorem mark_of_bit {b : Bool} (ht : ∀ k : Table, k.Real → ∀ j, j < 256 → Bitmap.get (w k) j = t k j)
    (hset : ∀ k' j, Bitmap.get (w' k') j = if k' = k ∧ j = i then b else Bitmap.get (w k') j) :
    ∀ k' : Table, k'.Real → ∀ j, j < 256 → Bitmap.get (w' k') j = mark t k i b k' j := by
  intro k' hk' j hj
  rw [hset, ht k' hk' j hj]
  rfl

/-- An allocator that gives out the first clear bit of its bitmap gives out the
first free index. -/
theorem first_marks {m' : Mem} {h h' : HcmdPool} {f f' : SqPool} {found : Option Nat}
    (hb : ∀ k i, t k i = true → i < 256)
    (ht : ∀ k : Table, k.Real → ∀ i, i < 256 → Bitmap.get (maps h f k) i = t k i) (hk : k.Real)
    (hv : View mb m' h' f')
    (hnone : found = none → (∀ i, i < 256 → Bitmap.get (maps h f k) i = true) ∧ maps h' f' = maps h f)
    (hsome : ∀ i, found = some i → i < 256 ∧ Bitmap.get (maps h f k) i = false ∧
      (∀ j, j < i → Bitmap.get (maps h f k) j = true) ∧
      ∀ k' j, Bitmap.get (maps h' f' k') j = if k' = k ∧ j = i then true else Bitmap.get (maps h f k') j) :
    firstFree (t k) = found ∧ Marks mb m' (found.elim t fun i => mark t k i true) := by
  cases found with
  | none =>
    obtain ⟨hall, hmaps⟩ := hnone rfl
    exact ⟨firstFree_eq_none.mpr fun i hi => (ht k hk i hi) ▸ hall i hi, ⟨h', f', hv, hmaps ▸ ht⟩, hb⟩
  | some i =>
    obtain ⟨hi, hclear, hmin, hset⟩ := hsome i rfl
    exact ⟨firstFree_of_clear (ht k hk) hi hclear hmin, ⟨h', f', hv, mark_of_bit ht hset⟩, mark_bound hb hi⟩

/-- An allocation gives out the first free index, and without one it changes nothing. -/
theorem alloc_marks (hm : Marks mb m t) (hk : k.Real) :
    (AllocOp.exec mb m (.alloc k)).1 = k.reply mb (firstFree (t k)) ∧
      Marks mb (AllocOp.exec mb m (.alloc k)).2 ((firstFree (t k)).elim t fun i => mark t k i true) ∧
      (firstFree (t k) = none → (AllocOp.exec mb m (.alloc k)).2 = m) := by
  obtain ⟨⟨h, f, hv, ht⟩, hb⟩ := hm
  cases k with
  | hcmd =>
    obtain ⟨hr, hv', hsame⟩ := getHostCmdEntry_view hv
    have hfirst : firstFree (t .hcmd) = (Hcl.getHostCmdEntry h).1 ∧ Marks mb (getHostCmdEntry mb m).2
        ((Hcl.getHostCmdEntry h).1.elim t fun i => mark t .hcmd i true) := by
      refine first_marks hb ht hk hv' (fun e => ?_) fun i e => ?_
      · obtain ⟨hall, hsame⟩ := Hcl.getHostCmdEntry_none (Prod.ext e rfl)
        exact ⟨hall, congrArg (maps · f) hsame⟩
      · obtain ⟨hi, hclear, hmin, hset, -⟩ := Hcl.getHostCmdEntry_some (Prod.ext e rfl)
        refine ⟨hi, hclear, hmin, fun k j => ?_⟩
        cases k with
        | hcmd => by_cases hji : j = i <;> simpa [maps, Hcl.bit, hji] using hset j
        | sq ch => rfl
    rw [hfirst.1]
    exact ⟨congrArg Reply.entry hr, hfirst.2, hsame⟩
  | sq ch =>
    obtain ⟨hr, hv', hsame⟩ := getFreeSQEntry_view hv hk
    have hfirst : firstFree (t (.sq ch)) = (Fcl.getFreeSQEntry f ch).1 ∧ Marks mb (getFreeSQEntry mb m ch).2
        ((Fcl.getFreeSQEntry f ch).1.elim t fun i => mark t (.sq ch) i true) := by
      refine first_marks hb ht hk hv' (fun e => ?_) fun i e => ?_
      · obtain ⟨hall, hsame⟩ := Fcl.getFreeSQEntry_none (Prod.ext e rfl)
        exact ⟨hall, congrArg (maps h) hsame⟩
      · obtain ⟨hi, hclear, hmin, hset⟩ := Fcl.getFreeSQEntry_some (Prod.ext e rfl)
        refine ⟨hi, hclear, hmin, fun k j => ?_⟩
        cases k with
        | hcmd => rfl
        | sq c => by_cases hcj : c = ch ∧ j = i <;> simpa [maps, Fcl.sqBit, hcj] using hset c j
    rw [hfirst.1]
    exact ⟨congrArg Reply.index hr, hfirst.2, hsame⟩

/-- A free unmarks its own index. -/
theorem free_marks (hm : Marks mb m t) (hk : k.Real) (hi : i < 256) :
    Marks mb (AllocOp.exec mb m (.free k i)).2 (mark t k i false) := by
  obtain ⟨⟨h, f, hv, ht⟩, hb⟩ := hm
  refine ⟨?_, mark_bound hb hi⟩
  cases k with
  | hcmd =>
    refine ⟨_, f, reclaimHcmdEntry_view hv hi, mark_of_bit ht fun k j => ?_⟩
    cases k with
    | hcmd => by_cases hji : j = i <;> simpa [maps, Hcl.bit, hji] using Hcl.reclaim_bit h i j
    | sq ch => rfl
  | sq ch =>
    refine ⟨h, _, freeSQEntry_view hv hk hi, mark_of_bit ht fun k j => ?_⟩
    cases k with
    | hcmd => rfl
    | sq c => by_cases hcj : c = ch ∧ j = i <;> simpa [maps, Fcl.sqBit, hcj] using Fcl.freeSQEntry_sqBit f ch i c j

theorem AllocOp.exec_spec (hm : Marks mb m t) {o : AllocOp} (ho : o.Ok t) :
    (o.exec mb m).1 = (o.spec mb t).1 ∧ Marks mb (o.exec mb m).2 (o.spec mb t).2 := by
  cases o with
  | alloc k =>
    obtain ⟨hr, hm', -⟩ := alloc_marks hm ho
    exact ⟨hr, hm'⟩
  | free k i =>
    refine ⟨?_, free_marks hm ho.1 (hm.bound k i ho.2)⟩
    cases k <;> rfl

theorem init_marks (mb : BitVec 32) (m : Mem) :
    Marks mb (initHwQueue mb (initHostCmdEntryQueue mb m)) fun _ _ => false := by
  refine ⟨⟨_, _, init_view mb m, fun k _ i _ => ?_⟩, fun _ _ e => nomatch e⟩
  cases k with
  | hcmd => exact Hcl.bit_init i
  | sq ch => exact Fcl.sqBit_init ch i

/-! ## What a caller relies on -/

/-- A memory in which the indices `t` are taken serves its callers. -/
structure Serves (mb : BitVec 32) (m : Mem) (t : Taken) : Prop where
  bits : ∀ k : Table, k.Real → ∀ i, i < 256 → bit mb m k i = t k i
  /-- The smallest free index is given out, and only its bit is set. -/
  alloc : ∀ k : Table, k.Real → ∀ i, i < 256 → t k i = false → (∀ j, j < i → t k j = true) →
    (AllocOp.exec mb m (.alloc k)).1 = k.reply mb (some i) ∧
      ∀ k' : Table, k'.Real → ∀ j, j < 256 →
        bit mb (AllocOp.exec mb m (.alloc k)).2 k' j = if k' = k ∧ j = i then true else t k' j
  fails : ∀ k : Table, k.Real →
    ((AllocOp.exec mb m (.alloc k)).1 = k.reply mb none ↔ ∀ i, i < 256 → t k i = true)
  full : ∀ k : Table, k.Real → (∀ i, i < 256 → t k i = true) → (AllocOp.exec mb m (.alloc k)).2 = m
  free : ∀ k : Table, k.Real → ∀ i, t k i = true → ∀ k' : Table, k'.Real → ∀ j, j < 256 →
    bit mb (AllocOp.exec mb m (.free k i)).2 k' j = if k' = k ∧ j = i then false else t k' j
  hcmdEmpty : hcmdQueueEmpty mb m = true ↔ (getHostCmdEntry mb m).1 = none
  sqEmpty : ∀ ch, ch < TOTAL_CHANNEL → (sqEmpty mb m ch = true ↔ (getFreeSQEntry mb m ch).1 = INVALID_INDEX)

/-- An index below 256 is not taken for a failure. -/
theorem reply_none (hi : ∀ j, firstFree (t k) = some j → j < 256) :
    k.reply mb (firstFree (t k)) = k.reply mb none ↔ firstFree (t k) = none := by
  cases hf : firstFree (t k) with
  | none => simp
  | some j =>
    have hj : j < 256 := hi j hf
    have hne : BitVec.ofNat 32 j ≠ INVALID_INDEX := by
      intro e
      have := congrArg BitVec.toNat e
      rw [toNat_index hj] at this
      simp only [INVALID_INDEX, BitVec.toNat_ofNat] at this
      omega
    cases k <;> simp [Table.reply, hne]

theorem Marks.serves (hm : Marks mb m t) : Serves mb m t := by
  have hfails : ∀ k : Table, k.Real →
      ((AllocOp.exec mb m (.alloc k)).1 = k.reply mb none ↔ firstFree (t k) = none) := by
    intro k hk
    rw [(alloc_marks hm hk).1]
    exact reply_none fun j hj => (firstFree_eq_some.mp hj).1
  refine ⟨fun k hk i hi => hm.bits hk hi, fun k hk i hi hti hmin => ?_, fun k hk => ?_, fun k hk hall => ?_,
    fun k hk i hti k' hk' j hj => ?_, ?_, fun ch hch => ?_⟩
  · obtain ⟨hr, hm', -⟩ := alloc_marks hm hk
    rw [firstFree_eq_some.mpr ⟨hi, hti, hmin⟩] at hr hm'
    exact ⟨hr, fun k' hk' j hj => hm'.bits hk' hj⟩
  · rw [hfails k hk, firstFree_eq_none]
  · exact (alloc_marks hm hk).2.2 (firstFree_eq_none.mpr hall)
  · exact (free_marks hm hk (hm.bound k i hti)).bits hk' hj
  · obtain ⟨⟨h, f, hv, -⟩, -⟩ := hm
    rw [hcmdQueueEmpty_view hv, (getHostCmdEntry_view hv).1, Hcl.hcmdQueueEmpty, Hcl.getHostCmdEntry]
    cases Bitmap.findClear h.map (HCMD_NUM / 32) <;> simp
  · have hnone := hfails (.sq ch) hch
    obtain ⟨⟨h, f, hv, ht⟩, -⟩ := hm
    have hempty : Fcl.sqEmpty f ch = true ↔ firstFree (t (.sq ch)) = none := by
      rw [Fcl.sqEmpty, firstFree_eq_none]
      cases hc : Bitmap.findClear (f.bitmap ch) (HW_QUEUE_DEPTH / 32) with
      | none => exact iff_of_true rfl fun i hi => (ht (.sq ch) hch i hi) ▸ Bitmap.findClear_none hc i hi
      | some ij =>
        obtain ⟨hi, hj, hclear, -⟩ := Bitmap.findClear_some hc
        have hlt : 32 * ij.1 + ij.2 < 256 := by simp only [HW_QUEUE_DEPTH] at hi; omega
        refine iff_of_false (by simp) fun hall => ?_
        have := hall _ hlt
        rw [← ht (.sq ch) hch _ hlt] at this
        simp only [maps, hclear, Bool.false_eq_true] at this
    rw [sqEmpty_view hv hch, hempty, ← hnone]
    simp [AllocOp.exec, Table.reply]

end

/-- The allocators are sound and complete: after any calls from the initialisation
on, frees being of taken indices, every reply was that of the allocators of sets,
the memory serves its callers with the indices taken by then, and the index of an
entry's address is the entry's. -/
theorem allocators_sound_complete (mb : BitVec 32) (m : Mem) {os : List AllocOp}
    (hos : Allowed AllocOp.Ok (AllocOp.spec mb) (fun _ _ => false) os) :
    let run := serve (AllocOp.exec mb) (initHwQueue mb (initHostCmdEntryQueue mb m)) os
    let sets := serve (AllocOp.spec mb) (fun _ _ => false) os
    run.1 = sets.1 ∧ Serves mb run.2 sets.2 ∧
      ∀ i, i < HCMD_NUM → getHcmdEntryIndex mb (getHcmdEntryAddr mb i) = BitVec.ofNat 32 i := by
  obtain ⟨hr, hm⟩ := serve_refines (f := AllocOp.exec mb) (g := AllocOp.spec mb) (I := Marks mb)
    (fun _ _ _ hm ho => AllocOp.exec_spec hm ho) (init_marks mb m) hos
  exact ⟨hr, hm.serves, fun i hi => getHcmdEntryIndex_addr mb hi⟩

/-- Two entries and one of channel 2 are taken, the first is freed: it is the next one. -/
theorem allocators_sound_complete_reuse :
    (AllocOp.exec 0 (serve (AllocOp.exec 0) (initHwQueue 0 (initHostCmdEntryQueue 0 fun _ => 0))
      [.alloc .hcmd, .alloc .hcmd, .alloc (.sq 2), .free .hcmd 0]).2 (.alloc .hcmd)).1 =
      Table.hcmd.reply 0 (some 0) := by
  have hos : Allowed AllocOp.Ok (AllocOp.spec 0) (fun _ _ => false)
      [.alloc .hcmd, .alloc .hcmd, .alloc (.sq 2), .free .hcmd 0] :=
    ⟨trivial, trivial, (by decide : 2 < 4), ⟨trivial, by decide +kernel⟩, trivial⟩
  have hserves := (allocators_sound_complete 0 (fun _ => 0) hos).2.1
  exact (hserves.alloc .hcmd trivial 0 (by decide) (by decide +kernel) fun j hj =>
    absurd hj (Nat.not_lt_zero j)).1

end OpenSSDEmu.L2.Alloc
