import Mathlib.Algebra.GroupWithZero.Nat
import Mathlib.Data.List.Nodup
import Mathlib.Data.Set.Function
import OpenSSDEmu.Core.Loops
import OpenSSDEmu.L2Machine.SqEntry

/-!
# Address translation

`l2p/l2p.c`: `L2P_calc_ppa` and `L2P_calc_obj_ppa`, for any mask of normal
channels (`normal_ch`, of which `NORMAL_CHANNEL` is one; a channel counts as
normal if its entry is 1). Both search the (page,) plane, ce and channel by
counting through nested loops; the count at a site is its position among the
sites on normal channels (`getElem?_sites`), so both land on `addrOf`, the
digits of the page number in the mixed radix channel, ce, plane, page, block.
-/
namespace OpenSSDEmu.L2.L2p
open Fcl Loops

/-- mirrors src/config/config.h:19,23,46-47,49 -/
def PAGE_PER_BLOCK_SLC_MODE : Nat := 384
def BLOCK_PER_PLANE : Nat := 1006
def PLANE_PER_LUN : Nat := 2
def PLANE_PER_CE : Nat := 2
def CE_PER_CH : Nat := 8

/-- The six assignments, in the order of
src/l2p/l2p.c:55-60 and 109-114. -/
def assignPpa (ppa : PhyPageAddr) (ch ce block lun plane page : Nat) : PhyPageAddr :=
  { ch := UInt16.ofNat ch, ce := UInt16.ofNat ce,
    nandFlashAddr := setSlcPage (setSlcPlane (setSlcLun (setSlcBlock ppa.nandFlashAddr block) lun) plane) page }

section
variable (normalCh : Nat → UInt32)

/-- The four loops; `done` = no round returned. The 32-bit counter is compared
with a 64-bit offset.
mirrors src/l2p/l2p.c:32-73 -/
def calcObjPpaLoop (objId : UInt32) (objOffset : UInt64) (ppa : PhyPageAddr) : Outcome PhyPageAddr UInt32 :=
  forEach (List.range PAGE_PER_BLOCK_SLC_MODE) (fun page =>
    forEach (List.range PLANE_PER_CE) fun plane =>
      forEach (List.range CE_PER_CH) fun ce =>
        forEach (List.range TOTAL_CHANNEL) fun ch circleNum =>
          if normalCh ch == 1 then
            if circleNum.toUInt64 == objOffset then .returned (assignPpa ppa ch ce objId.toNat 0 plane page)
            else .done (circleNum + 1)
          else .done circleNum) 0

def calcObjPpa (objId : UInt32) (objOffset : UInt64) (ppa : PhyPageAddr) : PhyPageAddr :=
  match calcObjPpaLoop normalCh objId objOffset ppa with
  | .returned ppa => ppa
  | .done _ => ppa

/-- mirrors src/l2p/l2p.c:81-88 -/
def validChNum : UInt32 :=
  (List.range TOTAL_CHANNEL).foldl (fun n i => if normalCh i == 1 then n + 1 else n) 0

/-- mirrors src/l2p/l2p.c:76-125 -/
def calcPpaLoop (lpn : UInt32) (ppa : PhyPageAddr) : Outcome PhyPageAddr UInt32 :=
  let perPage := validChNum normalCh * .ofNat CE_PER_CH * .ofNat PLANE_PER_LUN
  let row := lpn / (perPage * .ofNat PAGE_PER_BLOCK_SLC_MODE)
  let rowOffset := lpn % (perPage * .ofNat PAGE_PER_BLOCK_SLC_MODE)
  let page := rowOffset / perPage
  let pageOffset := rowOffset % perPage
  forEach (List.range PLANE_PER_CE) (fun plane =>
    forEach (List.range CE_PER_CH) fun ce =>
      forEach (List.range TOTAL_CHANNEL) fun ch circleNum =>
        if normalCh ch == 1 then
          if circleNum == pageOffset then .returned (assignPpa ppa ch ce row.toNat 0 plane page.toNat)
          else .done (circleNum + 1)
        else .done circleNum) 0

def calcPpa (lpn : UInt32) (ppa : PhyPageAddr) : PhyPageAddr :=
  match calcPpaLoop normalCh lpn ppa with
  | .returned ppa => ppa
  | .done _ => ppa

/-! ## Coordinates -/

/-- The normal channels in order. -/
def normalChs : List Nat := (List.range TOTAL_CHANNEL).filter fun ch => normalCh ch == 1

end

/-- Where a page is, as numbers. -/
structure Coord where
  ch : Nat
  ce : Nat
  lun : Nat
  plane : Nat
  block : Nat
  page : Nat
  deriving DecidableEq, Repr

/-- The fields of an address. -/
def coord (ppa : PhyPageAddr) : Coord where
  ch := ppa.ch.toNat
  ce := ppa.ce.toNat
  lun := (slcLun ppa.nandFlashAddr).toNat
  plane := (slcPlane ppa.nandFlashAddr).toNat
  block := (slcBlock ppa.nandFlashAddr).toNat
  page := (slcPage ppa.nandFlashAddr).toNat

/-- The coordinates that exist on a normal channel. -/
structure Coord.Usable (normalCh : Nat → UInt32) (c : Coord) : Prop where
  normal : normalCh c.ch = 1
  ch : c.ch < TOTAL_CHANNEL
  ce : c.ce < CE_PER_CH
  lun : c.lun = 0
  plane : c.plane < PLANE_PER_LUN
  block : c.block < BLOCK_PER_PLANE
  page : c.page < PAGE_PER_BLOCK_SLC_MODE

/-- The fields are wide enough for every coordinate there is. -/
theorem coord_assignPpa (ppa : PhyPageAddr) {ch ce lun plane block page : Nat} (hch : ch < 2 ^ 16)
    (hce : ce < 2 ^ 16)
    (hlun : lun < 2 ^ 3) (hplane : plane < 2 ^ 1) (hblock : block < 2 ^ 10) (hpage : page < 2 ^ 9) :
    coord (assignPpa ppa ch ce block lun plane page) = ⟨ch, ce, lun, plane, block, page⟩ := by
  simp (disch := decide) only [coord, assignPpa, slcLun, slcPlane, slcBlock, slcPage, setSlcLun, setSlcPlane,
    setSlcBlock, setSlcPage, getField_setField_of_disjoint, getField_setField, UInt16.toNat_ofNat',
      BitVec.toNat_ofNat]
  rw [Nat.mod_eq_of_lt hch, Nat.mod_eq_of_lt hce, Nat.mod_eq_of_lt hlun, Nat.mod_eq_of_lt hplane,
    Nat.mod_eq_of_lt hblock, Nat.mod_eq_of_lt hpage]

/-! ## The sites of a page -/

/-- The sites on the channels `chs`, in the order of the loops: plane, ce, channel. -/
def sites (chs : List Nat) : List (Nat × Nat × Nat) :=
  (List.range PLANE_PER_CE).flatMap fun plane => (List.range CE_PER_CH).flatMap fun ce =>
    chs.map fun ch => (plane, ce, ch)

/-- All pages of a block, site by site. -/
def pageSites (chs : List Nat) : List (Nat × Nat × Nat × Nat) :=
  (List.range PAGE_PER_BLOCK_SLC_MODE).flatMap fun page => (sites chs).map fun x => (page, x)

section
variable {normalCh : Nat → UInt32} {chs : List Nat} {n : Nat}

theorem filter_sites (chs : List Nat) (p : Nat → Bool) :
    (sites chs).filter (fun x => p x.2.2) = sites (chs.filter p) := by
  simp only [sites, List.filter_flatMap, List.filter_map]
  rfl

theorem filter_pageSites (chs : List Nat) (p : Nat → Bool) :
    (pageSites chs).filter (fun x => p x.2.2.2) = pageSites (chs.filter p) := by
  simp only [pageSites, List.filter_flatMap, List.filter_map]
  rw [← filter_sites]
  rfl

theorem length_row (plane : Nat) :
    ((List.range CE_PER_CH).flatMap fun ce => chs.map fun ch => (plane, ce, ch)).length =
      CE_PER_CH * chs.length := by
  rw [length_flatMap_uniform (k := chs.length) (fun _ => List.length_map _), List.length_range]

theorem length_sites : (sites chs).length = PLANE_PER_CE * (CE_PER_CH * chs.length) := by
  rw [sites, length_flatMap_uniform length_row, List.length_range]

theorem length_pageSites :
    (pageSites chs).length = PAGE_PER_BLOCK_SLC_MODE * (PLANE_PER_CE * (CE_PER_CH * chs.length)) := by
  rw [pageSites, length_flatMap_uniform fun _ => by rw [List.length_map, length_sites], List.length_range]

/-- The `n`-th site: the digits of `n`, the channel the fastest. -/
theorem getElem?_sites (hk : 0 < chs.length) (hn : n < (sites chs).length) :
    (sites chs)[n]? =
      some (n / chs.length / 8, n / chs.length % 8, chs.getD (n % chs.length) 0) := by
  have hk8 : 0 < CE_PER_CH * chs.length := Nat.mul_pos (by decide) hk
  have hplane : n / (CE_PER_CH * chs.length) < PLANE_PER_CE := by
    rw [Nat.div_lt_iff_lt_mul hk8, ← length_sites]
    exact hn
  have hce : n % (CE_PER_CH * chs.length) / chs.length < CE_PER_CH := by
    rw [Nat.div_lt_iff_lt_mul hk]
    exact Nat.mod_lt _ hk8
  rw [sites, getElem?_flatMap_uniform hk8 length_row, List.getElem?_range hplane, Option.bind_some,
    getElem?_flatMap_uniform hk (fun _ => List.length_map _), List.getElem?_range hce, Option.bind_some,
    List.getElem?_map]
  have h1 : n / (CE_PER_CH * chs.length) = n / chs.length / 8 := by
    rw [Nat.mul_comm, ← Nat.div_div_eq_div_mul]; rfl
  have h2 : n % (CE_PER_CH * chs.length) / chs.length = n / chs.length % 8 := by
    rw [Nat.mul_comm, Nat.mod_mul_right_div_self]; rfl
  have h3 : n % (CE_PER_CH * chs.length) % chs.length = n % chs.length := Nat.mod_mul_left_mod _ _ _
  have h4 : chs[n % chs.length]? = some (chs.getD (n % chs.length) 0) := by
    rw [List.getElem?_eq_getElem (Nat.mod_lt _ hk), List.getElem_eq_getD 0]
  simp only [h1, h2, h3, h4, Option.map_some]

/-- The pages of a block: the digits of `n` with the page on top. -/
theorem getElem?_pageSites (hk : 0 < chs.length) (hn : n < (pageSites chs).length) :
    (pageSites chs)[n]? =
      some (n / chs.length / 16, n / chs.length / 8 % 2, n / chs.length % 8,
        chs.getD (n % chs.length) 0) := by
  have hk16 : 0 < (sites chs).length := by
    rw [length_sites]
    exact Nat.mul_pos (by decide) (Nat.mul_pos (by decide) hk)
  have hpage : n / (sites chs).length < PAGE_PER_BLOCK_SLC_MODE := by
    rw [Nat.div_lt_iff_lt_mul hk16, length_sites, ← length_pageSites]
    exact hn
  rw [pageSites, getElem?_flatMap_uniform hk16 (fun _ => List.length_map _), List.getElem?_range hpage,
    Option.bind_some, List.getElem?_map, getElem?_sites hk (Nat.mod_lt _ hk16), Option.map_some]
  have hlen : (sites chs).length = chs.length * 16 := by
    rw [length_sites]
    simp only [PLANE_PER_CE, CE_PER_CH]
    omega
  have h1 : n / (sites chs).length = n / chs.length / 16 := by rw [hlen, ← Nat.div_div_eq_div_mul]
  have h2 : n % (sites chs).length / chs.length = n / chs.length % 16 := by
    rw [hlen, Nat.mod_mul_right_div_self]
  have h3 : n % (sites chs).length % chs.length = n % chs.length := by rw [hlen, Nat.mod_mul_right_mod]
  have h4 : ∀ q : Nat, q % 16 / 8 = q / 8 % 2 := fun q => by omega
  have h5 : ∀ q : Nat, q % 16 % 8 = q % 8 := fun q => by omega
  simp only [h1, h2, h3, h4, h5]

end

/-! ## The searches -/

section
variable (normalCh : Nat → UInt32)

/-- The coordinates of a page number: its digits in the mixed radix normal
channel, ce, plane, page, block. -/
def addrOf (n : Nat) : Coord :=
  let k := (normalChs normalCh).length
  { ch := (normalChs normalCh).getD (n % k) 0
    ce := n / k % 8
    lun := 0
    plane := n / k / 8 % 2
    page := n / k / 16 % 384
    block := n / k / 6144 }

/-- `*ppa` with the coordinates `c` assigned. -/
def assignCoord (ppa : PhyPageAddr) (c : Coord) : PhyPageAddr :=
  assignPpa ppa c.ch c.ce c.block c.lun c.plane c.page

theorem length_normalChs_le : (normalChs normalCh).length ≤ 4 := by
  exact Nat.le_trans (List.length_filter_le _ _) (Nat.le_of_eq List.length_range)

theorem validChNum_toNat : (validChNum normalCh).toNat = (normalChs normalCh).length := by
  have h : ∀ (l : List Nat) (n : UInt32), n.toNat + l.length < 2 ^ 32 →
      (l.foldl (fun n i => if normalCh i == 1 then n + 1 else n) n).toNat =
        n.toNat + (l.filter fun ch => normalCh ch == 1).length := by
    intro l
    induction l with
    | nil => intro n _; rfl
    | cons i l ih =>
      intro n hn
      rw [List.length_cons] at hn
      rw [List.foldl_cons]
      by_cases hi : (normalCh i == 1) = true
      · have h1 : (n + 1).toNat = n.toNat + 1 := by
          rw [UInt32.toNat_add, UInt32.toNat_one]
          omega
        rw [if_pos hi, ih _ (by omega), h1, List.filter_cons_of_pos (l := l) hi, List.length_cons]
        omega
      · rw [if_neg hi, ih _ (by omega), List.filter_cons_of_neg (l := l) hi]
  exact (h (List.range TOTAL_CHANNEL) 0 (by decide)).trans (Nat.zero_add _)

/-- A 32-bit counter counts to any number of steps below 2^32. -/
theorem forEach_count32 {α : Type} {p : α → Bool} {hit : UInt32 → Bool} {ret : α → PhyPageAddr} {n : Nat}
    (hhit : ∀ c, hit c = true ↔ c.toNat = n) (xs : List α) (hlen : (xs.filter p).length < 2 ^ 32) :
    forEach xs (countTo p hit (· + 1) ret) 0 =
      ((xs.filter p)[n]?).elim (.done ((· + 1)^[(xs.filter p).length] 0)) fun a => .returned (ret a) := by
  refine forEach_countTo (v := UInt32.toNat) (B := 2 ^ 32 - 1) hhit (fun c hc => ?_) xs (Nat.zero_le _) ?_
  · rw [UInt32.toNat_add, UInt32.toNat_one]
    omega
  · rw [UInt32.toNat_zero]
    omega

theorem calcObjPpaLoop_eq (o : UInt32) (off : UInt64) (ppa : PhyPageAddr) :
    calcObjPpaLoop normalCh o off ppa =
      ((pageSites (normalChs normalCh))[off.toNat]?).elim
        (.done ((· + 1)^[(pageSites (normalChs normalCh)).length] 0))
        fun x => .returned (assignPpa ppa x.2.2.2 x.2.2.1 o.toNat 0 x.2.1 x.1) := by
  have hloops : calcObjPpaLoop normalCh o off ppa =
      forEach (pageSites (List.range TOTAL_CHANNEL))
        (countTo (fun x => normalCh x.2.2.2 == 1) (fun c => c.toUInt64 == off) (· + 1)
          fun x => assignPpa ppa x.2.2.2 x.2.2.1 o.toNat 0 x.2.1 x.1) 0 := by
    simp only [pageSites, sites, forEach_flatMap, forEach_map]
    rfl
  have hfilter := filter_pageSites (List.range TOTAL_CHANNEL) fun ch => normalCh ch == 1
  have hlen := length_normalChs_le normalCh
  rw [hloops, forEach_count32 (n := off.toNat), hfilter]
  · rfl
  · intro c
    rw [beq_iff_eq, ← UInt64.toNat_inj, UInt32.toNat_toUInt64]
  · rw [hfilter, length_pageSites]
    simp only [PAGE_PER_BLOCK_SLC_MODE, PLANE_PER_CE, CE_PER_CH]
    rw [normalChs] at hlen
    omega

theorem calcPpaLoop_eq (lpn : UInt32) (ppa : PhyPageAddr) :
    let perPage := validChNum normalCh * .ofNat CE_PER_CH * .ofNat PLANE_PER_LUN
    let perBlock := perPage * .ofNat PAGE_PER_BLOCK_SLC_MODE
    calcPpaLoop normalCh lpn ppa =
      ((sites (normalChs normalCh))[(lpn % perBlock % perPage).toNat]?).elim
        (.done ((· + 1)^[(sites (normalChs normalCh)).length] 0))
        fun x => .returned (assignPpa ppa x.2.2 x.2.1 (lpn / perBlock).toNat 0 x.1 (lpn % perBlock / perPage).toNat) := by
  intro perPage perBlock
  have hloops : calcPpaLoop normalCh lpn ppa =
      forEach (sites (List.range TOTAL_CHANNEL))
        (countTo (fun x => normalCh x.2.2 == 1) (fun c => c == lpn % perBlock % perPage) (· + 1)
          fun x => assignPpa ppa x.2.2 x.2.1 (lpn / perBlock).toNat 0 x.1 (lpn % perBlock / perPage).toNat) 0 := by
    simp only [sites, forEach_flatMap, forEach_map]
    rfl
  have hfilter := filter_sites (List.range TOTAL_CHANNEL) fun ch => normalCh ch == 1
  have hlen := length_normalChs_le normalCh
  rw [hloops, forEach_count32 (n := (lpn % perBlock % perPage).toNat), hfilter]
  · rfl
  · intro c
    rw [beq_iff_eq, ← UInt32.toNat_inj]
  · rw [hfilter, length_sites]
    simp only [PLANE_PER_CE, CE_PER_CH]
    rw [normalChs] at hlen
    omega

variable {normalCh}

/-- The pages of all normal channels. -/
def pageCount (normalCh : Nat → UInt32) : Nat :=
  (normalChs normalCh).length * CE_PER_CH * PLANE_PER_LUN * PAGE_PER_BLOCK_SLC_MODE

/-- Below the number of pages the digits are in range. -/
theorem addrOf_usable (hk : 0 < (normalChs normalCh).length) {n : Nat}
    (hn : n < pageCount normalCh * BLOCK_PER_PLANE) : (addrOf normalCh n).Usable normalCh := by
  have hmem : (addrOf normalCh n).ch ∈ normalChs normalCh := by
    simp only [addrOf, ← List.getElem_eq_getD (h := Nat.mod_lt n hk) 0]
    exact List.getElem_mem _
  obtain ⟨hch, hnormal⟩ := List.mem_filter.mp hmem
  have hq : n / (normalChs normalCh).length < 8 * 2 * 384 * 1006 := by
    rw [Nat.div_lt_iff_lt_mul hk]
    simp only [pageCount, CE_PER_CH, PLANE_PER_LUN, PAGE_PER_BLOCK_SLC_MODE, BLOCK_PER_PLANE] at hn
    calc n < (normalChs normalCh).length * 8 * 2 * 384 * 1006 := hn
      _ = 8 * 2 * 384 * 1006 * (normalChs normalCh).length := by omega
  refine ⟨beq_iff_eq.mp hnormal, List.mem_range.mp hch, ?_, rfl, ?_, ?_, ?_⟩ <;>
    simp only [addrOf, CE_PER_CH, PLANE_PER_LUN, BLOCK_PER_PLANE, PAGE_PER_BLOCK_SLC_MODE] <;> omega

/-- No field of a usable coordinate is cut off. -/
theorem coord_assignCoord {c : Coord} (hc : c.Usable normalCh) (ppa : PhyPageAddr) :
    coord (assignCoord ppa c) = c := by
  obtain ⟨-, hch, hce, hlun, hplane, hblock, hpage⟩ := hc
  simp only [TOTAL_CHANNEL, CE_PER_CH, PLANE_PER_LUN, BLOCK_PER_PLANE, PAGE_PER_BLOCK_SLC_MODE] at *
  exact coord_assignPpa ppa (by omega) (by omega) (by omega) (by omega) (by omega) (by omega)

/-- The remainders of a page number have its digits. -/
theorem mod_digits (l k : Nat) :
    l % (k * 6144) % (k * 16) / k = l / k % 16 ∧ l % (k * 6144) % (k * 16) % k = l % k ∧
      l % (k * 6144) / (k * 16) = l / k / 16 % 384 := by
  refine ⟨?_, ?_, ?_⟩
  · rw [Nat.mod_mod_of_dvd _ (Nat.mul_dvd_mul_left k (by decide)), Nat.mod_mul_right_div_self]
  · rw [Nat.mod_mul_right_mod, Nat.mod_mul_right_mod]
  · rw [← Nat.div_div_eq_div_mul, Nat.mod_mul_right_div_self]
    omega

/-- `L2P_calc_ppa` returns from its search with the coordinates of the page number. -/
theorem calcPpaLoop_spec (hk : 0 < (normalChs normalCh).length) (lpn : UInt32) (ppa : PhyPageAddr) :
    calcPpaLoop normalCh lpn ppa = .returned (assignCoord ppa (addrOf normalCh lpn.toNat)) := by
  have hle := length_normalChs_le normalCh
  have hv := validChNum_toNat normalCh
  have hlen : (sites (normalChs normalCh)).length = (normalChs normalCh).length * 16 := by
    rw [length_sites]
    simp only [PLANE_PER_CE, CE_PER_CH]
    omega
  have hpage : (validChNum normalCh * .ofNat CE_PER_CH * .ofNat PLANE_PER_LUN).toNat =
      (normalChs normalCh).length * 16 := by
    simp only [UInt32.toNat_mul, UInt32.toNat_ofNat', CE_PER_CH, PLANE_PER_LUN, hv]
    omega
  have hblock : (validChNum normalCh * .ofNat CE_PER_CH * .ofNat PLANE_PER_LUN * .ofNat PAGE_PER_BLOCK_SLC_MODE).toNat =
      (normalChs normalCh).length * 6144 := by
    rw [UInt32.toNat_mul, hpage]
    simp only [UInt32.toNat_ofNat', PAGE_PER_BLOCK_SLC_MODE]
    omega
  obtain ⟨hdiv, hmod, hpg⟩ := mod_digits lpn.toNat (normalChs normalCh).length
  have hrow := Nat.div_div_eq_div_mul lpn.toNat (normalChs normalCh).length 6144
  have hoff : lpn.toNat % ((normalChs normalCh).length * 6144) % ((normalChs normalCh).length * 16) <
      (sites (normalChs normalCh)).length := by
    rw [hlen]
    exact Nat.mod_lt _ (Nat.mul_pos hk (by decide))
  have h16 : ∀ q : Nat, q % 16 / 8 = q / 8 % 2 ∧ q % 16 % 8 = q % 8 := fun q => by omega
  rw [calcPpaLoop_eq]
  simp only [UInt32.toNat_mod, UInt32.toNat_div, hpage, hblock]
  rw [getElem?_sites hk hoff]
  simp only [Option.elim_some, hdiv, hmod, ← hrow, hpg, h16]
  rfl

theorem pageCount_eq : pageCount normalCh = (normalChs normalCh).length * 6144 := by
  simp only [pageCount, CE_PER_CH, PLANE_PER_LUN, PAGE_PER_BLOCK_SLC_MODE]
  omega

/-- The digits of page `off` of object `o`: the object is the block. -/
theorem obj_digits {k off : Nat} (hk : 0 < k) (o : Nat) (hoff : off < k * 6144) :
    (o * (k * 6144) + off) / k = o * 6144 + off / k ∧ (o * (k * 6144) + off) % k = off % k ∧
      off / k < 6144 := by
  have e : o * (k * 6144) = k * (o * 6144) := Nat.mul_left_comm o k 6144
  refine ⟨?_, ?_, ?_⟩
  · rw [e, Nat.mul_add_div hk]
  · rw [e, Nat.mul_add_mod]
  · rw [Nat.div_lt_iff_lt_mul hk, Nat.mul_comm]
    exact hoff

/-- `L2P_calc_obj_ppa` returns with the coordinates of the page of the object, or
falls through if the object has no such page. -/
theorem calcObjPpaLoop_spec (hk : 0 < (normalChs normalCh).length) (o : UInt32) (off : UInt64)
    (ppa : PhyPageAddr) :
    (off.toNat < pageCount normalCh →
      calcObjPpaLoop normalCh o off ppa =
        .returned (assignCoord ppa (addrOf normalCh (o.toNat * pageCount normalCh + off.toNat)))) ∧
    (pageCount normalCh ≤ off.toNat → ∃ c, calcObjPpaLoop normalCh o off ppa = .done c) := by
  have hlen : (pageSites (normalChs normalCh)).length = pageCount normalCh := by
    rw [length_pageSites, pageCount_eq]
    simp only [PAGE_PER_BLOCK_SLC_MODE, PLANE_PER_CE, CE_PER_CH]
    omega
  refine ⟨fun hoff => ?_, fun hoff => ?_⟩
  · obtain ⟨hdiv, hmod, hlt⟩ := obj_digits hk o.toNat (pageCount_eq ▸ hoff)
    rw [calcObjPpaLoop_eq, getElem?_pageSites hk (by rw [hlen]; exact hoff), Option.elim_some]
    simp only [assignCoord, addrOf, pageCount_eq, hdiv, hmod]
    -- the object is a multiple of every radix up to the block
    generalize off.toNat / (normalChs normalCh).length = q at hlt
    have h1 : (o.toNat * 6144 + q) % 8 = q % 8 := by omega
    have h2 : (o.toNat * 6144 + q) / 8 % 2 = q / 8 % 2 := by omega
    have h3 : (o.toNat * 6144 + q) / 16 % 384 = q / 16 := by omega
    have h4 : (o.toNat * 6144 + q) / 6144 = o.toNat := by omega
    rw [h1, h2, h3, h4]
  · rw [calcObjPpaLoop_eq, List.getElem?_eq_none (by rw [hlen]; exact hoff)]
    exact ⟨_, rfl⟩

/-- Every usable coordinate is that of a page number. -/
theorem addrOf_surj (hk : 0 < (normalChs normalCh).length) {c : Coord} (hc : c.Usable normalCh) :
    ∃ n, n < pageCount normalCh * BLOCK_PER_PLANE ∧ addrOf normalCh n = c := by
  obtain ⟨hnormal, hch, hce, hlun, hplane, hblock, hpage⟩ := hc
  have hmem : c.ch ∈ normalChs normalCh :=
    List.mem_filter.mpr ⟨List.mem_range.mpr hch, beq_iff_eq.mpr hnormal⟩
  obtain ⟨i, hi, hgi⟩ := List.getElem_of_mem hmem
  simp only [CE_PER_CH, PLANE_PER_LUN, BLOCK_PER_PLANE, PAGE_PER_BLOCK_SLC_MODE] at *
  let q := ((c.block * 384 + c.page) * 2 + c.plane) * 8 + c.ce
  have hq : q < 6144 * 1006 := by omega
  have hdiv : ((normalChs normalCh).length * q + i) / (normalChs normalCh).length = q := by
    rw [Nat.mul_add_div hk, Nat.div_eq_of_lt hi, Nat.add_zero]
  have hmod : ((normalChs normalCh).length * q + i) % (normalChs normalCh).length = i := by
    rw [Nat.mul_add_mod, Nat.mod_eq_of_lt hi]
  refine ⟨(normalChs normalCh).length * q + i, ?_, ?_⟩
  · rw [pageCount_eq, Nat.mul_assoc]
    calc (normalChs normalCh).length * q + i < (normalChs normalCh).length * q + (normalChs normalCh).length := by omega
      _ = (normalChs normalCh).length * (q + 1) := (Nat.mul_succ _ _).symm
      _ ≤ (normalChs normalCh).length * (6144 * 1006) := Nat.mul_le_mul_left _ hq
  · have hcoord : (normalChs normalCh).getD i 0 = c.ch := by
      rw [← List.getElem_eq_getD (h := hi) 0]
      exact hgi
    simp only [addrOf, hdiv, hmod, hcoord, q]
    cases c with
    | mk ch ce lun plane block page =>
      simp only [Coord.mk.injEq, true_and] at *
      omega

/-- Page numbers with the same digits are equal. -/
theorem addrOf_inj (hk : 0 < (normalChs normalCh).length) {n n' : Nat}
    (h : addrOf normalCh n = addrOf normalCh n') : n = n' := by
  simp only [addrOf, Coord.mk.injEq] at h
  obtain ⟨hch, hce, -, hplane, hblock, hpage⟩ := h
  have hnodup : (normalChs normalCh).Nodup := List.nodup_range.filter _
  have hmod : n % (normalChs normalCh).length = n' % (normalChs normalCh).length := by
    rw [← List.getElem_eq_getD (h := Nat.mod_lt n hk) 0,
      ← List.getElem_eq_getD (h := Nat.mod_lt n' hk) 0] at hch
    exact (List.Nodup.getElem_inj_iff hnodup).mp hch
  have hdiv : n / (normalChs normalCh).length = n' / (normalChs normalCh).length := by omega
  rw [← Nat.div_add_mod n (normalChs normalCh).length, hdiv, hmod, Nat.div_add_mod]

end

/-! ## The translations -/

/-- `L2P_calc_ppa` is a bijection onto the usable flash: it assigns every page
number its coordinates, of which no field is cut off, and these run through the
pages of the normal channels, each once. -/
theorem calcPpa_bijOn (normalCh : Nat → UInt32) (hk : 1 ≤ (normalChs normalCh).length) :
    ∃ address : UInt32 → Coord,
      (∀ lpn : UInt32, lpn.toNat < pageCount normalCh * BLOCK_PER_PLANE → ∀ ppa,
        calcPpaLoop normalCh lpn ppa = .returned (assignCoord ppa (address lpn)) ∧
          coord (calcPpa normalCh lpn ppa) = address lpn) ∧
      Set.BijOn address {lpn | lpn.toNat < pageCount normalCh * BLOCK_PER_PLANE} {c | c.Usable normalCh} := by
  refine ⟨fun lpn => addrOf normalCh lpn.toNat, fun lpn hlpn ppa => ?_, ?_, ?_, ?_⟩
  · have hloop := calcPpaLoop_spec hk lpn ppa
    rw [calcPpa, hloop]
    exact ⟨rfl, coord_assignCoord (addrOf_usable hk hlpn) ppa⟩
  · exact fun lpn hlpn => addrOf_usable hk hlpn
  · exact fun lpn _ lpn' _ h => UInt32.toNat_inj.mp (addrOf_inj hk h)
  · intro c hc
    obtain ⟨n, hn, rfl⟩ := addrOf_surj hk hc
    have hlt : n < 2 ^ 32 := by
      have := length_normalChs_le normalCh
      simp only [pageCount_eq, BLOCK_PER_PLANE] at hn
      omega
    have htoNat : (UInt32.ofNat n).toNat = n := by
      rw [UInt32.toNat_ofNat', Nat.mod_eq_of_lt hlt]
    exact ⟨UInt32.ofNat n, by rw [Set.mem_ofPred_eq, htoNat]; exact hn, by simp only [htoNat]⟩

/-- With channels 1 and 3 normal there are 6180864 pages per channel, and the
first pages are on these two in turn. -/
theorem calcPpa_bijOn_two :
    ∃ address : UInt32 → Coord,
      Set.InjOn address {lpn | lpn.toNat < 12361728} ∧
        ∀ lpn : UInt32, lpn.toNat < 12361728 → ∀ ppa,
          coord (calcPpa (fun ch => if ch % 2 = 1 then 1 else 0) lpn ppa) = address lpn := by
  obtain ⟨address, h1, h2⟩ := calcPpa_bijOn (fun ch => if ch % 2 = 1 then 1 else 0) (by decide)
  have hcount : pageCount (fun ch => if ch % 2 = 1 then 1 else 0) * BLOCK_PER_PLANE = 12361728 := by decide
  rw [hcount] at h1 h2
  exact ⟨address, h2.injOn, fun lpn hlpn ppa => (h1 lpn hlpn ppa).2⟩

/-- The two translations agree: a page of an object is the page whose number is
its offset in the object's block, and an offset beyond the object assigns nothing. -/
theorem calcObjPpa_agrees (normalCh : Nat → UInt32) (hk : 1 ≤ (normalChs normalCh).length) (o : UInt32)
    (ho : o.toNat < BLOCK_PER_PLANE) (off : UInt64) (ppa ppa' : PhyPageAddr) :
    (off.toNat < pageCount normalCh →
      coord (calcObjPpa normalCh o off ppa) =
        coord (calcPpa normalCh (UInt32.ofNat (o.toNat * pageCount normalCh + off.toNat)) ppa')) ∧
    (pageCount normalCh ≤ off.toNat → calcObjPpa normalCh o off ppa = ppa) := by
  refine ⟨fun hoff => ?_, fun hoff => ?_⟩
  · have hn : o.toNat * pageCount normalCh + off.toNat < pageCount normalCh * BLOCK_PER_PLANE := by
      calc o.toNat * pageCount normalCh + off.toNat < o.toNat * pageCount normalCh + pageCount normalCh := by omega
        _ = (o.toNat + 1) * pageCount normalCh := (Nat.succ_mul _ _).symm
        _ ≤ BLOCK_PER_PLANE * pageCount normalCh := Nat.mul_le_mul_right _ ho
        _ = pageCount normalCh * BLOCK_PER_PLANE := Nat.mul_comm _ _
    have hlt : o.toNat * pageCount normalCh + off.toNat < 2 ^ 32 := by
      refine Nat.lt_trans hn ?_
      have := length_normalChs_le normalCh
      simp only [pageCount_eq, BLOCK_PER_PLANE]
      omega
    rw [calcObjPpa, (calcObjPpaLoop_spec hk o off ppa).1 hoff, calcPpa, calcPpaLoop_spec hk, UInt32.toNat_ofNat',
      Nat.mod_eq_of_lt hlt]
    exact (coord_assignCoord (addrOf_usable hk hn) ppa).trans (coord_assignCoord (addrOf_usable hk hn) ppa').symm
  · obtain ⟨c, hc⟩ := (calcObjPpaLoop_spec hk o off ppa).2 hoff
    rw [calcObjPpa, hc]

/-- The last page of object 5, with every channel normal. -/
theorem calcObjPpa_agrees_last :
    coord (calcObjPpa (fun _ => 1) 5 24575 ⟨0, 0, 0⟩) = coord (calcPpa (fun _ => 1) 147455 ⟨0, 0, 0⟩) := by
  have h := (calcObjPpa_agrees (fun _ => 1) (by decide) 5 (by decide) 24575
    ⟨0, 0, 0⟩ ⟨0, 0, 0⟩).1 (by decide)
  have hn : UInt32.ofNat ((5 : UInt32).toNat * pageCount (fun _ => 1) + (24575 : UInt64).toNat) =
    147455 := by decide
  rw [hn] at h
  exact h

end OpenSSDEmu.L2.L2p
