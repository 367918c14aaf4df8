import OpenSSDEmu.L4Pipeline.Storage
import OpenSSDEmu.L2Machine.L2p

/-!
# Pages by number

`FTL_handle_tosq` puts every request on one fixed page and has the call of
`L2P_calc_ppa` commented out. What that call would give: a page number goes
through the address bits, the bytes of the queue entry, the bits again and the
decimal fields of the record, and each page number has records of its own.

* `pages_placed`: from any stale addresses, entries and buffers, a sequence of
  page writes leaves one record for each, and the scans of two records agree
  exactly when the page numbers do.
-/
namespace OpenSSDEmu.L4.Pipeline
open L2.Hcl L2.Fcl L2.L2p
open L1.FlashLog
open L3.Buffer (BUFFER_NUMBER)
open OpenSSDEmu.Bytes

/-- A write of one page: what `L2P_calc_ppa` and `FCL_set_SQ_entry` are given
and what they find. -/
structure PageWrite where
  lpn : UInt32
  data : List UInt8
  buf : Nat
  hcmd : Nat
  sqIndex : Nat
  pool : SqPool
  stale : PhyPageAddr
  junk : BitVec 64

section
variable (memBase : BitVec 32) (normalCh : Nat → UInt32)

def PageWrite.request (w : PageWrite) : EmuSq :=
  let ppa := calcPpa normalCh w.lpn w.stale
  let fcl := setSQEntry memBase w.pool w.hcmd w.sqIndex w.buf .write ppa HCMD_SPACE
  ⟨ppa.ch.toNat, ppa.ce.toNat, w.sqIndex, fcl.entry ppa.ch.toNat w.sqIndex⟩

/-- The buffers are filled and the requests executed, one after the other. -/
def execWrites (torn : List UInt8) (locals : Ppa) (fuel : Nat) :
    List PageWrite → Seg → List UInt8 → Option (Seg × List UInt8)
  | [], m, file => some (m, file)
  | w :: ws, m, file => do
    let m := blit m (getBufferAddr memBase w.buf).toNat w.data
    let (m, file) ← runCall torn locals fuel (beCall w.junk (w.request memBase normalCh)) m file
    execWrites torn locals fuel ws m file

end

/-- The fields of a coordinate. -/
def Coord.addr (c : Coord) : Ppa where
  ch := UInt32.ofNat c.ch
  ce := UInt32.ofNat c.ce
  lun := UInt32.ofNat c.lun
  plane := UInt32.ofNat c.plane
  block := UInt32.ofNat c.block
  page := UInt32.ofNat c.page

section
variable {normalCh : Nat → UInt32} {c c' : Coord}

theorem logAddr_eq (ppa : PhyPageAddr) : logAddr ppa = Coord.addr (coord ppa) := by
  have h16 : ∀ x : UInt16, x.toUInt32 = UInt32.ofNat x.toNat := fun x => by
    apply UInt32.toNat_inj.mp
    have h : x.toNat < UInt32.size := Nat.lt_trans x.toNat_lt (by decide)
    rw [UInt16.toNat_toUInt32, UInt32.toNat_ofNat_of_lt' h]
  rw [logAddr, Coord.addr, coord, h16, h16]

/-- Every field of a usable coordinate has at most four digits. -/
theorem usable_le (hc : c.Usable normalCh) :
    c.ch ≤ 9999 ∧ c.ce ≤ 9999 ∧ c.lun ≤ 9999 ∧ c.plane ≤ 9999 ∧ c.block ≤ 9999 ∧ c.page ≤ 9999 := by
  obtain ⟨-, h1, h2, h3, h4, h5, h6⟩ := hc
  unfold TOTAL_CHANNEL at h1
  unfold CE_PER_CH at h2
  unfold PLANE_PER_LUN at h4
  unfold BLOCK_PER_PLANE at h5
  unfold PAGE_PER_BLOCK_SLC_MODE at h6
  omega

theorem toNat_field {n : Nat} (h : n ≤ 9999) : (UInt32.ofNat n).toNat = n :=
  UInt32.toNat_ofNat_of_lt' (Nat.lt_of_le_of_lt h (by decide))

theorem addr_small (hc : c.Usable normalCh) : (Coord.addr c).Small := by
  obtain ⟨h1, h2, h3, h4, h5, h6⟩ := usable_le hc
  intro v hv
  simp only [Ppa.args, Coord.addr, List.mem_cons, List.not_mem_nil, or_false] at hv
  rcases hv with rfl | rfl | rfl | rfl | rfl | rfl <;> rwa [toNat_field (by assumption)]

theorem addr_inj (hc : c.Usable normalCh) (hc' : c'.Usable normalCh) (h : Coord.addr c = Coord.addr c') :
    c = c' := by
  have field : ∀ {m n : Nat}, m ≤ 9999 → n ≤ 9999 → UInt32.ofNat m = UInt32.ofNat n → m = n := fun hm hn e => by
    rw [← toNat_field hm, e, toNat_field hn]
  obtain ⟨h1, h2, h3, h4, h5, h6⟩ := usable_le hc
  obtain ⟨k1, k2, k3, k4, k5, k6⟩ := usable_le hc'
  simp only [Coord.addr, Ppa.mk.injEq] at h
  obtain ⟨e1, e2, e3, e4, e5, e6⟩ := h
  cases c
  cases c'
  simp only [Coord.mk.injEq]
  exact ⟨field h1 k1 e1, field h2 k2 e2, field h3 k3 e3, field h4 k4 e4, field h5 k5 e5, field h6 k6 e6⟩

end

section
variable {p : BitVec 32} {normalCh : Nat → UInt32}

/-- The record address of a page number. -/
def recordAddr (normalCh : Nat → UInt32) (lpn : UInt32) : Ppa := Coord.addr (addrOf normalCh lpn.toNat)

/-- A page number that there is, a whole page and a buffer that there is. -/
structure PageWrite.Ok (normalCh : Nat → UInt32) (w : PageWrite) : Prop where
  lpn : w.lpn.toNat < pageCount normalCh * BLOCK_PER_PLANE
  data : w.data.length = PAGE_LEN
  buf : w.buf < BUFFER_NUMBER

theorem PageWrite.call (hp : p.toNat + 1 * GB + 16 * KB < 4 * GB) (hk : 0 < (normalChs normalCh).length)
    {w : PageWrite} (hw : w.Ok normalCh) :
    beCall w.junk (w.request (memBaseOf p) normalCh) =
      some (.write (recordAddr normalCh w.lpn) (getBufferAddr (memBaseOf p) w.buf)) := by
  have haddr : coord (calcPpa normalCh w.lpn w.stale) = addrOf normalCh w.lpn.toNat := by
    rw [calcPpa, calcPpaLoop_spec hk]
    exact coord_assignCoord (addrOf_usable hk hw.lpn) _
  rw [PageWrite.request, beCall_setSQEntry hp _ _ _ hw.buf (.inr rfl), logAddr_eq, haddr]
  rfl

/-- What the writes leave behind a log. -/
theorem execWrites_log (hp : p.toNat + 1 * GB + 16 * KB < 4 * GB) (hk : 0 < (normalChs normalCh).length)
    (torn : List UInt8) (locals : Ppa) (fuel : Nat) (ws : List PageWrite) (hws : ∀ w ∈ ws, w.Ok normalCh)
    (m : Seg) (us : List Write) :
    ∃ m' vs, execWrites (memBaseOf p) normalCh torn locals fuel ws m (log us) = some (m', log (us ++ vs)) ∧
      vs.map (fun v => (v.ppa, v.payload)) = ws.map fun w => (recordAddr normalCh w.lpn, w.data) := by
  induction ws generalizing m us with
  | nil => exact ⟨m, [], by rw [List.append_nil]; rfl, rfl⟩
  | cons w ws ih =>
    have hw := hws w List.mem_cons_self
    let v : Write := ⟨recordAddr normalCh w.lpn, w.data, hw.data⟩
    obtain ⟨m', vs, he, hvs⟩ := ih (fun x hx => hws x (List.mem_cons_of_mem w hx))
      (blit m (getBufferAddr (memBaseOf p) w.buf).toNat w.data) (us ++ [v])
    refine ⟨m', v :: vs, ?_, by rw [List.map_cons, List.map_cons, hvs]⟩
    have hlog : writeLog (log us) v.ppa v.payload = log (us ++ [v]) := by
      rw [log, log, List.foldl_append]
      rfl
    simp only [execWrites, PageWrite.call hp hk hw, runCall, window_blit hw.data, Option.bind_eq_bind,
      Option.bind_some]
    rw [show writeLog (log us) (recordAddr normalCh w.lpn) w.data = _ from hlog, he, List.append_assoc]
    rfl

/-- Page writes with the addresses of `L2P_calc_ppa`, through the queue entries
and the backend into an empty file: one record each, with its page, and two
records scan to the same address exactly when their page numbers are equal. -/
theorem pages_placed (hp : p.toNat + 1 * GB + 16 * KB < 4 * GB) (hk : 1 ≤ (normalChs normalCh).length)
    {ws : List PageWrite} (hws : ∀ w ∈ ws, w.Ok normalCh) (torn : List UInt8) (locals : Ppa) (fuel : Nat) (m : Seg) :
    ∃ m' file, execWrites (memBaseOf p) normalCh torn locals fuel ws m [] = some (m', file) ∧
      file.length = ws.length * RECORD_LEN ∧
      (∀ k w, ws[k]? = some w → (file.drop (k * RECORD_LEN + PPA_LOG_LEN)).take PAGE_LEN = w.data) ∧
      ∀ j k v w locals, ws[j]? = some v → ws[k]? = some w →
        (scanAt file (j * RECORD_LEN) locals = scanAt file (k * RECORD_LEN) locals ↔ v.lpn = w.lpn) := by
  obtain ⟨m', vs, he, hvs⟩ := execWrites_log hp hk torn locals fuel ws hws m []
  have hlen : vs.length = ws.length := by simpa using congrArg List.length hvs
  have hrec : ∀ {k : Nat} {w : PageWrite}, ws[k]? = some w →
      ∃ v : Write, vs[k]? = some v ∧ v.ppa = recordAddr normalCh w.lpn ∧ v.payload = w.data := fun {k w} hw => by
    have h := congrArg (fun l => l[k]?) hvs
    simp only [List.getElem?_map, hw, Option.map_some, Option.map_eq_some_iff, Prod.mk.injEq] at h
    exact h
  have husable : ∀ {k : Nat} {w : PageWrite}, ws[k]? = some w → (addrOf normalCh w.lpn.toNat).Usable normalCh := fun hw =>
    addrOf_usable hk (hws _ (List.mem_of_getElem? hw)).lpn
  have hsmall : ∀ v ∈ vs, v.ppa.Small := fun v hv => by
    obtain ⟨k, hlt, rfl⟩ := List.getElem_of_mem hv
    obtain ⟨v', hv', hppa, -⟩ := hrec (List.getElem?_eq_getElem (hlen ▸ hlt : k < ws.length))
    rw [List.getElem?_eq_getElem hlt] at hv'
    cases hv'
    rw [hppa]
    exact addr_small (husable (List.getElem?_eq_getElem _))
  have hscan : ∀ {k : Nat} {w : PageWrite} {locals : Ppa}, ws[k]? = some w →
      scanAt (log vs) (k * RECORD_LEN) locals = recordAddr normalCh w.lpn := fun {k w locals} hw => by
    obtain ⟨v, hv, hppa, -⟩ := hrec hw
    obtain ⟨rest, hdrop⟩ := log_drop_at hsmall hv
    rw [scanAt, hdrop, scanf_header (hsmall v (List.mem_of_getElem? hv)), assign_args, hppa]
  refine ⟨m', log vs, he, by rw [length_log hsmall, hlen], fun k w hw => ?_, fun j k v w locals hv hw => ?_⟩
  · obtain ⟨v, hv, -, hdata⟩ := hrec hw
    obtain ⟨rest, hdrop⟩ := log_drop_at hsmall hv
    have hh := length_header (hsmall v (List.mem_of_getElem? hv))
    rw [← List.drop_drop, hdrop, ← hh, List.drop_left, ← v.length_payload, List.take_left, hdata]
  · rw [hscan hv, hscan hw]
    refine ⟨fun e => ?_, fun e => by rw [e]⟩
    exact UInt32.toNat_inj.mp (addrOf_inj hk (addr_inj (husable hv) (husable hw) e))

end

/-- Three writes of two pages: the first and the last have the same address. -/
theorem pages_placed_three : ∃ ws : List PageWrite, ws.map PageWrite.lpn = [7, 6, 7] ∧ ∃ m file,
    execWrites (memBaseOf 4096) (fun _ => 1) [] ⟨0, 0, 0, 0, 0, 0⟩ 0 ws (fun _ => 0) [] = some (m, file) ∧
      file.length = 3 * RECORD_LEN ∧ ∀ locals, scanAt file 0 locals = scanAt file (2 * RECORD_LEN) locals ∧
        scanAt file 0 locals ≠ scanAt file (1 * RECORD_LEN) locals := by
  let put (lpn : UInt32) : PageWrite := ⟨lpn, List.replicate PAGE_LEN 65, 0, 0, 0, initHwQueue, ⟨0, 0, 0⟩, 0⟩
  have hws : ∀ w ∈ [put 7, put 6, put 7], w.Ok fun _ => 1 := fun w hw => by
    simp only [List.mem_cons, List.not_mem_nil, or_false] at hw
    rcases hw with rfl | rfl | rfl <;> exact ⟨by decide, List.length_replicate, by decide⟩
  obtain ⟨m, file, he, hlen, -, hscan⟩ :=
    @pages_placed 4096 (fun _ => 1) (by decide) (by decide) _ hws [] ⟨0, 0, 0, 0, 0, 0⟩ 0 fun _ => 0
  refine ⟨_, rfl, m, file, he, hlen, fun locals => ⟨?_, fun e => ?_⟩⟩
  · have h := (hscan 0 2 _ _ locals rfl rfl).mpr rfl
    rwa [Nat.zero_mul] at h
  · have h := (hscan 0 1 _ _ locals rfl rfl).mp (by rwa [Nat.zero_mul])
    exact absurd h (by decide)

end OpenSSDEmu.L4.Pipeline
