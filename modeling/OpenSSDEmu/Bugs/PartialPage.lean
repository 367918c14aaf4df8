import Mathlib.Algebra.GroupWithZero.Nat
import OpenSSDEmu.L4Pipeline.Handlers

/-!
# Pages that a request touches in part are not looked up

`FTL_nvme_req_polling` (src/ftl/ftl_nvme.c:82-97) turns the start and the
length of a request into pages one by one, each by a division that rounds
down; `FTL_handle_checkcache` then visits `req_num` pages from `start_lpa` on.
A request that starts or ends inside a page touches one page more than that,
and one of less than a page is visited nowhere. The entry has fields for the
unaligned part (`mod_start_LA`, `mod_req_num`, `start_unalign_sqindex`,
`end_unalign_sqindex`); all are set to 0.

Counterexample (`four_kb_visits_nothing`): 4 KB at block 20.

Holds when: start and length are multiples of four blocks.

* `covers_iff`: for every read or write and every state of the device, the
  pages visited are those touched exactly then.
-/
namespace OpenSSDEmu.Bugs.PartialPage
open L2.Hcl L2.Shmem L4.Pipeline

/-- The loop with the pages it looks up: `cur_lpn` is the local variable.
mirrors src/ftl/ftl_core0.c:35-63 -/
def checkcacheVisits (reqNum : UInt32) : Nat → UInt32 → UInt32 → List UInt32
  | 0, _, _ => []
  | k + 1, curCnt, curLpn =>
    if curCnt < reqNum then curLpn :: checkcacheVisits reqNum k (curCnt + 1) (curLpn + 1) else []

/-- The pages `FTL_handle_checkcache` looks up for the entry `e`. -/
def visited (e : HostCmdEntry) : List UInt32 := checkcacheVisits e.reqNum e.reqNum.toNat e.curCnt e.curLpn

/-- The flash page `p` holds one of the `n` host blocks from `lpn` on. -/
def Touched (lpn n p : Nat) : Prop := ∃ b, lpn ≤ b ∧ b < lpn + n ∧ b / 4 = p

/-- After the command is filled into entry `i` the handler visits exactly the
pages touched, and the counters end at the end of the range. -/
def Covers (d : Dev) (i : Nat) (scmd : HostCmd) (index : Nat) (emuId : UInt32) : Prop :=
  let e := fillEntry (d.entry i) scmd index emuId
  let e' := (handleCheckcache (d.setEntry i e) i).entry i
  (∀ p : UInt32, p ∈ visited e ↔ Touched scmd.lpn.toNat (scmd.size.toNat / 4096) p.toNat) ∧
    e'.curCnt = e.reqNum ∧ e'.curLpn.toNat = e.startLpa.toNat + e.reqNum.toNat

section
variable {d : Dev} {i : Nat} {e : HostCmdEntry} {r c l : UInt32} {k : Nat}

/-- With rounds left the counter is below its bound and does not wrap. -/
theorem counter_step (hc : c.toNat + (k + 1) = r.toNat) : c < r ∧ (c + 1).toNat = c.toNat + 1 := by
  have := r.toNat_lt
  refine ⟨?_, ?_⟩
  · rw [UInt32.lt_iff_toNat_lt]
    omega
  · rw [UInt32.toNat_add, UInt32.toNat_one]
    omega

/-- The loop runs as often as it visits. -/
theorem checkcacheLoop_eq (hc : c.toNat + k = r.toNat) :
    checkcacheLoop r k c e = (r, { e with curLpn := e.curLpn + UInt32.ofNat k }) := by
  induction k generalizing c e with
  | zero =>
    have : c = r := UInt32.toNat_inj.mp hc
    subst this
    simp [checkcacheLoop]
  | succ k ih =>
    obtain ⟨hlt, hsucc⟩ := counter_step hc
    rw [checkcacheLoop, if_pos hlt, ih (by omega)]
    simp only [UInt32.ofNat_add, UInt32.ofNat_one, UInt32.add_assoc, UInt32.add_comm 1]

theorem mem_checkcacheVisits (hc : c.toNat + k = r.toNat) (hl : l.toNat + k < 2 ^ 32) (p : UInt32) :
    p ∈ checkcacheVisits r k c l ↔ l.toNat ≤ p.toNat ∧ p.toNat < l.toNat + k := by
  induction k generalizing c l with
  | zero =>
    simp only [checkcacheVisits, List.not_mem_nil, false_iff]
    omega
  | succ k ih =>
    obtain ⟨hlt, hsucc⟩ := counter_step hc
    have hl' : (l + 1).toNat = l.toNat + 1 := by
      rw [UInt32.toNat_add, UInt32.toNat_one]
      omega
    rw [checkcacheVisits, if_pos hlt, List.mem_cons, ih (by omega) (by omega), ← UInt32.toNat_inj, hl']
    omega

/-- What the handler leaves in its entry. -/
theorem handleCheckcache_entry (hc : e.curCnt = 0) :
    (handleCheckcache (d.setEntry i e) i).entry i =
      { e with curLpn := e.curLpn + e.reqNum, curCnt := e.reqNum } := by
  have hloop : checkcacheLoop e.reqNum e.reqNum.toNat e.curCnt e =
      (e.reqNum, { e with curLpn := e.curLpn + UInt32.ofNat e.reqNum.toNat }) :=
    checkcacheLoop_eq (by rw [hc, UInt32.toNat_zero, Nat.zero_add])
  rw [UInt32.ofNat_toNat] at hloop
  have hentry : (d.setEntry i e).entry i = e := if_pos rfl
  simp only [handleCheckcache, hentry, hloop]
  cases e.opCode <;> exact if_pos rfl

end

section
variable {scmd : HostCmd} {lpn n : Nat}

/-- Two roundings down give the pages touched for whole pages only. -/
theorem range_eq_touched_iff (hn : 1 ≤ n) :
    (∀ p, lpn / 4 ≤ p ∧ p < lpn / 4 + n / 4 ↔ Touched lpn n p) ↔ lpn % 4 = 0 ∧ n % 4 = 0 := by
  constructor
  · intro h
    -- the page of the last block
    have hlast := (h ((lpn + n - 1) / 4)).mpr ⟨lpn + n - 1, by omega, by omega, rfl⟩
    omega
  · rintro ⟨hl, hm⟩ p
    constructor
    · rintro ⟨h1, h2⟩
      exact ⟨4 * p, by omega, by omega, by omega⟩
    · rintro ⟨b, h1, h2, rfl⟩
      omega

/-- The pages visited: as many as whole pages fit the length, from that of the first block on. -/
theorem mem_visited {e : HostCmdEntry} {index : Nat} {emuId : UInt32}
    (hfit : scmd.lpn.toNat + scmd.size.toNat / 4096 ≤ 2 ^ 32) (p : UInt32) :
    p ∈ visited (fillEntry e scmd index emuId) ↔
      scmd.lpn.toNat / 4 ≤ p.toNat ∧ p.toNat < scmd.lpn.toNat / 4 + scmd.size.toNat / 4096 / 4 := by
  have hreq : (fillEntry e scmd index emuId).reqNum.toNat = scmd.size.toNat / 4096 / 4 := by
    simp only [fillEntry, UInt32.toNat_div]
    rfl
  have hlpn : (fillEntry e scmd index emuId).curLpn.toNat = scmd.lpn.toNat / 4 := by
    simp only [fillEntry, UInt32.toNat_div]
    rfl
  have hcnt : (fillEntry e scmd index emuId).curCnt.toNat = 0 := rfl
  rw [visited, mem_checkcacheVisits (by rw [hcnt, Nat.zero_add]) (by rw [hreq, hlpn]; omega), hreq, hlpn]

end

/-- The handler visits the pages a request touches exactly if the request starts
and ends at page boundaries, whatever its op. -/
theorem covers_iff (d : Dev) (i : Nat) (scmd : HostCmd) (index : Nat) (emuId : UInt32) {n : Nat}
    (hn : 1 ≤ n)
    (hsize : scmd.size.toNat = n * 4096) (hfit : scmd.lpn.toNat + n ≤ 2 ^ 32) :
    Covers d i scmd index emuId ↔ scmd.lpn.toNat % 4 = 0 ∧ n % 4 = 0 := by
  have hblocks : scmd.size.toNat / 4096 = n := by omega
  have hcounters : ((handleCheckcache (d.setEntry i (fillEntry (d.entry i) scmd index emuId)) i).entry i).curCnt =
        (fillEntry (d.entry i) scmd index emuId).reqNum ∧
      ((handleCheckcache (d.setEntry i (fillEntry (d.entry i) scmd index emuId)) i).entry i).curLpn.toNat =
        (fillEntry (d.entry i) scmd index emuId).startLpa.toNat +
          (fillEntry (d.entry i) scmd index emuId).reqNum.toNat := by
    rw [handleCheckcache_entry rfl]
    refine ⟨rfl, ?_⟩
    simp only [fillEntry, UInt32.toNat_add, UInt32.toNat_div, show HOST_BLOCK_SIZE.toNat = 4096 from rfl,
      show UInt32.toNat 4 = 4 from rfl]
    omega
  have hpages : (∀ p : UInt32, p ∈ visited (fillEntry (d.entry i) scmd index emuId) ↔
        Touched scmd.lpn.toNat (scmd.size.toNat / 4096) p.toNat) ↔
      ∀ p, scmd.lpn.toNat / 4 ≤ p ∧ p < scmd.lpn.toNat / 4 + n / 4 ↔ Touched scmd.lpn.toNat n p := by
    simp only [mem_visited (hblocks ▸ hfit), hblocks]
    refine ⟨fun h p => ?_, fun h p => h p.toNat⟩
    by_cases hp : p < 2 ^ 32
    · have hofNat : (UInt32.ofNat p).toNat = p := by rw [UInt32.toNat_ofNat', Nat.mod_eq_of_lt hp]
      exact hofNat ▸ h (UInt32.ofNat p)
    · -- no page number has more than 30 bits
      refine iff_of_false (by omega) ?_
      rintro ⟨b, -, hb, rfl⟩
      omega
  rw [Covers, ← range_eq_touched_iff hn, ← hpages]
  exact ⟨fun h => h.1, fun h => ⟨h, hcounters⟩⟩

/-- 16 KB at block 20 are page 5. -/
theorem covers_iff_page : Covers Dev.init 0 ⟨SHM_READ_OPS, 20, 16384⟩ 0 1 :=
  (covers_iff Dev.init 0 ⟨SHM_READ_OPS, 20, 16384⟩ 0 1 (n := 4) (by decide) rfl (by decide)).mpr (by decide)

/-- 4 KB at block 20 are part of page 5, and no page is visited. -/
theorem four_kb_visits_nothing : ¬ Covers Dev.init 0 ⟨SHM_READ_OPS, 20, 4096⟩ 0 1 := by
  rintro ⟨h, -⟩
  have hmem := (h 5).mpr ⟨20, by decide, by decide, rfl⟩
  have hnone : visited (fillEntry (Dev.init.entry 0) ⟨SHM_READ_OPS, 20, 4096⟩ 0 1) = [] := by decide
  rw [hnone] at hmem
  exact absurd hmem List.not_mem_nil

end OpenSSDEmu.Bugs.PartialPage
