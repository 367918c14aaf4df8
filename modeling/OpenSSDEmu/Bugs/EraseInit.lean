import OpenSSDEmu.Core.Loops
import OpenSSDEmu.L4Pipeline.Handlers

/-!
# The initial erase stops after one block

`FTL_erase_init` (src/l2p/l2p.c:129-170) sends an erase request per block of
the flash. `sq_id` and `ret` are initialised before the five loops and guard
the two inner `while` loops: once the first request is sent `sq_id` is an
index and `ret` is `SUCCESS`, so no later round takes an entry or sends
anything. `FTL_handle_tosq` takes a new entry in every round of its loop.

Counterexample (`one_block_erased`): the configured geometry, whose 64384
blocks get one request.

Holds when: there is one block, that is one of each of the five numbers.

* `erase_init_iff`: for every geometry and every state with a free entry on
  channel 0, the requests are the blocks in loop order exactly then.
-/
namespace OpenSSDEmu.Bugs.EraseInit
open Loops L2.Fcl L4.Pipeline

/-- The bounds of the five loops.
mirrors src/config/config.h:23,46,48-50 -/
structure Geometry where
  blockPerPlane : Nat
  lunPerCe : Nat
  planePerLun : Nat
  cePerCh : Nat
  chPerBoard : Nat

def configured : Geometry := ⟨1006, 1, 2, 8, 4⟩

/-- The values of the loop variables in a round. -/
structure Site where
  block : Nat
  lun : Nat
  plane : Nat
  ce : Nat
  ch : Nat
  deriving DecidableEq

/-- An `FCL_send_SQ_entry` call and the round it is made in. -/
structure Request where
  site : Site
  sqId : Nat
  ch : Nat
  ce : Nat
  deriving DecidableEq

/-- The locals `sq_id` (`none` = `INVALID_INDEX`) and `ret` (`true` = `SUCCESS`),
the device, and the requests so far. -/
structure EraseState where
  sqId : Option Nat
  ret : Bool
  dev : Dev
  sent : List Request

/-- `while (sq_id == INVALID_INDEX)`; `none` = still waiting after `fuel` rounds.
mirrors src/l2p/l2p.c:150-153 -/
def getLoop : Nat → Option Nat → Dev → Option (Nat × Dev)
  | _, some sqId, d => some (sqId, d)
  | 0, none, _ => none
  | fuel + 1, none, d =>
    let (sqId, fcl) := getFreeSQEntry d.fcl 0
    getLoop fuel sqId { d with fcl := fcl }

/-- One round. `phyaddr` is filled in for a call that is commented out.
mirrors src/l2p/l2p.c:150-165 -/
def eraseRound (fuel : Nat) (x : Site) (s : EraseState) : Option EraseState := do
  let (sqId, d) ← getLoop fuel s.sqId s.dev
  let s := { s with sqId := some sqId, dev := d }
  -- while (ret == FAIL): a send always succeeds in the emulator build
  if s.ret then return s
  else return { s with ret := true, dev := sendSQEntry d sqId x.ch x.ce,
                       sent := s.sent ++ [⟨x, sqId, x.ch, x.ce⟩] }

/-- mirrors src/l2p/l2p.c:129-170 -/
def eraseInit (fuel : Nat) (g : Geometry) (d : Dev) : Option EraseState :=
  (List.range g.blockPerPlane).foldlM (fun s block =>
    (List.range g.lunPerCe).foldlM (fun s lun =>
      (List.range g.planePerLun).foldlM (fun s plane =>
        (List.range g.cePerCh).foldlM (fun s ce =>
          (List.range g.chPerBoard).foldlM (fun s ch =>
            eraseRound fuel ⟨block, lun, plane, ce, ch⟩ s) s) s) s) s)
    ⟨none, false, d, []⟩

namespace Geometry

/-- All rounds, in loop order. -/
def sites (g : Geometry) : List Site :=
  (List.range g.blockPerPlane).flatMap fun block => (List.range g.lunPerCe).flatMap fun lun =>
    (List.range g.planePerLun).flatMap fun plane => (List.range g.cePerCh).flatMap fun ce =>
      (List.range g.chPerBoard).map fun ch => ⟨block, lun, plane, ce, ch⟩

structure Pos (g : Geometry) : Prop where
  block : 1 ≤ g.blockPerPlane
  lun : 1 ≤ g.lunPerCe
  plane : 1 ≤ g.planePerLun
  ce : 1 ≤ g.cePerCh
  ch : 1 ≤ g.chPerBoard

theorem length_sites (g : Geometry) :
    g.sites.length = g.blockPerPlane * (g.lunPerCe * (g.planePerLun * (g.cePerCh * g.chPerBoard))) := by
  simp [sites, List.length_flatMap]

theorem Pos.sites_cons {g : Geometry} (hg : g.Pos) : ∃ x xs, g.sites = x :: xs := by
  refine List.exists_cons_of_ne_nil fun e => ?_
  have hlen := g.length_sites
  rw [e, List.length_nil] at hlen
  have hpos : 0 < g.blockPerPlane * (g.lunPerCe * (g.planePerLun * (g.cePerCh * g.chPerBoard))) :=
    Nat.mul_pos hg.block (Nat.mul_pos hg.lun (Nat.mul_pos hg.plane (Nat.mul_pos hg.ce hg.ch)))
  omega

end Geometry

/-- One request per site, each to the channel and ce of its site. -/
def Complete (g : Geometry) (s : EraseState) : Prop :=
  s.sent.map (·.site) = g.sites ∧ ∀ r ∈ s.sent, r.ch = r.site.ch ∧ r.ce = r.site.ce

section
variable {g : Geometry} {d : Dev} {fuel : Nat}

theorem eraseInit_eq (fuel : Nat) (g : Geometry) (d : Dev) :
    eraseInit fuel g d = g.sites.foldlM (fun s x => eraseRound fuel x s) ⟨none, false, d, []⟩ := by
  simp only [eraseInit, Geometry.sites, foldlM_flatMap, List.foldlM_map]

/-- With an entry free the first round sends. -/
theorem eraseRound_first {i : Nat} {f : SqPool} (x : Site) (hf : getFreeSQEntry d.fcl 0 = (some i, f)) :
    eraseRound (fuel + 1) x ⟨none, false, d, []⟩ =
      some ⟨some i, true, sendSQEntry { d with fcl := f } i x.ch x.ce, [⟨x, i, x.ch, x.ce⟩]⟩ := by
  have hget : getLoop (fuel + 1) none d = some (i, { d with fcl := f }) := by
    rw [getLoop, hf]
    cases fuel <;> rfl
  simp only [eraseRound, hget, Option.bind_eq_bind, Option.bind_some]
  rfl

/-- Later rounds do nothing. -/
theorem eraseRound_later {i : Nat} {rs : List Request} (x : Site) :
    eraseRound fuel x ⟨some i, true, d, rs⟩ = some ⟨some i, true, d, rs⟩ := by
  cases fuel <;> rfl

theorem free_entry (hfree : ∃ i, i < HW_QUEUE_DEPTH ∧ sqBit d.fcl 0 i = false) :
    ∃ i f, getFreeSQEntry d.fcl 0 = (some i, f) := by
  rcases e : getFreeSQEntry d.fcl 0 with ⟨_ | i, f⟩
  · obtain ⟨i, hi, hbit⟩ := hfree
    rw [(getFreeSQEntry_none e).1 i hi] at hbit
    cases hbit
  · exact ⟨i, f, rfl⟩

/-- The whole run: the request of the first round. -/
theorem eraseInit_sent (fuel : Nat) (hg : g.Pos)
    (hfree : ∃ i, i < HW_QUEUE_DEPTH ∧ sqBit d.fcl 0 i = false) :
    ∃ s x xs i, eraseInit (fuel + 1) g d = some s ∧ g.sites = x :: xs ∧ s.sent = [⟨x, i, x.ch, x.ce⟩] := by
  obtain ⟨i, f, hf⟩ := free_entry hfree
  obtain ⟨x, xs, hsites⟩ := hg.sites_cons
  refine ⟨⟨some i, true, sendSQEntry { d with fcl := f } i x.ch x.ce, [⟨x, i, x.ch, x.ce⟩]⟩, x, xs,
    i, ?_, hsites, rfl⟩
  rw [eraseInit_eq, hsites, List.foldlM_cons, eraseRound_first x hf]
  exact foldlM_fixed (fun y => eraseRound_later y) xs

end

/-- The requests of a run are complete exactly for a flash of one block. -/
theorem erase_init_iff (g : Geometry) (hg : g.Pos) (d : Dev)
    (hfree : ∃ i, i < HW_QUEUE_DEPTH ∧ sqBit d.fcl 0 i = false) (fuel : Nat) :
    (∃ s, eraseInit (fuel + 1) g d = some s ∧ Complete g s) ↔ g = ⟨1, 1, 1, 1, 1⟩ := by
  obtain ⟨s, x, xs, i, hrun, hsites, hsent⟩ := eraseInit_sent fuel hg hfree
  constructor
  · rintro ⟨s', hrun', hcomplete, -⟩
    rw [hrun] at hrun'
    cases hrun'
    have hlen := g.length_sites
    rw [← hcomplete, hsent, List.length_map, List.length_singleton] at hlen
    obtain ⟨block, lun, plane, ce, ch⟩ := g
    -- the number of rounds is one, so each of its factors is
    have h1 := Nat.eq_one_of_mul_eq_one_left hlen.symm
    have h2 := Nat.eq_one_of_mul_eq_one_left h1
    have h3 := Nat.eq_one_of_mul_eq_one_left h2
    obtain rfl := Nat.eq_one_of_mul_eq_one_right hlen.symm
    obtain rfl := Nat.eq_one_of_mul_eq_one_right h1
    obtain rfl := Nat.eq_one_of_mul_eq_one_right h2
    obtain rfl := Nat.eq_one_of_mul_eq_one_right h3
    obtain rfl := Nat.eq_one_of_mul_eq_one_left h3
    rfl
  · rintro rfl
    refine ⟨s, hrun, ?_, fun r hr => ?_⟩
    · rw [hsent, hsites]
      have hxs : xs = [] := by
        have hlen := congrArg List.length hsites
        rw [Geometry.length_sites] at hlen
        exact List.length_eq_zero_iff.mp (by simpa using hlen.symm)
      rw [hxs]
      rfl
    · rw [hsent, List.mem_singleton] at hr
      rw [hr]
      exact ⟨rfl, rfl⟩

/-- A flash of one block, with every entry free. -/
theorem erase_init_iff_single :
    ∃ s, eraseInit 1 ⟨1, 1, 1, 1, 1⟩ Dev.init = some s ∧ Complete ⟨1, 1, 1, 1, 1⟩ s :=
  (erase_init_iff ⟨1, 1, 1, 1, 1⟩ ⟨by decide, by decide, by decide, by decide, by decide⟩ Dev.init
    ⟨0, by decide, sqBit_init 0 0⟩ 0).mpr rfl

/-- The configured flash: no run sends the requests of all blocks. -/
theorem one_block_erased : ¬ ∃ fuel s, eraseInit fuel configured Dev.init = some s ∧ Complete configured s := by
  rintro ⟨fuel, s, hrun, hcomplete, -⟩
  have hlen : configured.sites.length = 64384 := configured.length_sites
  rw [← hcomplete, List.length_map] at hlen
  cases fuel with
  | zero =>
    obtain ⟨x, xs, hsites⟩ := Geometry.Pos.sites_cons (g := configured)
      ⟨by decide, by decide, by decide, by decide, by decide⟩
    rw [eraseInit_eq, hsites, List.foldlM_cons] at hrun
    cases hrun
  | succ fuel =>
    obtain ⟨s', x, xs, i, hrun', -, hsent⟩ := eraseInit_sent (g := configured) (d := Dev.init) fuel
      ⟨by decide, by decide, by decide, by decide, by decide⟩ ⟨0, by decide, sqBit_init 0 0⟩
    rw [hrun] at hrun'
    cases hrun'
    rw [hsent] at hlen
    cases hlen

end OpenSSDEmu.Bugs.EraseInit
