import Mathlib.Data.List.Basic

/-!
# Bitmaps in arrays of 32-bit words

Index `k` is bit `k % 32` of word `k / 32`. The word expressions are the C
ones (`(w & (1 << j)) >> j`, `w | (1 << j)`, `w & ~(1 << j)`); the lemmas
turn them into a predicate on indices (`get`), so a client never sees a
word again.

* `findClear_some`, `findClear_none`: a scan word by word, bit by bit,
  finds the smallest clear index below `32 * n`, or none if all are set.
* `get_setBit`, `get_clearBit`: setting and clearing touch one index.
-/
namespace OpenSSDEmu.Bitmap

abbrev Words := Nat → BitVec 32

def get (m : Words) (k : Nat) : Bool := (m (k / 32)).getLsbD (k % 32)

/-- `((w & (1 << j)) >> j) == 0` -/
def bitClear (w : BitVec 32) (j : Nat) : Bool := ((w &&& (1#32 <<< j)) >>> j) == 0#32

/-- The first clear bit of the first `n` words, as (word, bit). -/
def findClear (m : Words) (n : Nat) : Option (Nat × Nat) :=
  (List.range n).findSome? fun i => ((List.range 32).find? (bitClear (m i))).map (i, ·)

/-- `m[i] |= (1 << j)` -/
def setBit (m : Words) (i j : Nat) : Words := fun k => if k = i then m i ||| (1#32 <<< j) else m k

/-- `m[i] &= ~(1 << j)` -/
def clearBit (m : Words) (i j : Nat) : Words :=
  fun k => if k = i then m i &&& ~~~(1#32 <<< j) else m k

theorem getLsbD_mask (j k : Nat) (hk : k < 32) : (1#32 <<< j).getLsbD k = decide (k = j) := by
  simp only [BitVec.getLsbD_shiftLeft, BitVec.getLsbD_one]
  by_cases h : k < j
  · simp [h, show k ≠ j by omega]
  · simp [h, hk]; omega

theorem bitClear_eq (w : BitVec 32) (j : Nat) (hj : j < 32) : bitClear w j = !w.getLsbD j := by
  cases hb : w.getLsbD j with
  | true =>
    have h1 : ((w &&& (1#32 <<< j)) >>> j).getLsbD 0 = true := by
      simp [getLsbD_mask j j hj, hb]
    simp only [bitClear, Bool.not_true, beq_eq_false_iff_ne]
    intro e; rw [e] at h1; simp at h1
  | false =>
    have h0 : w &&& (1#32 <<< j) = 0#32 := by
      apply BitVec.eq_of_getLsbD_eq
      intro k hk
      rw [BitVec.getLsbD_and, getLsbD_mask j k hk]
      by_cases e : k = j <;> simp [e, hb]
    simp [bitClear, h0]

theorem get_word (m : Words) (i j : Nat) (hj : j < 32) : get m (32 * i + j) = (m i).getLsbD j := by
  unfold get
  rw [show (32 * i + j) / 32 = i by omega, show (32 * i + j) % 32 = j by omega]

/-- A word without a clear bit. -/
theorem get_of_full {m : Words} {i k : Nat} (h : (List.range 32).find? (bitClear (m i)) = none)
    (hk : k / 32 = i) :
    get m k = true := by
  have hk32 : k % 32 < 32 := Nat.mod_lt _ (by decide)
  have hbit := List.find?_eq_none.mp h (k % 32) (List.mem_range.mpr hk32)
  rw [bitClear_eq _ _ hk32] at hbit
  unfold get
  rw [hk]
  simpa using hbit

theorem findClear_some {m : Words} {n i j : Nat} (h : findClear m n = some (i, j)) :
    i < n ∧ j < 32 ∧ get m (32 * i + j) = false ∧ ∀ k, k < 32 * i + j → get m k = true := by
  obtain ⟨l₁, i', l₂, e, hi, hprev⟩ := List.findSome?_eq_some_iff.mp h
  obtain ⟨j', hj, hij⟩ := Option.map_eq_some_iff.mp hi
  simp only [Prod.mk.injEq] at hij
  obtain ⟨rfl, rfl⟩ := hij
  -- the words before the one found are `0, …, i' - 1`
  have hlen : l₁.length + (l₂.length + 1) = n := by simpa using (congrArg List.length e).symm
  have hi' : i' = l₁.length := by
    have : (List.range n)[l₁.length]? = some i' := by rw [e]; simp
    rw [List.getElem?_range (by omega)] at this
    simpa [eq_comm] using this
  have hl : l₁ = List.range i' := by
    have := congrArg (List.take l₁.length) e
    rw [List.take_left, List.take_range] at this
    rw [← this, hi']; congr 1; omega
  obtain ⟨hc, hr, hlt⟩ := List.find?_range_eq_some.mp hj
  have hj : j' < 32 := by simpa using hr
  refine ⟨by omega, hj, ?_, fun k hk => ?_⟩
  · rw [get_word m i' j' hj]
    rw [bitClear_eq _ _ hj] at hc; simpa using hc
  · have hk32 : k % 32 < 32 := Nat.mod_lt _ (by decide)
    by_cases hw : k / 32 = i'
    · have := hlt (k % 32) (by omega)
      rw [bitClear_eq _ _ hk32] at this
      unfold get; rw [hw]; simpa using this
    · have hfull := hprev (k / 32) (by rw [hl]; simp; omega)
      exact get_of_full (Option.map_eq_none_iff.mp hfull) rfl

theorem findClear_none {m : Words} {n : Nat} (h : findClear m n = none) :
    ∀ k, k < 32 * n → get m k = true := by
  intro k hk
  have hfull := List.findSome?_eq_none_iff.mp h (k / 32) (by simp; omega)
  exact get_of_full (Option.map_eq_none_iff.mp hfull) rfl

/-- A scan reads the first `n` words. -/
theorem findClear_congr {m m' : Words} {n : Nat} (h : ∀ i, i < n → m i = m' i) :
    findClear m n = findClear m' n := by
  simp only [findClear, ← List.head?_filterMap]
  congr 1
  refine List.filterMap_congr fun i hi => ?_
  rw [h i (List.mem_range.mp hi)]

theorem get_setBit (m : Words) (i j k : Nat) (hj : j < 32) :
    get (setBit m i j) k = (decide (k = 32 * i + j) || get m k) := by
  have hk32 : k % 32 < 32 := Nat.mod_lt _ (by decide)
  unfold get setBit
  by_cases hw : k / 32 = i
  · simp only [hw, if_true, BitVec.getLsbD_or, getLsbD_mask j _ hk32]
    rw [Bool.or_comm]; congr 1
    simp only [decide_eq_decide]; omega
  · simp only [hw, if_false]
    simp [show k ≠ 32 * i + j by omega]

theorem get_clearBit (m : Words) (i j k : Nat) (hj : j < 32) :
    get (clearBit m i j) k = (!decide (k = 32 * i + j) && get m k) := by
  have hk32 : k % 32 < 32 := Nat.mod_lt _ (by decide)
  unfold get clearBit
  by_cases hw : k / 32 = i
  · simp only [hw, if_true, BitVec.getLsbD_and, BitVec.getLsbD_not, getLsbD_mask j _ hk32, hk32,
      decide_true, Bool.true_and]
    rw [Bool.and_comm]; congr 2
    simp only [decide_eq_decide]; omega
  · simp only [hw, if_false]
    simp [show k ≠ 32 * i + j by omega]

@[simp] theorem get_zero (k : Nat) : get (fun _ => 0#32) k = false := by simp [get]

end OpenSSDEmu.Bitmap
