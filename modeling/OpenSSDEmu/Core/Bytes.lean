import Mathlib.Data.List.Basic

/-!
# Bytes by address

A segment maps addresses to bytes. `window` reads consecutive bytes, `blit`
writes them, and a 32-bit word is four bytes, the low one first. What is
read after a write depends on whether the two windows are the same or
disjoint; nothing is said about windows that overlap in part.
-/
namespace OpenSSDEmu.Bytes

abbrev Seg := Nat → UInt8

/-- The `n` bytes from `a` on. -/
def window (m : Seg) (a n : Nat) : List UInt8 := (List.range n).map fun k => m (a + k)

/-- `memcpy(a, bs, length)` -/
def blit (m : Seg) (a : Nat) (bs : List UInt8) : Seg :=
  fun x => if a ≤ x then (bs[x - a]?).getD (m x) else m x

section
variable {m : Seg} {a b n k : Nat} {bs : List UInt8}

@[simp] theorem length_window : (window m a n).length = n := by simp [window]

theorem getElem?_window (hk : k < n) : (window m a n)[k]? = some (m (a + k)) := by
  simp [window, hk]

theorem blit_outside (h : k < a ∨ a + bs.length ≤ k) : blit m a bs k = m k := by
  unfold blit
  split
  · rw [List.getElem?_eq_none (by omega), Option.getD_none]
  · rfl

theorem window_congr {m' : Seg} (h : ∀ k, a ≤ k → k < a + n → m' k = m k) :
    window m' a n = window m a n := by
  refine List.map_congr_left fun k hk => h (a + k) (by omega) ?_
  have := List.mem_range.mp hk
  omega

/-- A write is read back. -/
theorem window_blit (h : bs.length = n) : window (blit m a bs) a n = bs := by
  refine List.ext_getElem? fun k => ?_
  by_cases hk : k < n
  · rw [getElem?_window hk, blit, if_pos (Nat.le_add_right a k), Nat.add_sub_cancel_left,
      List.getElem?_eq_getElem (by omega), Option.getD_some]
  · rw [List.getElem?_eq_none (by simpa using Nat.not_lt.mp hk), List.getElem?_eq_none (by omega)]

end

/-! ## Words -/

/-- The four bytes of a word, the low one first. -/
def ofWord (v : UInt32) : List UInt8 :=
  [UInt8.ofNat v.toNat, UInt8.ofNat (v.toNat / 0x100), UInt8.ofNat (v.toNat / 0x10000),
    UInt8.ofNat (v.toNat / 0x1000000)]

/-- The word of four bytes. -/
def word : List UInt8 → UInt32
  | [a, b, c, d] => UInt32.ofNat (a.toNat + 0x100 * b.toNat + 0x10000 * c.toNat + 0x1000000 * d.toNat)
  | _ => 0

def load32 (m : Seg) (a : Nat) : UInt32 := word (window m a 4)

def store32 (m : Seg) (a : Nat) (v : UInt32) : Seg := blit m a (ofWord v)

section
variable {m : Seg} {a b n : Nat} {v : UInt32}

@[simp] theorem length_ofWord : (ofWord v).length = 4 := rfl

theorem word_ofWord (v : UInt32) : word (ofWord v) = v := by
  apply UInt32.toNat_inj.mp
  have hv := v.toNat_lt
  simp only [word, ofWord, UInt32.toNat_ofNat', UInt8.toNat_ofNat']
  omega

@[simp] theorem load32_store32 : load32 (store32 m a v) a = v := by
  rw [load32, store32, window_blit length_ofWord, word_ofWord]

theorem load32_congr {m' : Seg} (h : ∀ k, a ≤ k → k < a + 4 → m' k = m k) :
    load32 m' a = load32 m a := by
  rw [load32, load32, window_congr h]

theorem ofWord_word {bs : List UInt8} (h : bs.length = 4) : ofWord (word bs) = bs := by
  match bs, h with
  | [b0, b1, b2, b3], _ =>
    have h0 := b0.toNat_lt
    have h1 := b1.toNat_lt
    have h2 := b2.toNat_lt
    have h3 := b3.toNat_lt
    have hw : (word [b0, b1, b2, b3]).toNat =
        b0.toNat + 0x100 * b1.toNat + 0x10000 * b2.toNat + 0x1000000 * b3.toNat :=
      UInt32.toNat_ofNat_of_lt' (by simp only [UInt32.size]; omega)
    have hbyte : ∀ {b : UInt8} {x : Nat}, x % 256 = b.toNat → UInt8.ofNat x = b := fun {b x} e => by
      apply UInt8.toNat_inj.mp
      rw [UInt8.toNat_ofNat', ← e]
    simp only [ofWord, hw, List.cons.injEq, and_true]
    exact ⟨hbyte (by omega), hbyte (by omega), hbyte (by omega), hbyte (by omega)⟩

theorem blit_window (m : Seg) (a n : Nat) : blit m a (window m a n) = m := by
  funext k
  unfold blit
  split
  · rename_i hk
    by_cases hlt : k - a < n
    · rw [getElem?_window hlt, Option.getD_some, Nat.add_sub_cancel' hk]
    · rw [List.getElem?_eq_none (by simpa using Nat.not_lt.mp hlt), Option.getD_none]
  · rfl

/-- Storing what is there changes nothing. -/
theorem store32_load32 (m : Seg) (a : Nat) : store32 m a (load32 m a) = m := by
  rw [store32, load32, ofWord_word length_window, blit_window]

theorem store32_outside {k : Nat} (h : k < a ∨ a + 4 ≤ k) : store32 m a v k = m k :=
  blit_outside h

theorem load32_store32_of_disjoint (h : b + 4 ≤ a ∨ a + 4 ≤ b) :
    load32 (store32 m a v) b = load32 m b :=
  load32_congr fun k h1 h2 => store32_outside (by omega)

end

end OpenSSDEmu.Bytes
