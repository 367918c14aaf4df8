import Mathlib.Algebra.GroupWithZero.Nat
import Mathlib.Data.List.TakeDrop
import Mathlib.Data.List.TakeWhile

/-!
# Formatted input and output on byte streams

The part of the C library's `fprintf`, `fscanf`, `fseek` and `fread` that a
program needs which writes and reads records of unsigned numbers in text. A
format is a list of pieces, the same for both directions: white space,
literal bytes and `%<width>u`.

* `scanf` returns the numbers it assigned and the input it left unread. It
  stops at the first piece that does not match; what earlier pieces read
  stays read.
* `scanUnsigned_printed`: a number printed by `%<width>u` is read back when it has
  at most `width` digits and no digit follows.
* `fread`: an element that is not there in full leaves the buffer with
  indeterminate contents, given here as a parameter.
-/
namespace OpenSSDEmu.Stdio

/-- `isspace` in the "C" locale. -/
def isSpace (b : UInt8) : Bool := b == 32 || (9 ≤ b && b ≤ 13)

/-- `isdigit`. -/
def isDigit (b : UInt8) : Bool := 48 ≤ b && b ≤ 57

inductive Piece
  | space (b : UInt8)
  | lit (b : UInt8)
  | unsigned (width : Nat)
  deriving DecidableEq, Repr

abbrev Format := List Piece

def piece (b : UInt8) : Piece := if isSpace b then .space b else .lit b

/-- The pieces of a format string, with widths of one digit. -/
def format : List Char → Format
  | '%' :: d :: 'u' :: cs => .unsigned (d.toNat - 48) :: format cs
  | c :: cs => piece c.toUInt8 :: format cs
  | [] => []

/-! ## Output -/

def decimal (n : Nat) : List UInt8 := (Nat.toDigits 10 n).map Char.toUInt8

/-- `%<width>u`: at least `width` bytes, filled up with blanks on the left. -/
def printUnsigned (width n : Nat) : List UInt8 :=
  List.replicate (width - (decimal n).length) 32 ++ decimal n

def printf : Format → List UInt32 → List UInt8
  | [], _ => []
  | .space b :: f, args => b :: printf f args
  | .lit b :: f, args => b :: printf f args
  | .unsigned w :: f, arg :: args => printUnsigned w arg.toNat ++ printf f args
  | .unsigned _ :: f, [] => printf f []

/-! ## Input -/

/-- The number a string of digits denotes, as an `unsigned int`. -/
def valueOf (ds : List UInt8) : UInt32 := UInt32.ofNat (Nat.ofDigitChars 10 (ds.map Char.ofUInt8) 0)

/-- The digits of a number, at most `width` of them. -/
def scanDigits (width : Nat) (neg : Bool) (inp : List UInt8) : Option UInt32 × List UInt8 :=
  let ds := (inp.take width).takeWhile isDigit
  if ds = [] then (none, inp) else (some (if neg then 0 - valueOf ds else valueOf ds), inp.drop ds.length)

/-- `%<width>u`: skip white space, then an optional sign and digits, at most
`width` bytes together. A sign without digits is read and does not match. -/
def scanUnsigned (width : Nat) (inp : List UInt8) : Option UInt32 × List UInt8 :=
  match inp.dropWhile isSpace with
  | [] => (none, [])
  | c :: inp =>
    if c = 43 then scanDigits (width - 1) false inp
    else if c = 45 then scanDigits (width - 1) true inp
    else scanDigits width false (c :: inp)

def scanf : Format → List UInt8 → List UInt32 × List UInt8
  | [], inp => ([], inp)
  | .space _ :: f, inp => scanf f (inp.dropWhile isSpace)
  | .lit b :: f, inp =>
    match inp with
    | c :: inp => if c = b then scanf f inp else ([], c :: inp)
    | [] => ([], [])
  | .unsigned w :: f, inp =>
    match scanUnsigned w inp with
    | (some v, inp) => let (vs, inp) := scanf f inp; (v :: vs, inp)
    | (none, inp) => ([], inp)

/-- `fseek(fp, -k, SEEK_CUR)`; `none` when it fails. -/
def seekBack (pos k : Nat) : Option Nat := if k ≤ pos then some (pos - k) else none

/-- `fread(buf, size, 1, fp)`: the buffer afterwards. `torn` is what it
holds when only a part of the element was there. -/
def fread (size : Nat) (inp buf torn : List UInt8) : List UInt8 :=
  if size ≤ inp.length then inp.take size else if inp = [] then buf else torn

/-! ## Reading back what was printed -/

/-- How many blanks a text begins with. -/
def blanks (inp : List UInt8) : Nat := (inp.takeWhile isSpace).length

theorem blanks_le (inp : List UInt8) : blanks inp ≤ inp.length := (List.takeWhile_prefix isSpace).length_le

theorem dropWhile_isSpace (inp : List UInt8) : inp.dropWhile isSpace = inp.drop (blanks inp) := by
  have h := List.takeWhile_append_dropWhile (p := isSpace) (l := inp)
  calc inp.dropWhile isSpace
      = (inp.takeWhile isSpace ++ inp.dropWhile isSpace).drop (inp.takeWhile isSpace).length :=
        List.drop_left.symm
    _ = inp.drop (blanks inp) := by rw [h, blanks]

theorem scanf_space (b : UInt8) (f : Format) (inp : List UInt8) :
    scanf (.space b :: f) inp = scanf f (inp.drop (blanks inp)) := by rw [scanf, dropWhile_isSpace]

theorem scanf_lit (b : UInt8) (f : Format) (inp : List UInt8) :
    scanf (.lit b :: f) (b :: inp) = scanf f inp := by
  simp [scanf]

/-- A literal that is not there stops the scan. -/
theorem scanf_lit_ne {b c : UInt8} (h : c ≠ b) (f : Format) (inp : List UInt8) :
    scanf (.lit b :: f) (c :: inp) = ([], c :: inp) := by simp [scanf, h]

theorem isDigit_iff {b : UInt8} : isDigit b = true ↔ 48 ≤ b.toNat ∧ b.toNat ≤ 57 := by
  simp [isDigit, UInt8.le_iff_toNat_le]

theorem isSpace_iff {b : UInt8} : isSpace b = true ↔ b.toNat = 32 ∨ 9 ≤ b.toNat ∧ b.toNat ≤ 13 := by
  simp [isSpace, UInt8.le_iff_toNat_le, ← UInt8.toNat_inj]

/-- A digit is neither white space nor a sign. -/
theorem isDigit_ne {b : UInt8} (h : isDigit b = true) : isSpace b = false ∧ b ≠ 43 ∧ b ≠ 45 := by
  rw [isDigit_iff] at h
  refine ⟨?_, ?_, ?_⟩
  · rw [← Bool.not_eq_true, isSpace_iff]
    omega
  · intro heq
    subst heq
    simp at h
  · intro heq
    subst heq
    simp at h

theorem isDigit_toUInt8 {c : Char} (h : c.isDigit = true) :
    isDigit c.toUInt8 = true ∧ Char.ofUInt8 c.toUInt8 = c := by
  have h' : 48 ≤ c.val.toNat ∧ c.val.toNat ≤ 57 := by simpa [Char.isDigit_iff_toNat] using h
  have hb : c.toUInt8.toNat = c.val.toNat := by
    rw [Char.toUInt8, UInt32.toNat_toUInt8]
    omega
  exact ⟨isDigit_iff.mpr (by omega), Char.ext (UInt32.toNat_inj.mp hb)⟩

section
variable {w n : Nat} {rest : List UInt8}

theorem isDigit_of_mem_decimal {b : UInt8} (hb : b ∈ decimal n) : isDigit b = true := by
  obtain ⟨c, hc, rfl⟩ := List.mem_map.mp hb
  exact (isDigit_toUInt8 (Nat.isDigit_of_mem_toDigits (by decide) (by decide) hc)).1

theorem decimal_ne_nil : decimal n ≠ [] := by simp [decimal]

theorem length_decimal_le (hw : 0 < w) (hn : n < 10 ^ w) : (decimal n).length ≤ w := by
  rw [decimal, List.length_map]
  exact (Nat.length_toDigits_le_iff (by decide) hw).mpr hn

theorem length_printUnsigned (hw : 0 < w) (hn : n < 10 ^ w) : (printUnsigned w n).length = w := by
  have := length_decimal_le hw hn
  rw [printUnsigned, List.length_append, List.length_replicate]
  omega

theorem valueOf_decimal : valueOf (decimal n) = UInt32.ofNat n := by
  have hback : ∀ c ∈ Nat.toDigits 10 n, (Char.ofUInt8 ∘ Char.toUInt8) c = c := fun c hc =>
    (isDigit_toUInt8 (Nat.isDigit_of_mem_toDigits (by decide) (by decide) hc)).2
  rw [valueOf, decimal, List.map_map, List.map_congr_left hback, List.map_id',
    Nat.ofDigitChars_ten_toDigits]

/-- What `%<width>u` printed is read back, up to the byte behind it. -/
theorem scanUnsigned_printed (hw : 0 < w) (hn : n < 10 ^ w) (hr : ∀ b ∈ rest.head?, isDigit b = false) :
    scanUnsigned w (printUnsigned w n ++ rest) = (some (UInt32.ofNat n), rest) := by
  obtain ⟨d, ds, hd⟩ := List.exists_cons_of_ne_nil (decimal_ne_nil (n := n))
  have hdig := isDigit_ne (isDigit_of_mem_decimal (n := n) (b := d) (by simp [hd]))
  have hskip : (printUnsigned w n ++ rest).dropWhile isSpace = decimal n ++ rest := by
    rw [printUnsigned, List.append_assoc,
      List.dropWhile_append_of_pos (by intro b hb; rw [List.eq_of_mem_replicate hb]; decide), hd]
    simp [hdig.1]
  have hlen := length_decimal_le hw hn
  have htake : ((decimal n ++ rest).take w).takeWhile isDigit = decimal n := by
    rw [List.take_append, List.take_of_length_le hlen,
      List.takeWhile_append_of_pos fun b hb => isDigit_of_mem_decimal hb]
    suffices h : (rest.take (w - (decimal n).length)).takeWhile isDigit = [] by rw [h, List.append_nil]
    cases rest with
    | nil => simp
    | cons b rest =>
      have hb := hr b (by simp)
      cases w - (decimal n).length <;> simp [hb]
  have hscan : scanUnsigned w (printUnsigned w n ++ rest) = scanDigits w false (decimal n ++ rest) := by
    rw [scanUnsigned, hskip, hd]
    simp [hdig.2.1, hdig.2.2]
  rw [hscan, scanDigits]
  simp only [htake, decimal_ne_nil, if_false, valueOf_decimal, List.drop_left, Bool.false_eq_true]

theorem scanf_unsigned_printed (hw : 0 < w) (hn : n < 10 ^ w) (hr : ∀ b ∈ rest.head?, isDigit b = false)
    (f : Format) : scanf (.unsigned w :: f) (printUnsigned w n ++ rest) =
      (UInt32.ofNat n :: (scanf f rest).1, (scanf f rest).2) := by
  rw [scanf, scanUnsigned_printed hw hn hr]

end

/-! ## A scan that stops inside its input does not see what comes after -/

section
variable {inp : List UInt8}

theorem dropWhile_append {p : UInt8 → Bool} (h : inp.dropWhile p ≠ []) (rest : List UInt8) :
    (inp ++ rest).dropWhile p = inp.dropWhile p ++ rest := by
  rw [List.dropWhile_append, if_neg (by simpa using h)]

theorem takeWhile_append_take {p : UInt8 → Bool} {w : Nat}
    (h : inp.drop ((inp.take w).takeWhile p).length ≠ [])
    (rest : List UInt8) : ((inp ++ rest).take w).takeWhile p = (inp.take w).takeWhile p := by
  rw [List.take_append]
  by_cases hw : w ≤ inp.length
  · rw [Nat.sub_eq_zero_of_le hw, List.take_zero, List.append_nil]
  · rw [List.takeWhile_append, if_neg]
    intro hlen
    rw [List.take_of_length_le (by omega)] at h hlen
    exact h (List.drop_eq_nil_of_le (by omega))

theorem scanDigits_append {w : Nat} {neg : Bool} (h : (scanDigits w neg inp).2 ≠ []) (rest : List UInt8) :
    scanDigits w neg (inp ++ rest) = ((scanDigits w neg inp).1, (scanDigits w neg inp).2 ++ rest) := by
  unfold scanDigits at h ⊢
  have hdrop : inp.drop ((inp.take w).takeWhile isDigit).length ≠ [] := by
    by_cases hd : (inp.take w).takeWhile isDigit = []
    · simpa [hd] using h
    · simpa [hd] using h
  have hle : ((inp.take w).takeWhile isDigit).length ≤ inp.length := by
    by_contra hgt
    exact hdrop (List.drop_eq_nil_of_le (by omega))
  simp only [takeWhile_append_take hdrop, List.drop_append_of_le_length hle]
  by_cases hd : (inp.take w).takeWhile isDigit = []
  · simp only [hd, if_true]
  · simp only [hd, if_false]

theorem scanUnsigned_append {w : Nat} (h : (scanUnsigned w inp).2 ≠ []) (rest : List UInt8) :
    scanUnsigned w (inp ++ rest) = ((scanUnsigned w inp).1, (scanUnsigned w inp).2 ++ rest) := by
  unfold scanUnsigned at h ⊢
  cases hd : inp.dropWhile isSpace with
  | nil => rw [hd] at h; exact absurd rfl h
  | cons c t =>
    rw [dropWhile_append (by simp [hd]), hd]
    simp only [hd, List.cons_append] at h ⊢
    split
    · rename_i hc
      rw [if_pos hc] at h
      exact scanDigits_append h rest
    · rename_i hc
      rw [if_neg hc] at h
      split
      · rename_i hc'
        rw [if_pos hc'] at h
        exact scanDigits_append h rest
      · rename_i hc'
        rw [if_neg hc'] at h
        exact scanDigits_append h rest

theorem scanf_nil (f : Format) : scanf f [] = ([], []) := by
  induction f with
  | nil => rfl
  | cons p f ih =>
    cases p with
    | space b => simpa [scanf] using ih
    | lit b => rfl
    | unsigned w => rfl

theorem scanf_append {f : Format} : ∀ {inp : List UInt8}, (scanf f inp).2 ≠ [] → ∀ rest : List UInt8,
    scanf f (inp ++ rest) = ((scanf f inp).1, (scanf f inp).2 ++ rest) := by
  induction f with
  | nil => intro inp _ rest; rfl
  | cons p f ih =>
    intro inp h rest
    have hinp : inp ≠ [] := by
      intro heq
      subst heq
      rw [scanf_nil] at h
      exact h rfl
    cases p with
    | space b =>
      rw [scanf] at h
      have hd : inp.dropWhile isSpace ≠ [] := fun e => by rw [e, scanf_nil] at h; exact h rfl
      rw [scanf, scanf, dropWhile_append hd, ih h]
    | lit b =>
      obtain ⟨c, t, rfl⟩ := List.exists_cons_of_ne_nil hinp
      by_cases hc : c = b
      · subst hc
        rw [scanf_lit] at h
        rw [List.cons_append, scanf_lit, scanf_lit, ih h]
      · rw [List.cons_append, scanf_lit_ne hc, scanf_lit_ne hc, List.cons_append]
    | unsigned w =>
      simp only [scanf] at h ⊢
      have hs : (scanUnsigned w inp).2 ≠ [] := by
        intro e
        split at h
        · rename_i v t he
          rw [he] at e
          simp only at e
          subst e
          rw [scanf_nil] at h
          exact h rfl
        · rename_i t he
          rw [he] at e
          exact h e
      rw [scanUnsigned_append hs]
      cases hv : scanUnsigned w inp with
      | mk o t =>
        rw [hv] at h
        cases o with
        | none => rfl
        | some v => simp only [ih h]

theorem scanDigits_length_le (w : Nat) (neg : Bool) (t : List UInt8) :
    (scanDigits w neg t).2.length ≤ t.length := by
  simp only [scanDigits]
  by_cases hd : (t.take w).takeWhile isDigit = []
  · simp only [hd, if_true]
    exact Nat.le_refl _
  · simp only [hd, if_false, List.length_drop]
    omega

/-- A scan reads forward. -/
theorem scanUnsigned_length_le (w : Nat) (inp : List UInt8) :
    (scanUnsigned w inp).2.length ≤ inp.length := by
  have hskip := (List.dropWhile_suffix isSpace (l := inp)).length_le
  unfold scanUnsigned
  cases hd : inp.dropWhile isSpace with
  | nil => simp
  | cons c t =>
    rw [hd, List.length_cons] at hskip
    have h1 := scanDigits_length_le (w - 1) false t
    have h2 := scanDigits_length_le (w - 1) true t
    have h3 := scanDigits_length_le w false (c :: t)
    rw [List.length_cons] at h3
    simp only
    split
    · omega
    · split <;> omega

theorem scanf_length_le (f : Format) : ∀ inp : List UInt8, (scanf f inp).2.length ≤ inp.length := by
  induction f with
  | nil => intro inp; exact le_rfl
  | cons p f ih =>
    intro inp
    cases p with
    | space b => exact (ih _).trans (List.dropWhile_suffix isSpace).length_le
    | lit b =>
      cases inp with
      | nil => rw [scanf_nil]
      | cons c t =>
        by_cases hc : c = b
        · subst hc
          rw [scanf_lit]
          exact (ih t).trans (Nat.le_succ _)
        · rw [scanf_lit_ne hc]
    | unsigned w =>
      have hle := scanUnsigned_length_le w inp
      rw [scanf]
      cases hv : scanUnsigned w inp with
      | mk o t =>
        rw [hv] at hle
        cases o with
        | none => exact hle
        | some v => exact (ih t).trans hle

end

/-! ## Labelled numbers -/

/-- A label begins with one white space and goes on without. -/
def Label (l : List UInt8) : Prop :=
  ∃ b cs, l = b :: cs ∧ isSpace b = true ∧ cs ≠ [] ∧ ∀ c ∈ cs, isSpace c = false

/-- The format of labelled numbers, and what is printed for it. -/
def fieldsFormat (w : Nat) (fs : List (List UInt8 × UInt32)) : Format :=
  fs.flatMap fun p => p.1.map piece ++ [.unsigned w]
def fieldsText (w : Nat) (fs : List (List UInt8 × UInt32)) : List UInt8 :=
  fs.flatMap fun p => p.1 ++ printUnsigned w p.2.toNat

section
variable {w : Nat} {rest : List UInt8}

theorem fieldsFormat_cons (p : List UInt8 × UInt32) (fs : List (List UInt8 × UInt32)) (f : Format) :
    fieldsFormat w (p :: fs) ++ f = p.1.map piece ++ .unsigned w :: (fieldsFormat w fs ++ f) := by
  simp [fieldsFormat]

theorem fieldsText_cons (p : List UInt8 × UInt32) (fs : List (List UInt8 × UInt32)) :
    fieldsText w (p :: fs) ++ rest = p.1 ++ (printUnsigned w p.2.toNat ++ (fieldsText w fs ++ rest)) := by
  simp [fieldsText]

theorem printf_pieces (l : List UInt8) (f : Format) (args : List UInt32) :
    printf (l.map piece ++ f) args = l ++ printf f args := by
  induction l with
  | nil => rfl
  | cons b l ih =>
    by_cases hb : isSpace b = true
    · simp [piece, hb, printf, ih]
    · simp [piece, hb, printf, ih]

theorem printf_fields (fs : List (List UInt8 × UInt32)) (f : Format) (args : List UInt32) :
    printf (fieldsFormat w fs ++ f) (fs.map Prod.snd ++ args) = fieldsText w fs ++ printf f args := by
  induction fs with
  | nil => rfl
  | cons p fs ih =>
    rw [fieldsFormat_cons, fieldsText_cons, List.map_cons, List.cons_append, printf_pieces, printf, ih]

theorem scanf_lits (cs : List UInt8) (hcs : ∀ c ∈ cs, isSpace c = false) (f : Format) (inp : List UInt8) :
    scanf (cs.map piece ++ f) (cs ++ inp) = scanf f inp := by
  induction cs with
  | nil => rfl
  | cons c cs ih =>
    have hc : piece c = .lit c := by simp [piece, hcs c]
    rw [List.map_cons, hc, List.cons_append, List.cons_append, scanf_lit]
    exact ih fun d hd => hcs d (by simp [hd])

theorem scanf_label {l : List UInt8} (hl : Label l) (f : Format) (inp : List UInt8) :
    scanf (l.map piece ++ f) (l ++ inp) = scanf f inp := by
  obtain ⟨b, cs, rfl, hb, hne, hcs⟩ := hl
  obtain ⟨c, cs, rfl⟩ := List.exists_cons_of_ne_nil hne
  have hskip : (b :: (c :: cs) ++ inp).dropWhile isSpace = c :: cs ++ inp := by simp [hb, hcs c]
  rw [List.map_cons, show piece b = .space b by simp [piece, hb], List.cons_append, scanf, hskip]
  exact scanf_lits _ hcs f inp

theorem Label.head_not_digit {l : List UInt8} (hl : Label l) :
    ∀ b ∈ (l ++ rest).head?, isDigit b = false := by
  obtain ⟨b, cs, rfl, hb, -⟩ := hl
  intro c hc
  simp only [List.cons_append, List.head?_cons, Option.mem_def, Option.some.injEq] at hc
  subst hc
  by_contra hd
  rw [Bool.not_eq_false] at hd
  rw [(isDigit_ne hd).1] at hb
  cases hb

theorem fieldsText_not_digit {fs : List (List UInt8 × UInt32)} (hl : ∀ p ∈ fs, Label p.1)
    (hr : ∀ b ∈ rest.head?, isDigit b = false) :
    ∀ b ∈ (fieldsText w fs ++ rest).head?, isDigit b = false := by
  cases fs with
  | nil => exact hr
  | cons p fs =>
    rw [fieldsText_cons]
    exact (hl p (by simp)).head_not_digit

/-- Labelled numbers of at most `w` digits are read back. -/
theorem scanf_fields (hw : 0 < w) (fs : List (List UInt8 × UInt32)) (hl : ∀ p ∈ fs, Label p.1)
    (hv : ∀ p ∈ fs, p.2.toNat < 10 ^ w) (hr : ∀ b ∈ rest.head?, isDigit b = false) (f : Format) :
    scanf (fieldsFormat w fs ++ f) (fieldsText w fs ++ rest) =
      (fs.map Prod.snd ++ (scanf f rest).1, (scanf f rest).2) := by
  induction fs with
  | nil => rfl
  | cons p fs ih =>
    have hp := hl p (by simp)
    have hl' : ∀ q ∈ fs, Label q.1 := fun q hq => hl q (by simp [hq])
    rw [fieldsFormat_cons, fieldsText_cons, scanf_label hp,
      scanf_unsigned_printed hw (hv p (by simp)) (fieldsText_not_digit hl' hr),
      ih hl' fun q hq => hv q (by simp [hq]), UInt32.ofNat_toNat, List.map_cons, List.cons_append]

theorem length_fieldsText (hw : 0 < w) (fs : List (List UInt8 × UInt32))
    (hv : ∀ p ∈ fs, p.2.toNat < 10 ^ w) :
    (fieldsText w fs).length = (fs.map fun p => p.1.length + w).sum := by
  induction fs with
  | nil => rfl
  | cons p fs ih =>
    have ih := ih fun q hq => hv q (by simp [hq])
    simp only [fieldsText, List.flatMap_cons, List.length_append, List.map_cons, List.sum_cons] at ih ⊢
    rw [length_printUnsigned hw (hv p (by simp)), ih]

end

/-! ## Blanks and long numbers -/

section
variable {w n : Nat} {rest : List UInt8}

theorem blanks_cons {b : UInt8} (hb : isSpace b = true) (t : List UInt8) :
    blanks (b :: t) = blanks t + 1 := by
  simp [blanks, hb]

/-- A format that begins with white space may start anywhere in the blanks. -/
theorem scanf_drop_blanks (b : UInt8) (f : Format) {k : Nat} {t : List UInt8} (hk : k ≤ blanks t) :
    scanf (.space b :: f) (t.drop k) = scanf (.space b :: f) t := by
  induction k generalizing t with
  | zero => rw [List.drop_zero]
  | succ k ih =>
    cases t with
    | nil => rfl
    | cons c t =>
      have hc : isSpace c = true := by
        by_contra hc
        simp [blanks, hc] at hk
      rw [blanks_cons hc] at hk
      rw [List.drop_succ_cons, ih (by omega), scanf, scanf, List.dropWhile_cons_of_pos hc]

/-- How many blanks a text ends in. -/
def tailBlanks (inp : List UInt8) : Nat := blanks inp.reverse

theorem blanks_eq_length {inp : List UInt8} : blanks inp = inp.length ↔ ∀ b ∈ inp, isSpace b = true := by
  unfold blanks
  rw [← List.takeWhile_eq_self_iff]
  exact ⟨fun h => (List.takeWhile_prefix isSpace).eq_of_length h, fun h => congrArg List.length h⟩

theorem blanks_append {x y : List UInt8} (h : blanks x < x.length) : blanks (x ++ y) = blanks x := by
  unfold blanks at h ⊢
  rw [List.takeWhile_append, if_neg (Nat.ne_of_lt h)]

theorem blanks_append_of_all {x y : List UInt8} (h : ∀ b ∈ x, isSpace b = true) :
    blanks (x ++ y) = x.length + blanks y := by
  have hx : (x.takeWhile isSpace).length = x.length := blanks_eq_length.mpr h
  unfold blanks
  rw [List.takeWhile_append, if_pos hx, List.length_append]

/-- A text is blank from a place on if that is in the blanks it ends in. -/
theorem blank_from_iff {inp : List UInt8} {d : Nat} :
    (∀ b ∈ inp.drop d, isSpace b = true) ↔ inp.length ≤ d + tailBlanks inp := by
  have hrev : inp.reverse = (inp.drop d).reverse ++ (inp.take d).reverse := by
    rw [← List.reverse_append, List.take_append_drop]
  have hall : (∀ b ∈ (inp.drop d).reverse, isSpace b = true) ↔ ∀ b ∈ inp.drop d, isSpace b = true := by
    simp only [List.mem_reverse]
  unfold tailBlanks
  rw [hrev, ← hall]
  constructor
  · intro h
    rw [blanks_append_of_all h, List.length_reverse, List.length_drop]
    omega
  · intro h
    by_contra hno
    have hle := blanks_le (inp.drop d).reverse
    have hlt := Nat.lt_of_le_of_ne hle (mt blanks_eq_length.mp hno)
    rw [blanks_append hlt] at h
    rw [List.length_reverse, List.length_drop] at hlt
    omega

/-- Of a number of more than `w` digits the first `w` are read. -/
theorem scanUnsigned_long (hn : 10 ^ w ≤ n) (hw : 0 < w) :
    ∃ v d ds, isDigit d = true ∧ (printUnsigned w n).length = w + (d :: ds).length ∧
      scanUnsigned w (printUnsigned w n ++ rest) = (some v, d :: ds ++ rest) := by
  have hlen : w < (decimal n).length := by
    by_contra hle
    rw [decimal, List.length_map, Nat.not_lt, Nat.length_toDigits_le_iff (by decide) hw] at hle
    omega
  have hprint : printUnsigned w n = decimal n := by
    rw [printUnsigned, Nat.sub_eq_zero_of_le hlen.le, List.replicate_zero, List.nil_append]
  obtain ⟨e, es, he⟩ := List.exists_cons_of_ne_nil (decimal_ne_nil (n := n))
  have hdig := isDigit_ne (isDigit_of_mem_decimal (n := n) (b := e) (by simp [he]))
  have htake : ((decimal n ++ rest).take w).takeWhile isDigit = (decimal n).take w := by
    rw [List.take_append_of_le_length hlen.le, List.takeWhile_eq_self_iff]
    exact fun b hb => isDigit_of_mem_decimal (List.mem_of_mem_take hb)
  have hne : (decimal n).take w ≠ [] := by
    intro heq
    have := congrArg List.length heq
    rw [List.length_take] at this
    simp only [List.length_nil] at this
    omega
  obtain ⟨d, ds, hd⟩ : ∃ d ds, (decimal n).drop w = d :: ds := by
    refine List.exists_cons_of_ne_nil fun heq => ?_
    have := congrArg List.length heq
    rw [List.length_drop] at this
    simp only [List.length_nil] at this
    omega
  refine ⟨valueOf ((decimal n).take w), d, ds, ?_, ?_, ?_⟩
  · exact isDigit_of_mem_decimal (List.mem_of_mem_drop (by rw [hd]; exact List.mem_cons_self))
  · rw [hprint, ← hd, List.length_drop]
    omega
  · have hscan : scanUnsigned w (printUnsigned w n ++ rest) = scanDigits w false (decimal n ++ rest) := by
      rw [hprint, scanUnsigned, he, List.cons_append, List.dropWhile_cons_of_neg (by simp [hdig.1])]
      simp [hdig.2.1, hdig.2.2]
    rw [hscan, scanDigits]
    simp only [htake, hne, if_false, List.length_take, Nat.min_eq_left hlen.le, Bool.false_eq_true]
    rw [List.drop_append_of_le_length hlen.le, hd]

end

section
variable {w : Nat} {rest : List UInt8}

/-- A label that goes on with a letter. -/
def Lettered (l : List UInt8) : Prop := ∀ c ∈ l[1]?, isDigit c = false

/-- A format that does not read digits leaves them alone. -/
def NoDigits (f : Format) : Prop := ∀ d t, isDigit d = true → (scanf f (d :: t)).2 = d :: t

theorem noDigits_fields {f : Format} (hf : NoDigits f) {fs : List (List UInt8 × UInt32)}
    (hl : ∀ p ∈ fs, Label p.1 ∧ Lettered p.1) : NoDigits (fieldsFormat w fs ++ f) := by
  cases fs with
  | nil => exact hf
  | cons p fs =>
    intro d t hd
    obtain ⟨⟨b, cs, hp, hb, hne, hcs⟩, hlet⟩ := hl p (by simp)
    obtain ⟨c, cs, rfl⟩ := List.exists_cons_of_ne_nil hne
    have hdc : d ≠ c := by
      intro heq
      subst heq
      rw [hp] at hlet
      have := hlet d (by simp)
      rw [hd] at this
      cases this
    have hpc : piece c = .lit c := by simp [piece, hcs c]
    rw [fieldsFormat_cons, hp, List.map_cons, List.map_cons,
      show piece b = .space b by simp [piece, hb], hpc,
      List.cons_append, List.cons_append, scanf, List.dropWhile_cons_of_neg (by simp [(isDigit_ne hd).1]),
      scanf_lit_ne hdc]

/-- Labelled numbers, one of them too long: the scan ends among them, and
reads no more than it would of numbers that fit. -/
theorem scanf_fields_long (hw : 0 < w) {f : Format} (hf : NoDigits f) (fs : List (List UInt8 × UInt32))
    (hl : ∀ p ∈ fs, Label p.1 ∧ Lettered p.1) (hv : ∃ p ∈ fs, 10 ^ w ≤ p.2.toNat) :
    (fieldsText w fs ++ rest).length ≤
      (scanf (fieldsFormat w fs ++ f) (fieldsText w fs ++ rest)).2.length + (fs.map fun p => p.1.length + w).sum := by
  induction fs with
  | nil => simp at hv
  | cons p fs ih =>
    have hl' : ∀ q ∈ fs, Label q.1 ∧ Lettered q.1 := fun q hq => hl q (by simp [hq])
    rw [fieldsFormat_cons, fieldsText_cons, scanf_label (hl p (by simp)).1, List.map_cons, List.sum_cons,
      List.length_append, List.length_append]
    by_cases hp : 10 ^ w ≤ p.2.toNat
    · obtain ⟨v, d, ds, hd, hlen, e⟩ := @scanUnsigned_long w _ (fieldsText w fs ++ rest) hp hw
      rw [scanf, e]
      simp only
      rw [List.cons_append, noDigits_fields hf hl' d _ hd, hlen]
      simp only [List.length_cons, List.length_append]
      omega
    · have hv' : ∃ q ∈ fs, 10 ^ w ≤ q.2.toNat := by
        obtain ⟨q, hq, hge⟩ := hv
        rcases List.mem_cons.mp hq with rfl | hq
        · exact absurd hge hp
        · exact ⟨q, hq, hge⟩
      have hne : fs ≠ [] := by
        obtain ⟨q, hq, -⟩ := hv'
        exact List.ne_nil_of_mem hq
      have hdig : ∀ b ∈ (fieldsText w fs ++ rest).head?, isDigit b = false := by
        obtain ⟨q, fs, rfl⟩ := List.exists_cons_of_ne_nil hne
        rw [fieldsText_cons]
        exact (hl' q (by simp)).1.head_not_digit
      have hih := ih hl' hv'
      rw [scanf_unsigned_printed hw (by omega) hdig, length_printUnsigned hw (by omega)]
      dsimp only
      omega

end

/-! ## A scan does not read past a line it is not at the start of -/

/-- At `c`, `h` the format does not read on behind the `c`. -/
def rejects (c h : UInt8) : Format → Bool
  | [] => true
  | .space _ :: f => rejects c h f
  | .unsigned _ :: _ => true
  | .lit b :: .lit b' :: _ => b != c || b' != h
  | .lit b :: _ => b != c

/-- The same, wherever in the format white space has just been matched. -/
def blocks (c h : UInt8) : Format → Bool
  | [] => true
  | .space _ :: f => rejects c h f && blocks c h f
  | .unsigned _ :: f => blocks c h f
  | .lit b :: f => !isSpace b && blocks c h f

section
variable {c h s : UInt8} {y : List UInt8}

theorem scanDigits_not_digit (w : Nat) (neg : Bool) (hd : isDigit c = false) :
    scanDigits w neg (c :: y) = (none, c :: y) := by
  have hnil : ((c :: y).take w).takeWhile isDigit = [] := by cases w <;> simp [hd]
  rw [scanDigits]
  simp only [hnil, if_true]

theorem scanf_rejects (hs : isSpace c = false) (hd : isDigit c = false) (h1 : c ≠ 43) (h2 : c ≠ 45)
    (f : Format)
    (hf : rejects c h f = true) : (h :: y).length ≤ (scanf f (c :: h :: y)).2.length := by
  induction f with
  | nil => simp [scanf]
  | cons p f ih =>
    cases p with
    | space b =>
      rw [scanf, List.dropWhile_cons_of_neg (by simp [hs])]
      exact ih hf
    | unsigned w =>
      have hscan : scanUnsigned w (c :: h :: y) = (none, c :: h :: y) := by
        rw [scanUnsigned, List.dropWhile_cons_of_neg (by simp [hs])]
        simp only [h1, h2, if_false, scanDigits_not_digit w false hd]
      rw [scanf, hscan]
      simp
    | lit b =>
      by_cases hb : c = b
      · subst hb
        rw [scanf_lit]
        -- the next piece is a literal other than `h`
        match f, hf with
        | .lit b' :: f, hf =>
          have hne : h ≠ b' := by
            intro heq
            subst heq
            simp [rejects] at hf
          rw [scanf_lit_ne hne]
        | [], hf => simp [rejects] at hf
        | .space _ :: _, hf => simp [rejects] at hf
        | .unsigned _ :: _, hf => simp [rejects] at hf
      · rw [scanf_lit_ne hb]
        simp

/-- Digits end before white space. -/
theorem scanDigits_block (w : Nat) (neg : Bool) (hs : isSpace s = true) (x m : List UInt8) :
    ∃ x', (scanDigits w neg (x ++ s :: m)).2 = x' ++ s :: m := by
  have hd : isDigit s = false := by
    by_contra hd
    rw [Bool.not_eq_false] at hd
    rw [(isDigit_ne hd).1] at hs
    cases hs
  have hle : (((x ++ s :: m).take w).takeWhile isDigit).length ≤ x.length := by
    have hnil : ((s :: m).take (w - x.length)).takeWhile isDigit = [] := by
      cases w - x.length <;> simp [hd]
    have hx : ((x.take w).takeWhile isDigit).length ≤ x.length :=
      (List.takeWhile_prefix _).length_le.trans (List.length_take_le' _ _)
    rw [List.take_append, List.takeWhile_append, hnil, List.append_nil]
    split
    · exact List.length_take_le' _ _
    · exact hx
  simp only [scanDigits]
  by_cases hnil : ((x ++ s :: m).take w).takeWhile isDigit = []
  · exact ⟨x, by simp only [hnil, if_true]⟩
  · refine ⟨x.drop (((x ++ s :: m).take w).takeWhile isDigit).length, ?_⟩
    simp only [hnil, if_false]
    exact List.drop_append_of_le_length hle

/-- A number is read from what stands before white space, or not at all. -/
theorem scanUnsigned_block (w : Nat) (hs : isSpace s = true) (hc : isSpace c = false)
    (hd : isDigit c = false)
    (h1 : c ≠ 43) (h2 : c ≠ 45) (x : List UInt8) :
    (∃ x', (scanUnsigned w (x ++ s :: c :: y)).2 = x' ++ s :: c :: y) ∨
      scanUnsigned w (x ++ s :: c :: y) = (none, c :: y) := by
  cases hx : x.dropWhile isSpace with
  | nil =>
    right
    have hskip : (x ++ s :: c :: y).dropWhile isSpace = c :: y := by
      rw [List.dropWhile_append, hx]
      simp [hs, hc]
    rw [scanUnsigned, hskip]
    simp only [h1, h2, if_false, scanDigits_not_digit w false hd]
  | cons e t =>
    left
    rw [scanUnsigned, dropWhile_append (by simp [hx]), hx, List.cons_append]
    simp only
    split
    · exact scanDigits_block _ _ hs _ _
    · split
      · exact scanDigits_block _ _ hs _ _
      · exact scanDigits_block _ _ hs (e :: t) _

/-- White space, `c` and `h` behind a text end the scan, once it is behind
white space of its own. -/
theorem scanf_blocks (hs : isSpace s = true) (hc : isSpace c = false) (hd : isDigit c = false) (h1 : c ≠ 43)
    (h2 : c ≠ 45) (f : Format) (hf : blocks c h f = true) (x : List UInt8) :
    (h :: y).length ≤ (scanf f (x ++ s :: c :: h :: y)).2.length := by
  induction f generalizing x with
  | nil => simp [scanf]; omega
  | cons p f ih =>
    cases p with
    | space b =>
      simp only [blocks, Bool.and_eq_true] at hf
      rw [scanf]
      cases hx : x.dropWhile isSpace with
      | nil =>
        have hskip : (x ++ s :: c :: h :: y).dropWhile isSpace = c :: h :: y := by
          rw [List.dropWhile_append, hx]
          simp [hs, hc]
        rw [hskip]
        exact scanf_rejects hc hd h1 h2 f hf.1
      | cons e t =>
        rw [dropWhile_append (by simp [hx])]
        exact ih hf.2 _
    | unsigned w =>
      simp only [blocks] at hf
      rw [scanf]
      rcases scanUnsigned_block w hs hc hd h1 h2 x (y := h :: y) with ⟨x', e⟩ | e
      · cases hv : scanUnsigned w (x ++ s :: c :: h :: y) with
        | mk o t =>
          rw [hv] at e
          simp only at e
          subst e
          cases o with
          | none => simp; omega
          | some v => exact ih hf x'
      · rw [e]
        simp
    | lit b =>
      simp only [blocks, Bool.and_eq_true, Bool.not_eq_true'] at hf
      cases x with
      | nil =>
        have hne : s ≠ b := by
          intro heq
          subst heq
          rw [hs] at hf
          cases hf.1
        rw [List.nil_append, scanf_lit_ne hne]
        simp
      | cons e t =>
        by_cases hb : e = b
        · subst hb
          rw [List.cons_append, scanf_lit]
          exact ih hf.2 t
        · rw [List.cons_append, scanf_lit_ne hb]
          simp; omega

end

end OpenSSDEmu.Stdio
