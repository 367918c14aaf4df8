import Mathlib.Data.List.Chain
import OpenSSDEmu.L1Encoding.FlashLog

/-!
# How far a scan of the flash log reads

The loop of `BE_read_log` goes back by `RECORD_LEN` bytes and forward over
what the format matches. The white space in the format matches any amount of
it, so the way forward has no bound of its own. What bounds it are the
headers: each begins with a line break and `ch`, and the format gets past
these two only at its very start (`blocks`). Addresses may have fields of
any size here; one of more than four digits ends the scan in its header.

* `Loose`: no page is blank, and the blanks at the end of a page and at the
  start of the next one are fewer than a page.
* `scan_lt`: of such a log a scan reads less than `RECORD_LEN` bytes, wherever
  it starts.
-/
namespace OpenSSDEmu.L1.FlashLog
open Stdio

theorem lettered_fields (a : Ppa) : ∀ p ∈ a.fields, Label p.1 ∧ Lettered p.1 := by
  intro p hp
  refine ⟨label_fields a p hp, ?_⟩
  simp only [Ppa.fields, List.map_cons, List.map_nil, List.mem_cons, List.not_mem_nil, or_false] at hp
  rcases hp with rfl | rfl | rfl | rfl | rfl | rfl <;> exact fun c hc => by cases hc; rfl

section
variable {a : Ppa} {rest : List UInt8}

theorem header_cons (a : Ppa) : ∃ t, header a = 10 :: 99 :: 104 :: t := by
  rw [header_eq]
  exact ⟨_, rfl⟩

/-- An address with a field of more than four digits is not scanned to its end. -/
theorem scanf_header_long (h : ¬ a.Small) :
    (header a ++ rest).length ≤ (scanf LOG_FORMAT (header a ++ rest)).2.length + PPA_LOG_LEN := by
  have hv : ∃ p ∈ a.fields, 10 ^ 4 ≤ p.2.toNat := by
    by_contra hv
    refine h fun v hm => ?_
    have hm' : v ∈ a.fields.map Prod.snd := hm
    obtain ⟨p, hp, rfl⟩ := List.mem_map.mp hm'
    by_contra hlt
    exact hv ⟨p, hp, by omega⟩
  have hf : NoDigits [.space 10] := fun d t hd => by
    rw [scanf, List.dropWhile_cons_of_neg (by simp [(isDigit_ne hd).1]), scanf]
  rw [header_eq, logFormat_eq a, List.append_assoc, List.singleton_append]
  refine (scanf_fields_long (by decide) hf _ (lettered_fields a) hv).trans (Nat.add_le_add_left ?_ _)
  simp [Ppa.fields, PPA_LOG_LEN]

theorem length_header_le (a : Ppa) : (header a).length ≤ PAGE_LEN := by
  have hnum : ∀ v : UInt32, (printUnsigned 4 v.toNat).length ≤ 14 := fun v => by
    have hlt : v.toNat < 10 ^ 10 := by have := v.toNat_lt; omega
    have := length_decimal_le (by decide : 0 < 10) hlt
    rw [printUnsigned, List.length_append, List.length_replicate]
    omega
  have h1 := hnum a.ch
  have h2 := hnum a.ce
  have h3 := hnum a.lun
  have h4 := hnum a.plane
  have h5 := hnum a.block
  have h6 := hnum a.page
  rw [header_eq]
  simp [fieldsText, Ppa.fields, PAGE_LEN]
  omega

end

/-- No `c` of the text is followed by an `h`, and it does not end in a `c`. -/
def NoCh (l : List UInt8) : Prop := l.IsChain (fun b c => ¬ (b = 99 ∧ c = 104)) ∧ l.getLast? ≠ some 99

theorem NoCh.append {l r : List UInt8} (hl : NoCh l) (hr : NoCh r) : NoCh (l ++ r) := by
  refine ⟨List.isChain_append.mpr ⟨hl.1, hr.1, fun b hb c _ hbc => ?_⟩, ?_⟩
  · exact hl.2 (by rw [hb, hbc.1])
  · rw [List.getLast?_append]
    cases hlast : r.getLast? with
    | none => simpa using hl.2
    | some c => simpa [hlast] using hr.2

theorem noCh_number (n : Nat) : NoCh (printUnsigned 4 n) := by
  have hne : ∀ b ∈ printUnsigned 4 n, b ≠ 99 := by
    intro b hb
    rcases List.mem_append.mp hb with hb | hb
    · rw [List.eq_of_mem_replicate hb]
      decide
    · intro heq
      have := isDigit_of_mem_decimal hb
      rw [heq] at this
      cases this
  refine ⟨List.isChain_iff_getElem.mpr fun i hi hbc => ?_, fun hlast => ?_⟩
  · exact hne _ (List.getElem_mem _) hbc.1
  · exact hne 99 (List.mem_of_getLast? hlast) rfl

theorem noCh_header (a : Ppa) : NoCh ((header a).drop 2) := by
  have hlit : ∀ l : List UInt8, l.IsChain (fun b c => ¬ (b = 99 ∧ c = 104)) ∧ l.getLast? ≠ some 99 →
    NoCh l :=
    fun _ h => h
  have he : (header a).drop 2 = [104, 58] ++ (printUnsigned 4 a.ch.toNat ++ ([32, 99, 101, 58] ++
      (printUnsigned 4 a.ce.toNat ++ ([32, 108, 117, 110, 58] ++ (printUnsigned 4 a.lun.toNat ++
      ([32, 112, 108, 97, 110, 101, 58] ++ (printUnsigned 4 a.plane.toNat ++ ([32, 98, 108, 111, 99, 107, 58] ++
      (printUnsigned 4 a.block.toNat ++ ([32, 112, 97, 103, 101, 58] ++
      (printUnsigned 4 a.page.toNat ++ [10]))))))))))) := by
    rw [header_eq]
    simp [fieldsText, Ppa.fields]
    decide
  rw [he]
  refine NoCh.append ?_ <| (noCh_number _).append <| NoCh.append ?_ <| (noCh_number _).append <|
    NoCh.append ?_ <| (noCh_number _).append <| NoCh.append ?_ <| (noCh_number _).append <|
    NoCh.append ?_ <| (noCh_number _).append <| NoCh.append ?_ <| (noCh_number _).append ?_ <;>
    exact hlit _ (by decide)

/-- The format begins with white space and `ch`. -/
theorem logFormat_cons : LOG_FORMAT = .space 10 :: .lit 99 :: .lit 104 :: LOG_FORMAT.drop 3 := by rfl

theorem log_cons (w : Write) (vs : List Write) : log (w :: vs) = header w.ppa ++ (w.payload ++ log vs) := by
  simp [log_eq, record]

/-- What follows a page is the end of the file or a line that begins with `ch`. -/
theorem log_cases (vs : List Write) : log vs = [] ∨ ∃ y, log vs = 10 :: 99 :: 104 :: y := by
  cases vs with
  | nil => exact .inl rfl
  | cons v vs =>
    obtain ⟨t, ht⟩ := header_cons v.ppa
    rw [log_cons, ht]
    exact .inr ⟨_, rfl⟩

section
variable (w : Write) (vs : List Write)

/-- A scan that starts at a header reads at most that and the blanks behind it. -/
theorem scan_at_header (hb : blanks w.payload < PAGE_LEN) :
    (log (w :: vs)).length ≤ (scanf LOG_FORMAT (log (w :: vs))).2.length + PPA_LOG_LEN + blanks w.payload := by
  rw [log_cons]
  by_cases h : w.ppa.Small
  · rw [scanf_header h, blanks_append (by rw [w.length_payload]; exact hb), List.length_append, List.length_drop,
      length_header h]
    omega
  · have hle := @scanf_header_long w.ppa (w.payload ++ log vs) h
    omega

/-- The line break at the end of a header is its last white space. -/
theorem header_end {o : Nat} (ho : o < (header w.ppa).length)
    (hb : ∀ b ∈ (header w.ppa).drop o, isSpace b = true) : (header w.ppa).length = o + 1 := by
  obtain ⟨t, d, hd, ht⟩ : ∃ t d, isDigit d = true ∧ header w.ppa = t ++ [d, 10] := by
    obtain ⟨ds, hds⟩ : ∃ ds, header w.ppa = ds ++ (decimal w.ppa.page.toNat ++ [10]) := by
      have hlast : w.ppa.fields = w.ppa.fields.dropLast ++ [(" page:".toList.map Char.toUInt8, w.ppa.page)] := rfl
      rw [header_eq, hlast, fieldsText, List.flatMap_append, List.flatMap_singleton, printUnsigned,
        List.append_assoc]
      simp only [← List.append_assoc]
      exact ⟨_, rfl⟩
    obtain ⟨t, d, e⟩ := (decimal w.ppa.page.toNat).eq_nil_or_concat.resolve_left decimal_ne_nil
    refine ⟨ds ++ t, d, isDigit_of_mem_decimal (n := w.ppa.page.toNat) (by rw [e]; simp), ?_⟩
    rw [hds, e]
    simp
  rw [ht, List.length_append] at ho ⊢
  by_contra hne
  have hmem : d ∈ (header w.ppa).drop o := by
    rw [ht, List.drop_append_of_le_length (by simp at ho hne; omega)]
    simp
  have := (isDigit_ne hd).1
  rw [hb d hmem] at this
  cases this

/-- Inside a header there is no second one. -/
theorem scan_in_header {o : Nat} (h2 : 2 ≤ o) (ho : o < (header w.ppa).length) (rest : List UInt8)
    (hb : ∀ b ∈ ((header w.ppa).drop o).head?, isSpace b = false) :
    ((header w.ppa).drop o ++ rest).length ≤ (scanf LOG_FORMAT ((header w.ppa).drop o ++ rest)).2.length + 1 := by
  obtain ⟨c, r, hr⟩ : ∃ c r, (header w.ppa).drop o = c :: r :=
    List.exists_cons_of_ne_nil (by simpa using ho)
  have hc : isSpace c = false := hb c (by rw [hr]; rfl)
  have hchain : (c :: r).IsChain fun b c => ¬ (b = 99 ∧ c = 104) := by
    have := (noCh_header w.ppa).1.drop (o - 2)
    rwa [List.drop_drop, show 2 + (o - 2) = o by omega, hr] at this
  -- the line ends in a line break, so something follows
  obtain ⟨d, r, rfl⟩ : ∃ d r', r = d :: r' := by
    refine List.exists_cons_of_ne_nil ?_
    intro heq
    subst heq
    have hlast : ((header w.ppa).drop o).getLast? = some 10 := by
      rw [List.getLast?_drop, if_neg (by omega), header_eq]
      simp
    rw [hr] at hlast
    simp only [List.getLast?_singleton, Option.some.injEq] at hlast
    subst hlast
    cases hc
  rw [hr, logFormat_cons, List.cons_append, List.cons_append, scanf,
    List.dropWhile_cons_of_neg (by simp [hc])]
  by_cases h99 : c = 99
  · subst h99
    have hd : d ≠ 104 := fun e => (List.isChain_cons_cons.mp hchain).1 ⟨rfl, e⟩
    rw [scanf_lit, scanf_lit_ne hd]
    simp
  · rw [scanf_lit_ne h99]
    simp

/-- Inside a page a scan does not get behind the next `c`. -/
theorem scan_in_page {d : Nat} (hd : d < PAGE_LEN)
    (hb : ∀ b ∈ (w.payload.drop d).head?, isSpace b = false) :
    (w.payload.drop d ++ log vs).length ≤
      (scanf LOG_FORMAT (w.payload.drop d ++ log vs)).2.length + (PAGE_LEN - d) + 2 := by
  have hlen : (w.payload.drop d).length = PAGE_LEN - d := by rw [List.length_drop, w.length_payload]
  rcases log_cases vs with e | ⟨y, e⟩
  · rw [e, List.append_nil, hlen]
    omega
  · obtain ⟨c, r, hr⟩ : ∃ c r, w.payload.drop d = c :: r :=
      List.exists_cons_of_ne_nil (by intro heq; rw [heq] at hlen; simp at hlen; omega)
    have hc : isSpace c = false := hb c (by rw [hr]; rfl)
    have hblock : blocks 99 104 (LOG_FORMAT.drop 1) = true := by decide
    have hle := scanf_blocks (s := 10) (c := 99) (h := 104) (y := y) (by decide) (by decide) (by decide)
      (by decide) (by decide) (LOG_FORMAT.drop 1) hblock (c :: r)
    have hskip : scanf LOG_FORMAT (c :: r ++ log vs) = scanf (LOG_FORMAT.drop 1) (c :: r ++ log vs) := by
      rw [logFormat_cons, List.cons_append, scanf, List.dropWhile_cons_of_neg (by simp [hc])]
      rfl
    rw [hr] at hlen ⊢
    rw [hskip, e, List.length_append, hlen]
    simp only [List.length_cons] at hle ⊢
    omega

end

theorem head_drop_blanks (t : List UInt8) : ∀ b ∈ (t.drop (blanks t)).head?, isSpace b = false := by
  intro b hb
  rw [← dropWhile_isSpace] at hb
  have := List.head?_dropWhile_not isSpace t
  rw [Option.mem_def.mp hb] at this
  simpa using this

/-- The format begins with white space, so it may start behind it. -/
theorem scan_drop_blanks {t : List UInt8} {k : Nat} (hk : k ≤ blanks t) :
    scanf LOG_FORMAT (t.drop k) = scanf LOG_FORMAT t := by
  rw [logFormat_cons]
  exact scanf_drop_blanks _ _ hk

/-! ## Logs in which a scan reads less than a record -/

/-- No page is blank, and no two pages in a row are blank from a place in the
first one to the same place in the second. -/
structure Loose (ws : List Write) : Prop where
  page : ∀ w ∈ ws, blanks w.payload < PAGE_LEN
  pair : ws.IsChain fun older newer => tailBlanks older.payload + blanks newer.payload < PAGE_LEN

section
variable {w : Write} {vs : List Write}

theorem Loose.tail (h : Loose (w :: vs)) : Loose vs where
  page v hv := h.page v (List.mem_cons_of_mem w hv)
  pair := h.pair.tail

/-- From inside a page: up to the end of its blanks, or on from the next header. -/
theorem Loose.scan_page (h : Loose (w :: vs)) {d : Nat} (hd : d < PAGE_LEN) :
    (w.payload.drop d ++ log vs).length < (scanf LOG_FORMAT (w.payload.drop d ++ log vs)).2.length + RECORD_LEN ∧
      (d = 0 → (w.payload ++ log vs).length + 1 <
        (scanf LOG_FORMAT (w.payload ++ log vs)).2.length + RECORD_LEN) := by
  have hlen : (w.payload.drop d).length = PAGE_LEN - d := by rw [List.length_drop, w.length_payload]
  by_cases hall : ∀ b ∈ w.payload.drop d, isSpace b = true
  · have htail := blank_from_iff.mp hall
    rw [w.length_payload] at htail
    have hpos : d ≠ 0 := fun e => by
      have := blanks_eq_length.mpr hall
      have := h.page w List.mem_cons_self
      rw [e, List.drop_zero] at hlen
      subst e
      rw [List.drop_zero] at *
      omega
    refine ⟨?_, fun e => absurd e hpos⟩
    have hskip := scan_drop_blanks (t := w.payload.drop d ++ log vs) (k := (w.payload.drop d).length)
      (by rw [blanks_append_of_all hall]; omega)
    rw [List.drop_left] at hskip
    rw [← hskip, List.length_append, hlen, RECORD_LEN, PPA_LOG_LEN]
    cases vs with
    | nil =>
      simp only [log_eq, List.flatMap_nil, List.length_nil]
      omega
    | cons v vs =>
      have hpair : tailBlanks w.payload + blanks v.payload < PAGE_LEN := (List.isChain_cons_cons.mp h.pair).1
      have hle := scan_at_header v vs (h.page v (by simp))
      rw [PPA_LOG_LEN] at hle
      omega
  · have hb : blanks (w.payload.drop d) < (w.payload.drop d).length :=
      Nat.lt_of_le_of_ne (blanks_le _) (mt blanks_eq_length.mp hall)
    have hskip := scan_drop_blanks (t := w.payload.drop d ++ log vs) (k := blanks (w.payload.drop d))
      (by rw [blanks_append hb])
    rw [List.drop_append_of_le_length hb.le, List.drop_drop] at hskip
    have hle := scan_in_page w vs (d := d + blanks (w.payload.drop d)) (by omega)
      (by rw [← List.drop_drop]; exact head_drop_blanks _)
    rw [hskip, List.length_append, List.length_drop, w.length_payload] at hle
    rw [RECORD_LEN, PPA_LOG_LEN]
    refine ⟨by rw [List.length_append, hlen]; omega, fun e => ?_⟩
    subst e
    rw [List.drop_zero] at *
    rw [List.length_append]
    omega

/-- From inside a header. -/
theorem Loose.scan_header (h : Loose (w :: vs)) {o : Nat} (ho : o < (header w.ppa).length) :
    ((log (w :: vs)).drop o).length < (scanf LOG_FORMAT ((log (w :: vs)).drop o)).2.length + RECORD_LEN := by
  have hpage := h.page w List.mem_cons_self
  have hle := scan_at_header w vs hpage
  obtain ⟨t, ht⟩ := header_cons w.ppa
  by_cases h1 : o ≤ 1
  · have hblank : o ≤ blanks (log (w :: vs)) := by
      rw [log_cons, ht, List.cons_append, blanks_cons (by decide)]
      omega
    rw [scan_drop_blanks hblank, List.length_drop, RECORD_LEN]
    omega
  have hlen := length_header_le w.ppa
  rw [log_cons, List.drop_append_of_le_length ho.le]
  by_cases hall : ∀ b ∈ (header w.ppa).drop o, isSpace b = true
  · have hskip := scan_drop_blanks (t := (header w.ppa).drop o ++ (w.payload ++ log vs))
      (k := ((header w.ppa).drop o).length) (by rw [blanks_append_of_all hall]; omega)
    rw [List.drop_left] at hskip
    have hend := header_end w ho hall
    have hrest := (h.scan_page (d := 0) (by decide)).2 rfl
    rw [← hskip, List.length_append, List.length_drop]
    omega
  · have hb : blanks ((header w.ppa).drop o) < ((header w.ppa).drop o).length :=
      Nat.lt_of_le_of_ne (blanks_le _) (mt blanks_eq_length.mp hall)
    have hskip := scan_drop_blanks (t := (header w.ppa).drop o ++ (w.payload ++ log vs))
      (k := blanks ((header w.ppa).drop o)) (by rw [blanks_append hb])
    rw [List.drop_append_of_le_length hb.le, List.drop_drop] at hskip
    rw [List.length_drop] at hb
    have hin := scan_in_header w (o := o + blanks ((header w.ppa).drop o)) (by omega) (by omega) (w.payload ++ log vs)
      (by rw [← List.drop_drop]; exact head_drop_blanks _)
    rw [hskip, List.length_append, List.length_drop] at hin
    rw [List.length_append, List.length_drop, RECORD_LEN, PPA_LOG_LEN]
    omega

end

/-- **In a loose log a scan reads less than a record.** -/
theorem scan_lt {ws : List Write} (h : Loose ws) (q : Nat) :
    ((log ws).drop q).length < (scanf LOG_FORMAT ((log ws).drop q)).2.length + RECORD_LEN := by
  induction ws generalizing q with
  | nil =>
    have hpos : 0 < RECORD_LEN := by decide
    simp only [log, List.foldl_nil, List.drop_nil, List.length_nil]
    omega
  | cons w vs ih =>
    have hp := w.length_payload
    by_cases hh : q < (header w.ppa).length
    · exact h.scan_header hh
    obtain ⟨d, rfl⟩ : ∃ d, q = (header w.ppa).length + d := ⟨q - (header w.ppa).length, by omega⟩
    rw [log_cons, ← List.drop_drop, List.drop_left]
    by_cases hd : d < PAGE_LEN
    · rw [List.drop_append_of_le_length (by omega)]
      exact (h.scan_page hd).1
    · obtain ⟨k, rfl⟩ : ∃ k, d = w.payload.length + k := ⟨d - w.payload.length, by omega⟩
      rw [← List.drop_drop, List.drop_left]
      exact ih h.tail k

/-- Where a scan that starts at `q` leaves the stream. -/
def scanEnd (file : List UInt8) (q : Nat) : Nat := file.length - (scanf LOG_FORMAT (file.drop q)).2.length

end OpenSSDEmu.L1.FlashLog
