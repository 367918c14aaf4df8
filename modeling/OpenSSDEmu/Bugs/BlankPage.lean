import OpenSSDEmu.Bugs.BackwardScan

/-!
# The scan of a header eats the blanks a page begins with

The format string of `BE_read_log` (src/emu/be/be.c:158) is that of
`BE_write_log`, line break at the end included. To `fscanf` that line break
is white space, which matches any run of it, so the scan goes on into the
page if that begins with white space, and `fread` starts too late.

Counterexample (`line_break_eaten`): a page that begins with a line break.

Holds when the page does not begin with white space.

* `header_scan_iff`: for every log and every record of it, exactly then the
  stream is left at the page and the page is read as it was written.
-/
namespace OpenSSDEmu.Bugs.BlankPage
open Stdio L1.FlashLog

/-- The scan of record `k` leaves the stream `PPA_LOG_LEN` bytes further on,
and the read that follows delivers the page `payload`. -/
structure ReadsPage (file : List UInt8) (k : Nat) (payload : List UInt8) : Prop where
  position : file.length - (scanf LOG_FORMAT (file.drop (k * RECORD_LEN))).2.length =
    k * RECORD_LEN + PPA_LOG_LEN
  page : ∀ buf torn, fread PAGE_LEN (scanf LOG_FORMAT (file.drop (k * RECORD_LEN))).2 buf torn = payload

section
variable (us vs : List Write) (w : Write)

/-- The scan of a record leaves out the blanks its page begins with. -/
theorem scanf_record (hs : ∀ v ∈ us ++ w :: vs, v.ppa.Small) :
    (scanf LOG_FORMAT ((log (us ++ w :: vs)).drop (us.length * RECORD_LEN))).2 =
      (w.payload ++ log vs).drop (blanks (w.payload ++ log vs)) := by
  rw [log_drop fun v hv => hs v (by simp [hv]), scanf_header (hs w (by simp))]

theorem position_record (hs : ∀ v ∈ us ++ w :: vs, v.ppa.Small) :
    (log (us ++ w :: vs)).length -
        (scanf LOG_FORMAT ((log (us ++ w :: vs)).drop (us.length * RECORD_LEN))).2.length =
      us.length * RECORD_LEN + PPA_LOG_LEN + blanks (w.payload ++ log vs) := by
  have hlen : (log (us ++ w :: vs)).length = us.length * RECORD_LEN + RECORD_LEN + (log vs).length := by
    rw [length_log hs, length_log fun v hv => hs v (by simp [hv]), List.length_append, List.length_cons,
      Nat.add_mul, Nat.succ_mul]
    omega
  have hb := blanks_le (w.payload ++ log vs)
  rw [List.length_append, w.length_payload] at hb
  rw [scanf_record us vs w hs, hlen, List.length_drop, List.length_append, w.length_payload, RECORD_LEN]
  omega

/-- A page is never empty. -/
theorem payload_cons (w : Write) : ∃ b t, w.payload = b :: t := by
  refine List.exists_cons_of_ne_nil ?_
  intro heq
  have := w.length_payload
  rw [heq] at this
  cases this

theorem blanks_eq_zero_iff :
    blanks (w.payload ++ log vs) = 0 ↔ ∀ b ∈ w.payload.head?, isSpace b = false := by
  obtain ⟨b, t, ht⟩ := payload_cons w
  rw [ht, List.cons_append]
  cases hb : isSpace b with
  | true => simp [blanks, hb]
  | false => simp [blanks, hb]

theorem readsPage_iff (hs : ∀ v ∈ us ++ w :: vs, v.ppa.Small) :
    ReadsPage (log (us ++ w :: vs)) us.length w.payload ↔ ∀ b ∈ w.payload.head?, isSpace b = false := by
  rw [← blanks_eq_zero_iff vs w]
  constructor
  · intro h
    have hpos := h.position
    rw [position_record us vs w hs] at hpos
    omega
  · intro h
    refine ⟨by rw [position_record us vs w hs, h, Nat.add_zero], fun buf torn => ?_⟩
    rw [scanf_record us vs w hs, h, List.drop_zero, fread,
      if_pos (by rw [List.length_append, w.length_payload]; omega),
      ← w.length_payload, List.take_left]

end

/-- **The page of a record is read as it was written exactly when** it does
not begin with white space. -/
theorem header_scan_iff {ws : List Write} (hs : ∀ w ∈ ws, w.ppa.Small) {k : Nat} {w : Write}
    (hk : ws[k]? = some w) :
    ReadsPage (log ws) k w.payload ↔ ∀ b ∈ w.payload.head?, isSpace b = false := by
  obtain ⟨us, vs, rfl, rfl⟩ := split_at hk
  exact readsPage_iff us vs w hs

/-- The first of two pages, both of letters. -/
theorem header_scan_letters :
    ReadsPage (log [BackwardScan.fill 7 120, BackwardScan.fill 8 121]) 0 (List.replicate PAGE_LEN 120) :=
  (header_scan_iff (w := BackwardScan.fill 7 120) (BackwardScan.small_of_all rfl) rfl).mpr fun b hb => by
    cases hb
    rfl

/-- A line break and then letters. -/
def lineBreak : Write :=
  ⟨⟨0, 0, 0, 0, 1, 7⟩, 10 :: 120 :: List.replicate (PAGE_LEN - 2) 120, by
    rw [List.length_cons, List.length_cons, List.length_replicate]; rfl⟩

theorem blanks_lineBreak (rest : List UInt8) : blanks (10 :: 120 :: rest) = 1 := by
  have h : isSpace 120 = false := rfl
  rw [blanks_cons rfl]
  simp [blanks, h]

/-- **Counterexample**: the scan goes one byte too far, and the page is not
delivered. -/
theorem line_break_eaten :
    (log [lineBreak]).length - (scanf LOG_FORMAT ((log [lineBreak]).drop (0 * RECORD_LEN))).2.length =
        0 * RECORD_LEN + PPA_LOG_LEN + 1 ∧
      ¬ ReadsPage (log [lineBreak]) 0 lineBreak.payload := by
  have hs : ∀ w ∈ [lineBreak], w.ppa.Small := BackwardScan.small_of_all rfl
  constructor
  · have hpos := position_record [] [] lineBreak hs
    rw [show lineBreak.payload ++ log [] = 10 :: 120 :: (List.replicate (PAGE_LEN - 2) 120 ++ log []) from rfl,
      blanks_lineBreak] at hpos
    simpa only [List.nil_append, List.length_nil] using hpos
  · intro h
    have hblank := (readsPage_iff [] [] lineBreak hs).mp h
    exact absurd (hblank 10 rfl) (by decide)

end OpenSSDEmu.Bugs.BlankPage
