import OpenSSDEmu.L1Encoding.FlashLog

/-!
# The backward scan of the flash log finds only the last record

`BE_read_log` (src/emu/be/be.c:140-173) seeks back by one record length
relative to where `fscanf` left the stream. After the first round that is
behind the header it has just scanned, so every later round starts 58 bytes
too far on, inside the page of an older record, and takes its bytes for a
header. The format also ends in white space, so the scan eats the blanks the
page begins with, and `fread` is short by as many bytes.

Counterexample (`older_record_missed`): two writes to different addresses;
reading the first leaves the buffer as it was.

Holds when (`Found`): the log is empty; or the last write of all is to `a`
and its page does not begin with white space; or `a` was never written, the
last page is not all white space, and wherever the walk enters an older page
the scan assigns no number and stops inside the page (`Clean`).

* `read_log_when`: `Found` is enough for every log and address, and it is
  necessary where the walk takes no page contents for a header (`Plain`).
-/
namespace OpenSSDEmu.Bugs.BackwardScan
open Stdio L1.FlashLog

/-- Reading `a` gives the page last written there, or leaves the buffer
alone, whatever the locals and an incomplete read contain. -/
def Reads (ws : List Write) (a : Ppa) : Prop :=
  ∀ buf torn locals, buf.length = PAGE_LEN → torn.length = PAGE_LEN →
    ∃ fuel, readLog fuel (log ws) a buf torn locals = some ((lastWrite ws a).getD buf)

/-- The walk through the older pages, newest first, enters the first one at
byte `d` and each further one where it stopped in the one before, and never
meets a header. -/
def Clean : List Write → Nat → Prop
  | [], _ => True
  | w :: older, d => NoHeader (w.payload.drop d) ∧ Clean older (stop w.payload d)

/-- When the code finds what it should, on the writes newest first. -/
def Found (a : Ppa) : List Write → Prop
  | [] => True
  | w :: older =>
    if w.ppa = a then blanks w.payload = 0
    else (∀ v ∈ older, v.ppa ≠ a) ∧ blanks w.payload ≠ PAGE_LEN ∧ Clean older (blanks w.payload)

/-- The walk takes no page contents for a header, or is not made. -/
def Plain (a : Ppa) : List Write → Prop
  | [] => True
  | w :: older => w.ppa = a ∨ blanks w.payload = PAGE_LEN ∨ Clean older (blanks w.payload)

/-! ## The walk -/

section
variable {a locals : Ppa} {buf torn : List UInt8}

/-- A clean walk ends at the start of the file without a match. -/
theorem readLoop_clean (hne : a ≠ locals) : ∀ (older vs : List Write) (d : Nat),
    (∀ v ∈ older.reverse ++ vs, v.ppa.Small) → d < PAGE_LEN → Clean older d →
      readLoop (log (older.reverse ++ vs)) a buf torn (older.length + 1)
        (older.length * RECORD_LEN + (PPA_LOG_LEN + d)) locals = some buf := by
  intro older
  induction older with
  | nil =>
    intro vs d _ hd _
    refine readLoop_start ?_ 0
    rw [List.length_nil, Nat.zero_mul, RECORD_LEN]
    omega
  | cons w older ih =>
    intro vs d hs hd hc
    rw [List.reverse_cons, List.append_assoc, List.singleton_append] at hs ⊢
    rw [List.length_cons, ← List.length_reverse, readLoop_page hs hne hd.le hc.1, List.length_reverse]
    exact ih (w :: vs) _ hs (stop_lt hc.1) hc.2

/-- A last page of blanks brings the loop back to where it was. -/
theorem readLoop_blank {us : List Write} {w : Write} (hs : ∀ v ∈ us ++ [w], v.ppa.Small) (hne : a ≠ w.ppa)
    (hb : blanks w.payload = PAGE_LEN) : ∀ (fuel : Nat) (locals : Ppa),
      readLoop (log (us ++ [w])) a buf torn fuel ((us.length + 1) * RECORD_LEN) locals = none := by
  intro fuel
  induction fuel with
  | zero => intro locals; rfl
  | succ fuel ih =>
    intro locals
    have hpos : us.length * RECORD_LEN + PPA_LOG_LEN + blanks w.payload = (us.length + 1) * RECORD_LEN := by
      rw [hb, Nat.succ_mul, RECORD_LEN]
      omega
    rw [readLoop_record hs, if_neg hne, hpos]
    exact ih _

end

/-! ## Reading the last record -/

section
variable {older : List Write} {w : Write} {a locals : Ppa} {buf torn : List UInt8}

/-- The loop starts at the end of the last record. -/
theorem readLog_eq (hs : ∀ v ∈ older.reverse ++ [w], v.ppa.Small) (fuel : Nat) :
    readLog fuel (log (older.reverse ++ [w])) a buf torn locals =
      readLoop (log (older.reverse ++ [w])) a buf torn fuel ((older.reverse.length + 1) * RECORD_LEN) locals := by
  rw [readLog, length_log hs, List.length_append, List.length_singleton]

theorem readLog_last (hs : ∀ v ∈ older.reverse ++ [w], v.ppa.Small) (ha : w.ppa = a) :
    readLog 1 (log (older.reverse ++ [w])) a buf torn locals =
      some (fread PAGE_LEN (w.payload.drop (blanks w.payload)) buf torn) := by
  rw [readLog_eq hs, readLoop_record hs, if_pos ha.symm]

theorem readLog_clean (hs : ∀ v ∈ older.reverse ++ [w], v.ppa.Small) (ha : w.ppa ≠ a)
    (hb : blanks w.payload ≠ PAGE_LEN) (hc : Clean older (blanks w.payload)) :
    readLog (older.length + 2) (log (older.reverse ++ [w])) a buf torn locals = some buf := by
  have hle := blanks_le w.payload
  rw [w.length_payload] at hle
  rw [readLog_eq hs, readLoop_record hs, if_neg (Ne.symm ha), List.length_reverse, Nat.add_assoc]
  exact readLoop_clean (Ne.symm ha) older [w] _ hs (by omega) hc

theorem lastWrite_last (ha : w.ppa = a) : lastWrite (older.reverse ++ [w]) a = some w.payload := by
  simp [lastWrite, ha]

theorem lastWrite_older (ha : w.ppa ≠ a) :
    lastWrite (older.reverse ++ [w]) a = lastWrite older.reverse a := by
  simp [lastWrite, ha]

theorem lastWrite_eq_none (h : ∀ v ∈ older, v.ppa ≠ a) : lastWrite older.reverse a = none := by
  simpa [lastWrite] using h

end

theorem replicate_ne {b c : UInt8} (h : b ≠ c) :
    List.replicate PAGE_LEN b ≠ List.replicate PAGE_LEN c := fun e =>
  h ((List.replicate_inj.mp e).2.resolve_left (by decide))

/-- There is a page other than any given one. -/
theorem exists_other (p : List UInt8) : ∃ q : List UInt8, q.length = PAGE_LEN ∧ q ≠ p := by
  by_cases h : p = List.replicate PAGE_LEN 0
  · exact ⟨List.replicate PAGE_LEN 1, List.length_replicate, h ▸ replicate_ne (by decide)⟩
  · exact ⟨List.replicate PAGE_LEN 0, List.length_replicate, Ne.symm h⟩

/-! ## Exactly when -/

/-- The writes are none, or a last one after older ones. -/
theorem reverse_cases (ws : List Write) :
    ws = [] ∨ ∃ w older, ws = older.reverse ++ [w] ∧ ws.reverse = w :: older := by
  cases h : ws.reverse with
  | nil => exact .inl (List.reverse_eq_nil_iff.mp h)
  | cons w older =>
    refine .inr ⟨w, older, ?_, rfl⟩
    rw [← List.reverse_cons, ← h, List.reverse_reverse]

theorem reads_of_found {ws : List Write} (hs : ∀ w ∈ ws, w.ppa.Small) {a : Ppa} (hf : Found a ws.reverse) :
    Reads ws a := by
  intro buf torn locals _ _
  rcases reverse_cases ws with rfl | ⟨w, older, rfl, hrev⟩
  · exact ⟨1, readLoop_start (by decide) 0⟩
  · rw [hrev, Found] at hf
    split at hf
    · rename_i ha
      refine ⟨1, ?_⟩
      rw [readLog_last hs ha, lastWrite_last ha, hf, List.drop_zero, fread, if_pos w.length_payload.ge,
        ← w.length_payload, List.take_length]
      rfl
    · rename_i ha
      refine ⟨older.length + 2, ?_⟩
      rw [readLog_clean hs ha hf.2.1 hf.2.2, lastWrite_older ha, lastWrite_eq_none hf.1]
      rfl

theorem found_of_reads {ws : List Write} (hs : ∀ w ∈ ws, w.ppa.Small) {a : Ppa} (hp : Plain a ws.reverse)
    (hr : Reads ws a) : Found a ws.reverse := by
  rcases reverse_cases ws with rfl | ⟨w, older, rfl, hrev⟩
  · trivial
  · rw [hrev, Found]
    rw [hrev, Plain] at hp
    split
    · rename_i ha
      -- a read that is short leaves the buffer as it was, or in any state
      by_contra hb
      obtain ⟨q, hq, hne⟩ := exists_other w.payload
      obtain ⟨fuel, h⟩ := hr q q a hq hq
      have h' : readLog 1 (log (older.reverse ++ [w])) a q q a = _ := readLog_last hs ha
      have hshort : (w.payload.drop (blanks w.payload)).length < PAGE_LEN := by
        have hpage : 0 < PAGE_LEN := by decide
        rw [List.length_drop, w.length_payload]
        omega
      rw [fread, if_neg (by omega), ite_self] at h'
      rw [lastWrite_last ha, Option.getD_some] at h
      exact hne (readLog_unique h' h)
    · rename_i ha
      have hb : blanks w.payload ≠ PAGE_LEN := by
        intro hb
        obtain ⟨q, hq, -⟩ := exists_other []
        obtain ⟨fuel, h⟩ := hr q q a hq hq
        rw [readLog_eq hs, readLoop_blank hs (Ne.symm ha) hb] at h
        cases h
      have hc := (hp.resolve_left ha).resolve_left hb
      refine ⟨fun v hv hva => ?_, hb, hc⟩
      -- the walk misses the older write and leaves the buffer as it was
      obtain ⟨p, hlast⟩ : ∃ p, lastWrite older.reverse a = some p := by
        rw [← Option.isSome_iff_exists, lastWrite, Option.isSome_map, List.find?_isSome]
        exact ⟨v, by simpa using hv, by simpa using hva⟩
      obtain ⟨q, hq, hne⟩ := exists_other p
      obtain ⟨fuel, h⟩ := hr q q a hq hq
      rw [lastWrite_older ha, hlast, Option.getD_some] at h
      exact hne (readLog_unique (readLog_clean hs ha hb hc) h)

/-- **When the read is right.** It is enough that the log is empty, or the last
record is the one wanted and its page begins with no blank, or nothing was
ever written there and the walk back is clean. That is also necessary in
every log in which the walk takes no page contents for a header. -/
theorem read_log_when {ws : List Write} (hs : ∀ w ∈ ws, w.ppa.Small) (a : Ppa) :
    (Found a ws.reverse → Reads ws a) ∧ (Plain a ws.reverse → Reads ws a → Found a ws.reverse) :=
  ⟨reads_of_found hs, found_of_reads hs⟩

/-- A page of one byte, written to page 7 or another page of a block. -/
def fill (page : UInt32) (c : UInt8) : Write :=
  ⟨⟨0, 0, 0, 0, 1, page⟩, List.replicate PAGE_LEN c, List.length_replicate⟩

theorem small_of_all {ws : List Write}
    (h : ws.all (fun w => w.ppa.args.all fun v => v.toNat ≤ 9999) = true) :
    ∀ w ∈ ws, w.ppa.Small := by
  simpa [Ppa.Small] using h

theorem blanks_replicate {c : UInt8} (hc : isSpace c = false) : blanks (List.replicate PAGE_LEN c) = 0 := by
  simp [blanks, hc]

/-- Two writes to one page: the second one is read. -/
theorem read_log_when_rewritten : Reads [fill 7 120, fill 7 121] ⟨0, 0, 0, 0, 1, 7⟩ ∧
    lastWrite [fill 7 120, fill 7 121] ⟨0, 0, 0, 0, 1, 7⟩ = some (List.replicate PAGE_LEN 121) :=
  ⟨(read_log_when (small_of_all rfl) _).1 (by simp [fill, Found, blanks_replicate (c := 121) rfl]), rfl⟩

/-! ## Counterexample -/

/-- **Counterexample**: of two pages written, the first is not found, and the
buffer stays as it was. -/
theorem older_record_missed :
    lastWrite [fill 7 120, fill 8 121] ⟨0, 0, 0, 0, 1, 7⟩ = some (List.replicate PAGE_LEN 120) ∧
      readLog 3 (log [fill 7 120, fill 8 121]) ⟨0, 0, 0, 0, 1, 7⟩ (List.replicate PAGE_LEN 0)
        (List.replicate PAGE_LEN 0) ⟨0, 0, 0, 0, 0, 0⟩ = some (List.replicate PAGE_LEN 0) ∧
      ¬ Reads [fill 7 120, fill 8 121] ⟨0, 0, 0, 0, 1, 7⟩ := by
  have hs : ∀ w ∈ [fill 7 120, fill 8 121], w.ppa.Small := small_of_all rfl
  have hb : blanks (fill 8 121).payload = 0 := blanks_replicate rfl
  have hclean : Clean [fill 7 120] (blanks (fill 8 121).payload) := by
    refine ⟨?_, trivial⟩
    rw [hb, List.drop_zero, show (fill 7 120).payload = 120 :: List.replicate (PAGE_LEN - 1) 120 from rfl]
    exact (noHeader_of_head rfl (by decide)).1
  have hread : readLog 3 (log [fill 7 120, fill 8 121]) ⟨0, 0, 0, 0, 1, 7⟩ (List.replicate PAGE_LEN 0)
      (List.replicate PAGE_LEN 0) ⟨0, 0, 0, 0, 0, 0⟩ = some (List.replicate PAGE_LEN 0) :=
    @readLog_clean [fill 7 120] (fill 8 121) _ _ _ _ hs (by decide) (by rw [hb]; decide) hclean
  have hlast : lastWrite [fill 7 120, fill 8 121] ⟨0, 0, 0, 0, 1, 7⟩ =
    some (List.replicate PAGE_LEN 120) := rfl
  refine ⟨hlast, hread, fun hr => ?_⟩
  obtain ⟨fuel, h⟩ := hr (List.replicate PAGE_LEN 0) (List.replicate PAGE_LEN 0) ⟨0, 0, 0, 0, 0, 0⟩
    List.length_replicate List.length_replicate
  rw [hlast, Option.getD_some] at h
  exact replicate_ne (by decide) (readLog_unique hread h)

end OpenSSDEmu.Bugs.BackwardScan
