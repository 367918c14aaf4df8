import OpenSSDEmu.Bugs.BackwardScan
import OpenSSDEmu.L1Encoding.LogScan

/-!
# The backward scan of the flash log can go on for ever

`BE_read_log` (src/emu/be/be.c:156-168) has no other exit than a match or a
failing seek. A round goes back by a record length and forward over what
`fscanf` reads, and the white space in its format reads blanks without
bound. Where it reads a whole record length the round ends where it began,
or further on, and all later rounds do the same.

Counterexample (`blank_page_never_ends`): one page of blanks in the log, and
a read of any other address.

Holds when: the address is that of the last record (`AtLast`), or no page of
the log is blank and of no two pages in a row the blanks that end the older
one and those that begin the newer one are 16 KB or more together (`Loose`).

* `read_log_ends_when`: that is enough for every log and every address. It is
  necessary where the fields have at most four digits, no page holds text that
  begins like a header (`Plain`) and the address was not written before the
  last record. Elsewhere the walk may come upon the address, or upon the rest
  of a header, by accident.
-/
namespace OpenSSDEmu.Bugs.EndlessScan
open Stdio L1.FlashLog

/-- The last record is of `a`, and scans to it. -/
def AtLast (ws : List Write) (a : Ppa) : Prop := a.Small ∧ ∃ us w, ws = us ++ [w] ∧ w.ppa = a

/-- Wherever a scan starts before the blanks a page ends in, it finds no number
and stops inside the page. -/
def Plain (page : List UInt8) : Prop := ∀ d, d + tailBlanks page < page.length → NoHeader (page.drop d)

/-- The six locals after a scan at `q`. -/
def localsAfter (file : List UInt8) (q : Nat) (locals : Ppa) : Ppa :=
  locals.assign (scanf LOG_FORMAT (file.drop q)).1

section
variable {file : List UInt8} {a : Ppa} {buf torn : List UInt8}

/-- One round. -/
theorem readLoop_round (fuel q : Nat) (locals : Ppa) :
    readLoop file a buf torn (fuel + 1) (q + RECORD_LEN) locals =
      if a = localsAfter file q locals then
        some (fread PAGE_LEN (scanf LOG_FORMAT (file.drop q)).2 buf torn)
      else readLoop file a buf torn fuel (scanEnd file q) (localsAfter file q locals) := by
  have hseek : seekBack (q + RECORD_LEN) (PAGE_LEN + PPA_LOG_LEN) = some q := by
    rw [seekBack, if_pos (by rw [RECORD_LEN]; omega), RECORD_LEN, Nat.add_sub_cancel]
  rw [readLoop, hseek]
  rfl

end

/-! ## The walk that ends -/

section
variable {ws : List Write} {a : Ppa} {buf torn : List UInt8}

/-- In a loose log every round goes back. -/
theorem ends_of_loose (h : Loose ws) (pos : Nat) (locals : Ppa) :
    ∃ fuel r, readLoop (log ws) a buf torn fuel pos locals = some r := by
  induction pos using Nat.strong_induction_on generalizing locals with
  | _ pos ih =>
    by_cases hpos : pos < RECORD_LEN
    · exact ⟨1, buf, readLoop_start hpos 0⟩
    obtain ⟨q, rfl⟩ : ∃ q, pos = q + RECORD_LEN := ⟨pos - RECORD_LEN, by omega⟩
    have hback : scanEnd (log ws) q < q + RECORD_LEN := by
      have hlt := scan_lt h q
      have hle := scanf_length_le LOG_FORMAT ((log ws).drop q)
      rw [List.length_drop] at hlt hle
      unfold scanEnd
      omega
    obtain ⟨fuel, r, hr⟩ := ih _ hback (localsAfter (log ws) q locals)
    by_cases ha : a = localsAfter (log ws) q locals
    · exact ⟨1, _, by rw [readLoop_round, if_pos ha]⟩
    · exact ⟨fuel + 1, r, by rw [readLoop_round, if_neg ha, hr]⟩

/-- The first round finds the last record. -/
theorem ends_of_atLast (h : AtLast ws a) (locals : Ppa) :
    ∃ fuel r, readLog fuel (log ws) a buf torn locals = some r := by
  obtain ⟨hs, us, w, rfl, rfl⟩ := h
  have hlog : log (us ++ [w]) = log us ++ record w := by
    rw [log_eq, log_eq, List.flatMap_append, List.flatMap_singleton]
  have hlen : (log (us ++ [w])).length = (log us).length + RECORD_LEN := by
    rw [hlog, List.length_append, length_record hs]
  have hlocals : localsAfter (log (us ++ [w])) (log us).length locals = w.ppa := by
    rw [localsAfter, hlog, List.drop_left, record, scanf_header hs, assign_args]
  exact ⟨1, _, by rw [readLog, hlen, readLoop_round, hlocals, if_pos rfl]⟩

end

/-! ## The walk that does not -/

section
variable {pre post ws : List Write} {x y : Write} {a locals : Ppa} {buf torn : List UInt8}

theorem blanks_le_add (t : List UInt8) (d : Nat) : blanks t ≤ d + blanks (t.drop d) := by
  induction d generalizing t with
  | zero => simp
  | succ d ih =>
    cases t with
    | nil => simp [blanks]
    | cons b t =>
      have := ih t
      rw [List.drop_succ_cons]
      by_cases hb : isSpace b = true
      · rw [blanks_cons hb]
        omega
      · simp [blanks, hb]

/-- A scan stops behind the blanks it starts in. -/
theorem add_blanks_le_stop {d : Nat} (hd : d ≤ PAGE_LEN) :
    d + blanks (y.payload.drop d) ≤ stop y.payload d := by
  have hb := blanks_le (y.payload.drop d)
  have hle := scanf_length_le LOG_FORMAT ((y.payload.drop d).drop (blanks (y.payload.drop d)))
  rw [scan_drop_blanks le_rfl, List.length_drop, List.length_drop, y.length_payload] at hle
  rw [List.length_drop, y.length_payload] at hb
  unfold stop
  omega

/-- A round that starts in the blanks at the end of a page reads the next header
again. -/
theorem readLoop_again (hs : ∀ v ∈ pre ++ y :: x :: post, v.ppa.Small) (ha : a ≠ x.ppa) {d : Nat} (hd : d ≤ PAGE_LEN)
    (hall : ∀ b ∈ y.payload.drop d, isSpace b = true) (hx : blanks x.payload < PAGE_LEN) (fuel : Nat) :
    readLoop (log (pre ++ y :: x :: post)) a buf torn (fuel + 1)
        ((pre.length + 1) * RECORD_LEN + (PPA_LOG_LEN + d)) locals =
      readLoop (log (pre ++ y :: x :: post)) a buf torn fuel
        ((pre.length + 1) * RECORD_LEN + (PPA_LOG_LEN + blanks x.payload)) x.ppa := by
  have hscan : scanf LOG_FORMAT ((log (pre ++ y :: x :: post)).drop
      (pre.length * RECORD_LEN + (PPA_LOG_LEN + d))) =
        (x.ppa.args, (x.payload ++ log post).drop (blanks x.payload)) := by
    have hskip := scan_drop_blanks (t := y.payload.drop d ++ log (x :: post)) (k := (y.payload.drop d).length)
      (by rw [blanks_append_of_all hall]; omega)
    rw [List.drop_left] at hskip
    rw [← Nat.add_assoc, log_drop_page hs hd, ← hskip, log_cons, scanf_header (hs x (by simp)),
      blanks_append (by rw [x.length_payload]; exact hx)]
  have hlen : (log (pre ++ y :: x :: post)).length =
      (pre.length + 1) * RECORD_LEN + PPA_LOG_LEN + (x.payload ++ log post).length := by
    have hpost : (log post).length = post.length * RECORD_LEN := length_log fun v hv => hs v (by simp [hv])
    have hcount : (pre ++ y :: x :: post).length = pre.length + 1 + (post.length + 1) := by
      simp only [List.length_append, List.length_cons]
      omega
    rw [length_log hs, hcount, Nat.add_mul, Nat.succ_mul post.length, List.length_append, x.length_payload, hpost,
      RECORD_LEN]
    omega
  have hpos : (log (pre ++ y :: x :: post)).length - ((x.payload ++ log post).drop (blanks x.payload)).length =
      (pre.length + 1) * RECORD_LEN + (PPA_LOG_LEN + blanks x.payload) := by
    have hp := x.length_payload
    rw [hlen, List.length_drop, List.length_append]
    omega
  rw [readLoop, seekBack_record]
  simp only [hscan, hpos, assign_args]
  rw [if_neg ha]

/-- **The trap.** Somewhere before the page of `x` two pages are blank from a place
in the first one to the same place in the second. A walk that enters older
pages behind the blanks at the start of `x` never gets past these two: in the
first one it is behind its last byte that is not blank, and reads the header
of the second one over and over. -/
theorem readLoop_trapped (hs : ∀ v ∈ pre ++ x :: post, v.ppa.Small ∧ Plain v.payload ∧ v.ppa ≠ a)
    (htrap : ¬ (pre ++ [x]).IsChain fun older newer => tailBlanks older.payload + blanks newer.payload < PAGE_LEN)
    (hne : a ≠ locals) {d : Nat} (hx : blanks x.payload ≤ d) (hd : d < PAGE_LEN) (fuel : Nat) :
    readLoop (log (pre ++ x :: post)) a buf torn fuel (pre.length * RECORD_LEN + (PPA_LOG_LEN + d)) locals = none := by
  induction fuel generalizing pre x post locals d with
  | zero => rfl
  | succ fuel ih =>
    rcases pre.eq_nil_or_concat with rfl | ⟨pre, y, rfl⟩
    · exact absurd (List.isChain_singleton x) htrap
    have hsmall : ∀ v ∈ pre ++ y :: x :: post, v.ppa.Small := fun v hv => (hs v (by simpa using hv)).1
    have hxa : a ≠ x.ppa := Ne.symm (hs x (by simp)).2.2
    by_cases hall : ∀ b ∈ y.payload.drop d, isSpace b = true
    · -- the header of `x` again
      have hround := @readLoop_again pre post x y a locals buf torn hsmall hxa d hd.le hall (by omega) fuel
      have hnext := ih hs htrap hxa le_rfl (Nat.lt_of_le_of_lt hx hd)
      simp only [List.concat_eq_append, List.append_assoc, List.singleton_append, List.length_append,
        List.length_singleton] at hnext ⊢
      exact hround.trans hnext
    · -- on to the page of `y`
      have hroom : d + tailBlanks y.payload < PAGE_LEN := by
        have := mt blank_from_iff.mpr hall
        rw [y.length_payload] at this
        omega
      have hn : NoHeader (y.payload.drop d) := (hs y (by simp)).2.1 d (by rw [y.length_payload]; exact hroom)
      have hround := @readLoop_page pre y a locals buf torn (x :: post) hsmall hne d hd.le hn fuel
      have hstop := add_blanks_le_stop (y := y) hd.le
      have hblanks := blanks_le_add y.payload d
      have htrap' : ¬ (pre ++ [y]).IsChain fun older newer =>
          tailBlanks older.payload + blanks newer.payload < PAGE_LEN := fun hc => htrap <| by
        rw [List.concat_eq_append, List.append_assoc, List.singleton_append, List.isChain_split]
        exact ⟨hc, List.isChain_cons_cons.mpr ⟨by omega, List.isChain_singleton x⟩⟩
      have hnext := @ih pre (x :: post) y locals (fun v hv => hs v (by simpa using hv)) htrap' hne _
        (by omega) (stop_lt hn)
      simp only [List.concat_eq_append, List.append_assoc, List.singleton_append, List.length_append,
        List.length_singleton]
      exact hround.trans hnext

/-- A chain of pages of which the last one is not blank has no blank page. -/
theorem loose_of_chain (hc : (pre ++ [x]).IsChain fun older newer =>
    tailBlanks older.payload + blanks newer.payload < PAGE_LEN) (hx : blanks x.payload < PAGE_LEN) :
    Loose (pre ++ [x]) := by
  refine ⟨fun w hw => ?_, hc⟩
  induction pre with
  | nil => rwa [List.mem_singleton.mp hw]
  | cons v pre ih =>
    rcases List.mem_cons.mp hw with rfl | hw
    · obtain ⟨u, us, hu⟩ := List.exists_cons_of_ne_nil (show pre ++ [x] ≠ [] by simp)
      rw [List.cons_append, hu] at hc
      have hpair := (List.isChain_cons_cons.mp hc).1
      have hle := blanks_le w.payload
      by_contra hblank
      have hall : (∀ b ∈ w.payload.drop 0, isSpace b = true) ↔ _ := blank_from_iff
      rw [List.drop_zero, ← blanks_eq_length, w.length_payload] at hall
      rw [w.length_payload] at hle
      have := hall.mp (by omega)
      omega
    · exact ih hc.tail hw

/-- A walk through plain pages that are not loose does not end. -/
theorem never_ends (hs : ∀ w ∈ ws, w.ppa.Small ∧ Plain w.payload ∧ w.ppa ≠ a) (hne : ws ≠ []) (hl : ¬ Loose ws)
    (fuel : Nat) : readLog fuel (log ws) a buf torn locals = none := by
  obtain ⟨pre, x, rfl⟩ := ws.eq_nil_or_concat.resolve_left hne
  rw [List.concat_eq_append] at hs hl ⊢
  have hsmall : ∀ v ∈ pre ++ [x], v.ppa.Small := fun v hv => (hs v hv).1
  have hxa : a ≠ x.ppa := Ne.symm (hs x (by simp)).2.2
  have hlen : (log (pre ++ [x])).length = (pre.length + 1) * RECORD_LEN := by
    rw [length_log hsmall, List.length_append, List.length_singleton]
  rw [readLog, hlen]
  by_cases hb : blanks x.payload = PAGE_LEN
  · exact BackwardScan.readLoop_blank hsmall hxa hb fuel locals
  · have hlt : blanks x.payload < PAGE_LEN :=
      Nat.lt_of_le_of_ne (x.length_payload ▸ blanks_le x.payload) hb
    cases fuel with
    | zero => rfl
    | succ fuel =>
      rw [readLoop_record hsmall, if_neg hxa, Nat.add_assoc]
      exact readLoop_trapped hs (fun hc => hl (loose_of_chain hc hlt)) hxa le_rfl hlt fuel

end

/-- **When the loop ends.** A loose log, or a read of the last record, is enough
whatever the log, the address and the uninitialised locals; and where no page
is taken for a header and the address was not written before, nothing else is. -/
theorem read_log_ends_when (ws : List Write) (a : Ppa) :
    (AtLast ws a ∨ Loose ws → ∀ buf torn locals, ∃ fuel r, readLog fuel (log ws) a buf torn locals = some r) ∧
      ((∀ w ∈ ws, w.ppa.Small ∧ Plain w.payload) → (∀ w ∈ ws.dropLast, w.ppa ≠ a) →
        ∀ buf torn locals fuel r, readLog fuel (log ws) a buf torn locals = some r → AtLast ws a ∨ Loose ws) := by
  refine ⟨fun h buf torn locals => ?_, fun hs hold buf torn locals fuel r hr => ?_⟩
  · rcases h with h | h
    · exact ends_of_atLast h locals
    · exact ends_of_loose h _ locals
  · by_contra hno
    obtain ⟨hlast, hloose⟩ := not_or.mp hno
    rcases ws.eq_nil_or_concat with rfl | ⟨us, w, rfl⟩
    · exact hloose ⟨by simp, List.isChain_nil⟩
    rw [List.concat_eq_append] at *
    rw [List.dropLast_concat] at hold
    have hall : ∀ v ∈ us ++ [w], v.ppa.Small ∧ Plain v.payload ∧ v.ppa ≠ a := fun v hv => by
      refine ⟨(hs v hv).1, (hs v hv).2, fun hva => ?_⟩
      rcases List.mem_append.mp hv with hv' | hv'
      · exact hold v hv' hva
      · obtain rfl := List.mem_singleton.mp hv'
        exact hlast ⟨hva ▸ (hs v hv).1, us, v, rfl, hva⟩
    rw [never_ends hall (by simp) hloose] at hr
    cases hr

/-- A page without a `c` is plain. -/
theorem plain_of_notMem {page : List UInt8} (h : 99 ∉ page) : Plain page := by
  intro d hd
  have hall : ¬ ∀ b ∈ page.drop d, isSpace b = true := fun hall => by
    have := blank_from_iff.mp hall
    omega
  have hb := Nat.lt_of_le_of_ne (blanks_le (page.drop d)) (mt blanks_eq_length.mp hall)
  obtain ⟨c, t, ht⟩ := List.exists_cons_of_ne_nil (mt List.drop_eq_nil_iff.mp (Nat.not_le_of_lt hb))
  have hc : isSpace c = false := head_drop_blanks (page.drop d) c (by rw [ht]; rfl)
  have hne : c ≠ 99 := by
    rintro rfl
    exact h (List.mem_of_mem_drop (List.mem_of_mem_drop (ht ▸ List.mem_cons_self)))
  have hn : NoHeader (c :: t) := (noHeader_of_head hc hne).1
  unfold NoHeader at hn ⊢
  rw [← ht, scan_drop_blanks le_rfl] at hn
  exact hn

theorem plain_fill {page : UInt32} {c : UInt8} (hc : c ≠ 99) : Plain (BackwardScan.fill page c).payload :=
  plain_of_notMem fun h => hc (List.eq_of_mem_replicate h).symm

theorem tailBlanks_fill (page : UInt32) (c : UInt8) :
    tailBlanks (BackwardScan.fill page c).payload = blanks (BackwardScan.fill page c).payload := by
  unfold tailBlanks BackwardScan.fill
  rw [List.reverse_replicate]

/-- Two records and a page never written: the loop ends, and with blanks in the
older record it does not. -/
theorem read_log_ends_when_two :
    (∃ fuel r, readLog fuel (log [BackwardScan.fill 7 120, BackwardScan.fill 8 121]) ⟨0, 0, 0, 0, 1, 9⟩ [] []
      ⟨0, 0, 0, 0, 0, 0⟩ = some r) ∧
      ∀ fuel, readLog fuel (log [BackwardScan.fill 7 32, BackwardScan.fill 8 121]) ⟨0, 0, 0, 0, 1, 9⟩ [] []
        ⟨0, 0, 0, 0, 0, 0⟩ = none := by
  have h120 : blanks (BackwardScan.fill 7 120).payload = 0 := BackwardScan.blanks_replicate rfl
  have h121 : blanks (BackwardScan.fill 8 121).payload = 0 := BackwardScan.blanks_replicate rfl
  have hblank : blanks (BackwardScan.fill 7 32).payload = PAGE_LEN := by
    simp [blanks, BackwardScan.fill, show isSpace 32 = true from rfl]
  have hpage : 0 < PAGE_LEN := by decide
  constructor
  · refine (read_log_ends_when _ _).1 (.inr ⟨fun w hw => ?_, ?_⟩) _ _ _
    · rcases List.mem_pair.mp hw with rfl | rfl
      · rwa [h120]
      · rwa [h121]
    · refine List.isChain_cons_cons.mpr ⟨?_, List.isChain_singleton _⟩
      rwa [tailBlanks_fill, h120, h121]
  · intro fuel
    have hs : ∀ w ∈ [BackwardScan.fill 7 32, BackwardScan.fill 8 121], w.ppa.Small ∧ Plain w.payload := by
      intro w hw
      refine ⟨BackwardScan.small_of_all rfl w hw, ?_⟩
      rcases List.mem_pair.mp hw with rfl | rfl
      · exact plain_fill (by decide)
      · exact plain_fill (by decide)
    have hold : ∀ w ∈ [BackwardScan.fill 7 32, BackwardScan.fill 8 121].dropLast, w.ppa ≠ ⟨0, 0, 0, 0, 1, 9⟩ := by
      intro w hw
      rw [List.mem_singleton.mp hw]
      exact fun e => absurd (congrArg Ppa.page e) (by decide)
    refine Option.eq_none_iff_forall_ne_some.mpr fun r hr => ?_
    rcases (read_log_ends_when _ _).2 hs hold _ _ _ fuel r hr with ⟨-, us, w, e, hw⟩ | hl
    · obtain ⟨-, e⟩ := List.append_inj' (show [BackwardScan.fill 7 32] ++ [_] = us ++ [w] from e) rfl
      obtain rfl := List.singleton_inj.mp e
      exact absurd (congrArg Ppa.page hw) (by decide)
    · exact absurd (hl.page _ List.mem_cons_self) (by rw [hblank]; exact Nat.lt_irrefl _)

/-! ## Counterexample -/

/-- **Counterexample**: page 8 is written with blanks; the read of page 7
does not end, whatever the locals held. -/
theorem blank_page_never_ends : ¬ ∃ (locals : Ppa) (buf torn : List UInt8) (fuel : Nat) (r : List UInt8),
    readLog fuel (log [BackwardScan.fill 8 32]) ⟨0, 0, 0, 0, 1, 7⟩ buf torn locals = some r := by
  intro hx
  obtain ⟨locals, buf, torn, fuel, r, hx⟩ := hx
  have hs : ∀ w ∈ [BackwardScan.fill 8 32], w.ppa.Small := BackwardScan.small_of_all rfl
  have hb : blanks (BackwardScan.fill 8 32).payload = PAGE_LEN := by
    simp [blanks, BackwardScan.fill, show isSpace 32 = true from rfl]
  have heq := @BackwardScan.readLog_eq [] (BackwardScan.fill 8 32) ⟨0, 0, 0, 0, 1, 7⟩ locals buf torn hs fuel
  have hnone := heq.trans (@BackwardScan.readLoop_blank _ _ _ [] _ hs (by decide) hb fuel locals)
  have hsome := hx.symm.trans hnone
  cases hsome

end OpenSSDEmu.Bugs.EndlessScan
