import OpenSSDEmu.Core.Stdio

/-!
# The flash log

`emu/be/be.c`: the back end keeps flash contents in one file. `BE_write_log`
appends a record, a text line with the physical page address and then the
16 KB of the page. `BE_read_log` walks from the end of the file: seek back
by the length of a record, scan an address, and read the page when it is the
one wanted.

The model follows the C library (`Core.Stdio`). `readLog` takes a bound on
the rounds of the loop, the contents of the uninitialised locals, and what
an incomplete `fread` leaves in the buffer; `none` is a loop that has not
ended yet.

* `length_header`, `scanf_header`: the line of an address with fields up to
  9999 is `PPA_LOG_LEN` bytes and is scanned back. The scan also takes the
  white space the page begins with.
* `header_codec`: so the file is its records, and a scan at a record gives its
  address.
* `readLoop_record`, `readLoop_page`, `readLoop_start`: one round of the
  loop, at the start of the last record, inside a page, and at the start of
  the file.
-/
namespace OpenSSDEmu.L1.FlashLog
open Stdio

/-- mirrors src/emu/be/be.c:15 and `16 * KB`, src/lib/type.h:6 -/
def PPA_LOG_LEN : Nat := 58
def PAGE_LEN : Nat := 16 * 1024

/-- The address arguments of the two functions, and the six locals of
`BE_read_log`. -/
structure Ppa where
  ch : UInt32
  ce : UInt32
  lun : UInt32
  plane : UInt32
  block : UInt32
  page : UInt32
  deriving DecidableEq, Repr

def Ppa.args (a : Ppa) : List UInt32 := [a.ch, a.ce, a.lun, a.plane, a.block, a.page]

/-- The locals after a scan that assigned `vs` to the first of them. -/
def Ppa.assign (a : Ppa) (vs : List UInt32) : Ppa where
  ch := vs.getD 0 a.ch
  ce := vs.getD 1 a.ce
  lun := vs.getD 2 a.lun
  plane := vs.getD 3 a.plane
  block := vs.getD 4 a.block
  page := vs.getD 5 a.page

/-- Every field has at most four digits. -/
def Ppa.Small (a : Ppa) : Prop := ∀ v ∈ a.args, v.toNat ≤ 9999

instance (a : Ppa) : Decidable a.Small := List.decidableBAll (fun v : UInt32 => v.toNat ≤ 9999) a.args

/-- mirrors src/emu/be/be.c:132,158 -/
def LOG_FORMAT : Format :=
  format "\nch:%4u ce:%4u lun:%4u plane:%4u block:%4u page:%4u\n".toList

def header (a : Ppa) : List UInt8 := printf LOG_FORMAT a.args

/-- mirrors src/emu/be/be.c:120-137 -/
def writeLog (file : List UInt8) (a : Ppa) (payload : List UInt8) : List UInt8 :=
  file ++ header a ++ payload

/-- The `while` loop, at position `pos`.
mirrors src/emu/be/be.c:155-168 -/
def readLoop (file : List UInt8) (a : Ppa) (buf torn : List UInt8) : Nat → Nat → Ppa → Option (List UInt8)
  | 0, _, _ => none
  | fuel + 1, pos, locals =>
    match seekBack pos (PAGE_LEN + PPA_LOG_LEN) with
    | none => some buf
    | some pos =>
      let (vs, inp) := scanf LOG_FORMAT (file.drop pos)
      let locals := locals.assign vs
      if a = locals then some (fread PAGE_LEN inp buf torn)
      else readLoop file a buf torn fuel (file.length - inp.length) locals

/-- The buffer after the call.
mirrors src/emu/be/be.c:140-173 -/
def readLog (fuel : Nat) (file : List UInt8) (a : Ppa) (buf torn : List UInt8) (locals : Ppa) :
    Option (List UInt8) :=
  readLoop file a buf torn fuel file.length locals

/-! ## The header -/

/-- The labelled numbers of a header. -/
def Ppa.fields (a : Ppa) : List (List UInt8 × UInt32) :=
  [("\nch:".toList, a.ch), (" ce:".toList, a.ce), (" lun:".toList, a.lun), (" plane:".toList, a.plane),
    (" block:".toList, a.block), (" page:".toList, a.page)].map fun p => (p.1.map Char.toUInt8, p.2)

theorem logFormat_eq (a : Ppa) : LOG_FORMAT = fieldsFormat 4 a.fields ++ [.space 10] := by rfl

theorem label_fields (a : Ppa) : ∀ p ∈ a.fields, Label p.1 := by
  have hlab : ∀ (b : UInt8) (cs : List UInt8), isSpace b = true ∧ cs ≠ [] ∧
    (cs.all fun c => !isSpace c) = true →
      Label (b :: cs) := fun b cs h => ⟨b, cs, rfl, h.1, h.2.1, by simpa using h.2.2⟩
  intro p hp
  simp only [Ppa.fields, List.map_cons, List.map_nil, List.mem_cons, List.not_mem_nil, or_false] at hp
  rcases hp with rfl | rfl | rfl | rfl | rfl | rfl <;> exact hlab _ _ (by decide)

section
variable {a : Ppa} {rest : List UInt8}

theorem Ppa.Small.fields (h : a.Small) : ∀ p ∈ a.fields, p.2.toNat < 10 ^ 4 := by
  intro p hp
  have hm : p.2 ∈ a.args := by
    have : p.2 ∈ a.fields.map Prod.snd := List.mem_map_of_mem hp
    exact this
  have := h p.2 hm
  omega

theorem header_eq (a : Ppa) : header a = fieldsText 4 a.fields ++ [10] := by
  have := printf_fields (w := 4) a.fields [.space 10] []
  rw [List.append_nil] at this
  rw [header, logFormat_eq a]
  exact this

theorem length_header (h : a.Small) : (header a).length = PPA_LOG_LEN := by
  rw [header_eq, List.length_append, length_fieldsText (by decide) _ h.fields]
  rfl

/-- The header of a record is scanned back, with the white space behind it. -/
theorem scanf_header (h : a.Small) :
    scanf LOG_FORMAT (header a ++ rest) = (a.args, rest.drop (blanks rest)) := by
  have hskip : ((10 : UInt8) :: rest).drop (blanks (10 :: rest)) = rest.drop (blanks rest) := by
    have : isSpace 10 = true := by decide
    simp [blanks, this]
  rw [header_eq, logFormat_eq a, List.append_assoc,
    scanf_fields (by decide) _ (label_fields a) h.fields (by simp; decide), List.singleton_append,
    scanf_space, hskip]
  simp [scanf, Ppa.fields, Ppa.args]

theorem assign_args (b : Ppa) : b.assign a.args = a := rfl

end

/-! ## Records -/

def RECORD_LEN : Nat := PAGE_LEN + PPA_LOG_LEN

/-- A call of `BE_write_log` with a 16 KB page. -/
structure Write where
  ppa : Ppa
  payload : List UInt8
  length_payload : payload.length = PAGE_LEN

/-- The file after the calls `ws`, from an empty one. -/
def log (ws : List Write) : List UInt8 := ws.foldl (fun file w => writeLog file w.ppa w.payload) []

/-- What the most recent call for `a` wrote. -/
def lastWrite (ws : List Write) (a : Ppa) : Option (List UInt8) :=
  (ws.reverse.find? fun w => w.ppa = a).map Write.payload

def record (w : Write) : List UInt8 := header w.ppa ++ w.payload

theorem log_eq (ws : List Write) : log ws = ws.flatMap record := by
  have h : ∀ file, ws.foldl (fun file w => writeLog file w.ppa w.payload) file =
    file ++ ws.flatMap record := by
    induction ws with
    | nil => simp
    | cons w ws ih => intro file; rw [List.foldl_cons, ih, writeLog]; simp [record]
  exact h []

section
variable {ws us vs : List Write} {w : Write}

theorem length_record (h : w.ppa.Small) : (record w).length = RECORD_LEN := by
  rw [record, List.length_append, length_header h, w.length_payload]; rfl

theorem length_log (h : ∀ w ∈ ws, w.ppa.Small) : (log ws).length = ws.length * RECORD_LEN := by
  rw [log_eq]
  induction ws with
  | nil => rfl
  | cons w ws ih =>
    rw [List.flatMap_cons, List.length_append, length_record (h w (by simp)),
      ih fun v hv => h v (by simp [hv]),
      List.length_cons, Nat.succ_mul]
    omega

/-- The file from record `us.length` on. -/
theorem log_drop (h : ∀ w ∈ us, w.ppa.Small) :
    (log (us ++ w :: vs)).drop (us.length * RECORD_LEN) = header w.ppa ++ (w.payload ++ log vs) := by
  have hus := length_log h
  rw [log_eq] at hus ⊢
  rw [log_eq, List.flatMap_append, List.drop_append_of_le_length (by omega), ← hus, List.drop_length]
  simp [record]

/-- The file from inside the page of record `us.length` on. -/
theorem log_drop_page (h : ∀ v ∈ us ++ w :: vs, v.ppa.Small) {d : Nat} (hd : d ≤ PAGE_LEN) :
    (log (us ++ w :: vs)).drop (us.length * RECORD_LEN + PPA_LOG_LEN + d) = w.payload.drop d ++ log vs := by
  have hw := length_header (h w (by simp))
  have hp := w.length_payload
  rw [Nat.add_assoc, ← List.drop_drop, log_drop fun v hv => h v (by simp [hv]), ← hw, ← List.drop_drop,
    List.drop_left, List.drop_append_of_le_length (by omega)]

theorem split_at {k : Nat} (hk : ws[k]? = some w) : ∃ us vs, ws = us ++ w :: vs ∧ us.length = k := by
  obtain ⟨hlt, hw⟩ := List.getElem?_eq_some_iff.mp hk
  refine ⟨ws.take k, ws.drop (k + 1), ?_, ?_⟩
  · rw [← hw, ← List.drop_eq_getElem_cons hlt, List.take_append_drop]
  · rw [List.length_take]
    omega

/-- The file from record `k` on. -/
theorem log_drop_at (h : ∀ w ∈ ws, w.ppa.Small) {k : Nat} (hk : ws[k]? = some w) :
    ∃ vs, (log ws).drop (k * RECORD_LEN) = header w.ppa ++ (w.payload ++ log vs) := by
  obtain ⟨us, vs, rfl, rfl⟩ := split_at hk
  exact ⟨vs, log_drop fun v hv => h v (by simp [hv])⟩

end

/-- The locals of `BE_read_log` after a scan at position `pos`.
mirrors src/emu/be/be.c:157 -/
def scanAt (file : List UInt8) (pos : Nat) (locals : Ppa) : Ppa :=
  locals.assign (scanf LOG_FORMAT (file.drop pos)).1

/-- **Header codec.** A header has `PPA_LOG_LEN` bytes and is scanned back
whatever follows it; the file is its records one after the other, and a scan
at a record gives the address it was written to, so records that scan to the
same address were written to the same address. -/
theorem header_codec {ws : List Write} (hs : ∀ w ∈ ws, w.ppa.Small) :
    (∀ a : Ppa, a.Small → (header a).length = PPA_LOG_LEN ∧
        ∀ rest locals, scanAt (header a ++ rest) 0 locals = a) ∧
      log ws = ws.flatMap record ∧ (log ws).length = ws.length * (PPA_LOG_LEN + 16 * 1024) ∧
      (∀ k w, ws[k]? = some w →
        ((log ws).drop (k * (PPA_LOG_LEN + 16 * 1024))).take (PPA_LOG_LEN + 16 * 1024) = record w ∧
          ∀ locals, scanAt (log ws) (k * (PPA_LOG_LEN + 16 * 1024)) locals = w.ppa) ∧
      ∀ j k v w locals, ws[j]? = some v → ws[k]? = some w →
        scanAt (log ws) (j * (PPA_LOG_LEN + 16 * 1024)) locals =
          scanAt (log ws) (k * (PPA_LOG_LEN + 16 * 1024)) locals → v.ppa = w.ppa := by
  have hlen : PPA_LOG_LEN + 16 * 1024 = RECORD_LEN := rfl
  have hscan : ∀ k w, ws[k]? = some w → ∀ locals, scanAt (log ws) (k * RECORD_LEN) locals = w.ppa := by
    intro k w hk locals
    obtain ⟨vs, hd⟩ := log_drop_at hs hk
    rw [scanAt, hd, scanf_header (hs w (List.mem_of_getElem? hk)), assign_args]
  rw [hlen]
  refine ⟨fun a ha => ⟨length_header ha, fun rest locals => ?_⟩, log_eq ws, length_log hs,
    fun k w hk => ⟨?_, hscan k w hk⟩,
    fun j k v w locals hj hk he => ?_⟩
  · rw [scanAt, List.drop_zero, scanf_header ha, assign_args]
  · obtain ⟨vs, hd⟩ := log_drop_at hs hk
    rw [hd, ← List.append_assoc, ← length_record (hs w (List.mem_of_getElem? hk))]
    exact List.take_left
  · rw [hscan j v hj, hscan k w hk] at he
    exact he

/-- Two records, of different addresses and with pages of digits. -/
theorem header_codec_digits : ∃ ws : List Write, ws.length = 2 ∧
    scanAt (log ws) (1 * (PPA_LOG_LEN + 16 * 1024)) ⟨9, 9, 9, 9, 9, 9⟩ = ⟨3, 7, 0, 1, 1005, 9999⟩ := by
  let w (a : Ppa) : Write := ⟨a, List.replicate PAGE_LEN 55, List.length_replicate⟩
  have hs : ∀ v ∈ [w ⟨0, 0, 0, 0, 0, 20⟩, w ⟨3, 7, 0, 1, 1005, 9999⟩], v.ppa.Small := by
    intro v hv
    simp only [List.mem_cons, List.not_mem_nil, or_false] at hv
    rcases hv with rfl | rfl
    · decide
    · decide
  exact ⟨_, rfl, ((header_codec hs).2.2.2.1 1 _ rfl).2 _⟩

/-! ## Rounds of the loop -/

theorem readLoop_mono {file : List UInt8} {a : Ppa} {buf torn r : List UInt8} :
    ∀ (fuel pos : Nat) (locals : Ppa),
    readLoop file a buf torn fuel pos locals = some r →
      ∀ k, readLoop file a buf torn (fuel + k) pos locals = some r := by
  intro fuel
  induction fuel with
  | zero => intro pos locals h; cases h
  | succ fuel ih =>
    intro pos locals h k
    rw [readLoop] at h
    rw [Nat.add_right_comm, readLoop]
    cases hs : seekBack pos (PAGE_LEN + PPA_LOG_LEN) with
    | none => rw [hs] at h; exact h
    | some p =>
      simp only [hs] at h ⊢
      split
      · rename_i he
        rw [if_pos he] at h
        exact h
      · rename_i hne
        rw [if_neg hne] at h
        exact ih _ _ h k

/-- Two bounds that are enough give the same result. -/
theorem readLog_unique {file : List UInt8} {a locals : Ppa} {buf torn r r' : List UInt8} {fuel fuel' : Nat}
    (h : readLog fuel file a buf torn locals = some r) (h' : readLog fuel' file a buf torn locals = some r') :
    r = r' := by
  have h1 := readLoop_mono _ _ _ h fuel'
  have h2 := readLoop_mono _ _ _ h' fuel
  rw [Nat.add_comm fuel' fuel, h1] at h2
  exact Option.some.inj h2

section
variable {us : List Write} {w : Write} {a locals : Ppa} {buf torn : List UInt8}

/-- At the start of the file the seek fails and the buffer is left alone. -/
theorem readLoop_start {file : List UInt8} {pos : Nat} (h : pos < RECORD_LEN) (fuel : Nat) :
    readLoop file a buf torn (fuel + 1) pos locals = some buf := by
  rw [readLoop, seekBack, if_neg (by rw [RECORD_LEN] at h; omega)]

theorem seekBack_record (n d : Nat) :
    seekBack ((n + 1) * RECORD_LEN + d) (PAGE_LEN + PPA_LOG_LEN) = some (n * RECORD_LEN + d) := by
  have h : (n + 1) * RECORD_LEN = n * RECORD_LEN + (PAGE_LEN + PPA_LOG_LEN) := by
    rw [Nat.succ_mul, RECORD_LEN]
  rw [seekBack, if_pos (by omega), h, Nat.add_right_comm, Nat.add_sub_cancel]

/-- The round at the last record. -/
theorem readLoop_record (h : ∀ v ∈ us ++ [w], v.ppa.Small) (fuel : Nat) :
    readLoop (log (us ++ [w])) a buf torn (fuel + 1) ((us.length + 1) * RECORD_LEN) locals =
      if a = w.ppa then some (fread PAGE_LEN (w.payload.drop (blanks w.payload)) buf torn)
      else readLoop (log (us ++ [w])) a buf torn fuel
        (us.length * RECORD_LEN + PPA_LOG_LEN + blanks w.payload) w.ppa := by
  have hscan : scanf LOG_FORMAT ((log (us ++ [w])).drop (us.length * RECORD_LEN)) =
      (w.ppa.args, w.payload.drop (blanks w.payload)) := by
    rw [log_drop fun v hv => h v (by simp [hv]), show log [] = [] from rfl, List.append_nil,
      scanf_header (h w (by simp))]
  have hpos : (log (us ++ [w])).length - (w.payload.drop (blanks w.payload)).length =
      us.length * RECORD_LEN + PPA_LOG_LEN + blanks w.payload := by
    have hb := blanks_le w.payload
    rw [length_log h, List.length_append, List.length_singleton, Nat.succ_mul, List.length_drop,
      w.length_payload, RECORD_LEN]
    rw [w.length_payload] at hb
    omega
  have hseek := seekBack_record us.length 0
  simp only [Nat.add_zero] at hseek
  rw [readLoop, hseek]
  simp only [hscan, assign_args, hpos]

/-- A scan of `inp` for a header assigns nothing and stops inside it. -/
def NoHeader (inp : List UInt8) : Prop := (scanf LOG_FORMAT inp).1 = [] ∧ (scanf LOG_FORMAT inp).2 ≠ []

/-- A text whose first byte is neither blank nor a `c` holds no header. -/
theorem noHeader_of_head {c : UInt8} {inp : List UInt8} (hb : isSpace c = false) (hc : c ≠ 99) :
    NoHeader (c :: inp) ∧ (scanf LOG_FORMAT (c :: inp)).2 = c :: inp := by
  have hformat : LOG_FORMAT = .space 10 :: .lit 99 :: LOG_FORMAT.drop 2 := by rfl
  have hscan : scanf LOG_FORMAT (c :: inp) = ([], c :: inp) := by
    rw [hformat, scanf, List.dropWhile_cons_of_neg (by simp [hb]), scanf_lit_ne hc]
  rw [NoHeader, hscan]
  exact ⟨⟨rfl, by simp⟩, rfl⟩

/-- Where in a page a scan that starts at byte `d` stops. -/
def stop (payload : List UInt8) (d : Nat) : Nat := PAGE_LEN - (scanf LOG_FORMAT (payload.drop d)).2.length

theorem stop_lt {d : Nat} (hn : NoHeader (w.payload.drop d)) : stop w.payload d < PAGE_LEN := by
  have hpos := List.length_pos_iff.mpr hn.2
  have hpage : 0 < PAGE_LEN := by decide
  rw [stop]
  omega

/-- A round inside the page of an older record. -/
theorem readLoop_page {vs : List Write} (h : ∀ v ∈ us ++ w :: vs, v.ppa.Small) (hne : a ≠ locals) {d : Nat}
    (hd : d ≤ PAGE_LEN) (hn : NoHeader (w.payload.drop d)) (fuel : Nat) :
    readLoop (log (us ++ w :: vs)) a buf torn (fuel + 1) ((us.length + 1) * RECORD_LEN + (PPA_LOG_LEN + d)) locals =
      readLoop (log (us ++ w :: vs)) a buf torn fuel
        (us.length * RECORD_LEN + (PPA_LOG_LEN + stop w.payload d)) locals := by
  have hscan : scanf LOG_FORMAT ((log (us ++ w :: vs)).drop (us.length * RECORD_LEN + (PPA_LOG_LEN + d))) =
      ([], (scanf LOG_FORMAT (w.payload.drop d)).2 ++ log vs) := by
    rw [← Nat.add_assoc, log_drop_page h hd, scanf_append hn.2, hn.1]
  have hlen : (log (us ++ w :: vs)).length = us.length * RECORD_LEN + RECORD_LEN + (log vs).length := by
    rw [length_log h, length_log fun v hv => h v (by simp [hv]), List.length_append,
      List.length_cons, Nat.add_mul,
      Nat.succ_mul]
    omega
  have hpos : (log (us ++ w :: vs)).length - ((scanf LOG_FORMAT (w.payload.drop d)).2 ++ log vs).length =
      us.length * RECORD_LEN + (PPA_LOG_LEN + stop w.payload d) := by
    have hle := scanf_length_le LOG_FORMAT (w.payload.drop d)
    rw [List.length_drop, w.length_payload] at hle
    rw [hlen, List.length_append, RECORD_LEN, stop]
    omega
  rw [readLoop, seekBack_record]
  simp only [hscan, hpos]
  rw [show locals.assign [] = locals from rfl, if_neg hne]

end

end OpenSSDEmu.L1.FlashLog
