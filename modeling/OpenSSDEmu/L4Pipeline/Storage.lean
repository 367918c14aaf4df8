import OpenSSDEmu.Core.Bytes
import OpenSSDEmu.L4Pipeline.Drain
import OpenSSDEmu.L4Pipeline.Request
import OpenSSDEmu.L4Pipeline.Calls
import OpenSSDEmu.L4Pipeline.Lines

/-!
# What the emulated flash holds

The threads together with the page buffers and the file `flash_log`. All
requests go to one address and use one buffer, since neither address
translation nor the buffer manager is called from the handlers, so what the
flash stores is a `Cell`: the page last written and the buffer. The memory
the buffers lie in also holds the FTL's tables, which are part of the threads
here: outside the buffers any byte may change at any step.

* `requests_decode`: whose operation an outstanding request is.
* `storage_refines`: the file and the buffer are those of the cell after the
  executed operations.
* `only_zero_pages`: what that means for a run from no file.

A page whose first byte is white space is not read back as it was written;
`Cell.Ok` excludes it at the start, and then no such page comes up.
-/
namespace OpenSSDEmu.L4.Pipeline
open L2.Hcl L2.Fcl L2.Shmem L2.TaskQueue
open Jobs hiding step Lbl
open L1.FlashLog
open L3.Buffer (BUFFER_NUMBER)
open OpenSSDEmu.Bytes OpenSSDEmu.Stdio

/-! ## The outstanding requests -/

/-- A request as `FTL_handle_tosq` registers it for a job. -/
def RequestOf (mb : BitVec 32) (j : Job) (sq : EmuSq) : Prop :=
  ∃ f k, sq = ⟨fakePpa.ch.toNat, fakePpa.ce.toNat, k,
    (setSQEntry mb f j.idx k 0 (opOf j) fakePpa HCMD_SPACE).entry fakePpa.ch.toNat k⟩

/-- Each outstanding request is its owner's. -/
def Carried (mb : BitVec 32) (s : Sys) : Prop :=
  ∀ sq ∈ outstanding s.dev s.be, ∃ j, s.owner sq.hcmd = some j ∧ RequestOf mb j sq

section
variable {mb : BitVec 32} {s s' : Sys} {n : Net} {sq : EmuSq}

/-- The job of an outstanding request, which is a read or a write. -/
theorem Sim.requested (hI : Inv n) (h : Sim s n) (hsq : sq ∈ outstanding s.dev s.be) :
    ∃ j ∈ n.live, j.idx = sq.hcmd ∧ (j.isWrite = true ∨ j.isRead = true) := by
  have hp := h.dev.places
  have hfind : ∀ {l : List EmuSq} {p : Place}, sq ∈ l → l.map EmuSq.hcmd = (n.jobs p).map Job.idx →
      ∃ j ∈ n.jobs p, j.idx = sq.hcmd := fun hin e => by
    have hm := List.mem_map_of_mem (f := EmuSq.hcmd) hin
    rw [e] at hm
    exact List.mem_map.mp hm
  have hjob : ∃ p, (p = .registered ∨ p = .inHand ∨ p = .executed ∨ p = .completed) ∧
      ∃ j ∈ n.jobs p, j.idx = sq.hcmd := by
    simp only [outstanding, List.mem_append] at hsq
    rcases hsq with ((hsq | hsq) | hsq) | hsq
    · exact ⟨.registered, .inl rfl, hfind hsq hp.reg⟩
    · exact ⟨.inHand, .inr (.inl rfl), hfind hsq hp.hand⟩
    · exact ⟨.executed, .inr (.inr (.inl rfl)), hfind hsq hp.done⟩
    · exact ⟨.completed, .inr (.inr (.inr rfl)), hfind hsq hp.cpl⟩
  obtain ⟨p, hplace, j, hj, hidx⟩ := hjob
  refine ⟨j, mem_live.mpr ⟨p, hj⟩, hidx, ?_⟩
  have hat := (hI.tracked.here p j hj).2.at
  rcases hplace with rfl | rfl | rfl | rfl <;> exact Job.Done.known hat

/-- A step keeps the owners of the outstanding requests. -/
theorem owner_step {l : Lbl} (hr : (sys mb).Reachable s) (hs : step mb s l = some s')
    (hsq : sq ∈ outstanding s.dev s.be) : s'.owner sq.hcmd = s.owner sq.hcmd := by
  obtain ⟨n, hI, h⟩ := reachable_sim hr
  have hsame : s'.accs = s.accs → s'.owner sq.hcmd = s.owner sq.hcmd := fun e => by
    rw [Sys.owner, Sys.owner, e]
  cases l with
  | host k a => exact hsame (hostStep_frame hs).2.2.1
  | be => exact hsame (by cases beStep_cases hs <;> rfl)
  | ftl =>
    cases ftlStep_cases hs with
    | @accept i index k scmd hcl hp e =>
      obtain ⟨j, hj, hidx, -⟩ := h.requested hI hsq
      rw [owner_append _ sq.hcmd rfl, if_neg fun (e' : k = sq.hcmd) => (h.unused e).2 ?_]
      rw [e', ← hidx]
      exact List.mem_map_of_mem hj
    | _ => exact hsame rfl

theorem outstanding_be (hs : beStep s = some s') (hsq : sq ∈ outstanding s'.dev s'.be) :
    sq ∈ outstanding s.dev s.be := by
  cases beStep_cases hs with
  | take hb hp e | exec hb | post hb hp =>
    simp only [outstanding, hb, BePc.inHand, BePc.executed, List.mem_append, List.mem_singleton,
      List.not_mem_nil] at hsq ⊢
    grind

/-- A submission adds the request of its job. -/
theorem outstanding_send {cnt k i : Nat} {ring : L2.TaskQueue Nat} {d : Dev} (hI : Inv n) (h : Sim s n)
    (hp : s.ftl = .serve .toSq cnt k) (hlt : k < cnt) (e : removeHead (s.dev.tq .toSq) = (some i, ring))
    (hd : d = { s.dev with tq := fun t => if t = .toSq then ring else s.dev.tq t })
    (hsq : sq ∈ outstanding (func mb .toSq d i) s.be) :
    sq ∈ outstanding s.dev s.be ∨ ∃ j, s.owner sq.hcmd = some j ∧ RequestOf mb j sq := by
  obtain ⟨j, r, hq⟩ := h.serving hp hlt
  obtain ⟨h1, h2⟩ := h.dev.places.removeHead hq
  rw [e] at h1
  obtain rfl : i = j.idx := Option.some.inj h1
  have hj : j ∈ n.live := mem_live.mpr ⟨_, by rw [hq]; exact List.mem_cons_self⟩
  obtain ⟨t, g, hg⟩ := h.dev.sqs.free (Nat.lt_of_le_of_lt h2.outstanding_le (room hI.live hq))
  have heq := @handleTosq_eq mb d j.idx t g (by rw [hd]; exact hg)
  have hop : (d.entry j.idx).opCode = opOf j := by
    rw [hd]
    exact (h.dev.entries.ok j hj).op
  rw [hop] at heq
  rw [show func mb .toSq d j.idx = handleTosq mb d j.idx from rfl, heq, hd] at hsq
  by_cases hnew : sq = ⟨fakePpa.ch.toNat, fakePpa.ce.toNat, t,
      (setSQEntry mb g j.idx t 0 (opOf j) fakePpa HCMD_SPACE).entry fakePpa.ch.toNat t⟩
  · right
    refine ⟨j, ?_, g, t, hnew⟩
    have hcmd : sq.hcmd = j.idx := by
      rw [hnew, EmuSq.hcmd, setSQEntry_hcmdIndex, BitVec.toNat_ofNat]
      exact Nat.mod_eq_of_lt (hI.live.lt j hj)
    rw [hcmd]
    exact h.owner j hj
  · left
    simp only [outstanding, List.mem_append, List.mem_singleton] at hsq ⊢
    grind

theorem outstanding_step {l : Lbl} (hr : (sys mb).Reachable s) (hs : step mb s l = some s')
    (hsq : sq ∈ outstanding s'.dev s'.be) :
    sq ∈ outstanding s.dev s.be ∨ ∃ j, s'.owner sq.hcmd = some j ∧ RequestOf mb j sq := by
  obtain ⟨n, hI, h⟩ := reachable_sim hr
  cases l with
  | host k a =>
    obtain ⟨h1, h2, -⟩ := hostStep_frame hs
    rw [h1, h2] at hsq
    exact .inl hsq
  | be => exact .inl (outstanding_be hs hsq)
  | ftl =>
    cases ftlStep_cases hs with
    | @serve q cnt k i ring d d' hp hj e hd hd' =>
      by_cases hq : q = .toSq
      · subst hq hd'
        exact outstanding_send hI h hp hj e hd hsq
      · obtain ⟨-, h4, h5⟩ := func_frame mb hq d i
        subst hd hd'
        refine .inl ?_
        rw [outstanding, h4, h5] at hsq
        exact hsq
    | @round x rest hp e =>
      have hreg : (cqRound s.dev x rest).registerList = s.dev.registerList := by
        rw [cqRound_eq rfl]
        split <;> rfl
      rw [outstanding, hreg, cqRound_completeList] at hsq
      refine .inl ?_
      rw [outstanding, e]
      simp only [List.mem_append, List.mem_cons] at hsq ⊢
      grind
    | _ => exact .inl hsq

theorem carried_inv (mb : BitVec 32) : (sys mb).InductiveUnder (sys mb).Reachable (Carried mb) where
  init := by
    intro s hstart
    obtain ⟨m, -, rfl⟩ := hstart
    intro sq hsq
    simp [outstanding, Sys.init, Dev.init, BePc.inHand, BePc.executed] at hsq
  step := by
    intro s l s' hr h hs sq hsq
    rcases outstanding_step hr hs hsq with hold | hnew
    · obtain ⟨j, ho, hreq⟩ := h sq hold
      exact ⟨j, (owner_step hr hs hold).trans ho, hreq⟩
    · exact hnew

end

/-- The address all requests go to. -/
def flashAddr : Ppa := ⟨1, 0, 0, 0, 0, 20⟩

/-- The fields of an address as `be()` passes them on. -/
def logAddr (ppa : PhyPageAddr) : Ppa where
  ch := ppa.ch.toUInt32
  ce := ppa.ce.toUInt32
  lun := UInt32.ofNat (slcLun ppa.nandFlashAddr).toNat
  plane := UInt32.ofNat (slcPlane ppa.nandFlashAddr).toNat
  block := UInt32.ofNat (slcBlock ppa.nandFlashAddr).toNat
  page := UInt32.ofNat (slcPage ppa.nandFlashAddr).toNat

/-- The call of an entry as `FCL_set_SQ_entry` fills it, at any address. -/
theorem beCall_setSQEntry {p : BitVec 32} (hp : p.toNat + 1 * GB + 16 * KB < 4 * GB) (f : SqPool) (hcmd k : Nat)
    {buf : Nat} (hbuf : buf < BUFFER_NUMBER) {op : HcmdOpcode} (hop : op = .read ∨ op = .write)
    (ppa : PhyPageAddr) (cmdSp : BitVec 1) (junk : BitVec 64) :
    beCall junk ⟨ppa.ch.toNat, ppa.ce.toNat, k,
        (setSQEntry (memBaseOf p) f hcmd k buf op ppa cmdSp).entry ppa.ch.toNat k⟩ =
      askedFor op (logAddr ppa) (getBufferAddr (memBaseOf p) buf) := by
  have hne : op ≠ .erase := by rcases hop with rfl | rfl <;> decide
  have hset := setSQEntry_entry (memBaseOf p) f hcmd k buf hne ppa cmdSp
  have hadr : ((getBufferAddr (memBaseOf p) buf >>> 14).setWidth 18).setWidth 32 <<< 14 =
      getBufferAddr (memBaseOf p) buf := bufAdr_shift (getBufferAddr_aligned hp hbuf)
  rw [beCall_eq junk (a := ppa.nandFlashAddr) (by rw [hset]) (by rw [hset]) (by rw [hset]) (by rw [hset])
    (by rw [hset]) (by rw [hset]), hset]
  dsimp only
  rw [hadr, UInt16.ofNat_toNat, UInt16.ofNat_toNat]
  rcases hop with rfl | rfl <;> rfl

/-- The call a request of a read or a write makes the backend execute. -/
theorem RequestOf.call {p : BitVec 32} (hp : p.toNat + 1 * GB + 16 * KB < 4 * GB) {j : Job} {sq : EmuSq}
    (h : RequestOf (memBaseOf p) j sq) (hj : j.isWrite = true ∨ j.isRead = true) (junk : BitVec 64) :
    beCall junk sq = some (if j.isWrite then .write flashAddr (getBufferAddr (memBaseOf p) 0)
      else .read flashAddr (getBufferAddr (memBaseOf p) 0)) := by
  obtain ⟨f, k, rfl⟩ := h
  have haddr : logAddr fakePpa = flashAddr := by decide
  have hzero : 0 < BUFFER_NUMBER := by decide
  unfold opOf
  rcases hj with hw | hr
  · rw [if_pos hw, if_pos hw, beCall_setSQEntry hp f j.idx k hzero (.inr rfl), haddr]
    rfl
  · have hw : ¬ j.isWrite = true := fun hw => j.not_both ⟨hw, hr⟩
    rw [if_neg hw, if_neg hw, if_pos hr, beCall_setSQEntry hp f j.idx k hzero (.inl rfl), haddr]
    rfl

section
variable {p : BitVec 32} {s : Sys} {sq : EmuSq}

theorem owner_mem {i : Nat} {j : Job} (h : s.owner i = some j) : ∃ a ∈ s.accs, a.toJob = j := by
  obtain ⟨a, ha, e⟩ := Option.map_eq_some_iff.mp h
  exact ⟨a, List.mem_reverse.mp (List.mem_of_find?_eq_some ha), e⟩

/-- The call of an outstanding request, told from its owner. -/
theorem call_of_owner (hp : p.toNat + 1 * GB + 16 * KB < 4 * GB) (hr : (sys (memBaseOf p)).Reachable s)
    (hsq : sq ∈ outstanding s.dev s.be) :
    ∃ j, s.owner sq.hcmd = some j ∧ (j.isWrite = true ∨ j.isRead = true) ∧ ∀ junk, beCall junk sq =
      some (if j.isWrite then .write flashAddr (getBufferAddr (memBaseOf p) 0)
        else .read flashAddr (getBufferAddr (memBaseOf p) 0)) := by
  obtain ⟨n, hI, h⟩ := reachable_sim hr
  obtain ⟨j, ho, hreq⟩ := (carried_inv _).reachable (fun _ h => h) s hr sq hsq
  obtain ⟨i, hi, hidx, hk⟩ := h.requested hI hsq
  have hji : j = i := Option.some.inj (ho.symm.trans (hidx ▸ h.owner i hi))
  subst hji
  exact ⟨j, ho, hk, hreq.call hp hk⟩

/-- Every request that is sent and not yet polled, wherever it is, decodes to
the operation of the accepted command that owns its entry, on the one fixed
page, and with buffer 0. -/
theorem requests_decode (hp : p.toNat + 1 * GB + 16 * KB < 4 * GB)
    (hr : (sys (memBaseOf p)).Reachable s) (hsq : sq ∈ outstanding s.dev s.be) :
    ∃ a ∈ s.accs, s.owner sq.hcmd = some a.toJob ∧
      (a.cmd.ops = SHM_READ_OPS ∨ a.cmd.ops = SHM_WRITE_OPS) ∧
      ∀ junk, beCall junk sq =
        some (if a.cmd.ops = SHM_WRITE_OPS then .write flashAddr (getBufferAddr (memBaseOf p) 0)
          else .read flashAddr (getBufferAddr (memBaseOf p) 0)) := by
  obtain ⟨j, ho, hk, hcall⟩ := call_of_owner hp hr hsq
  obtain ⟨a, ha, rfl⟩ := owner_mem ho
  simp only [Job.isWrite, Job.isRead, beq_iff_eq] at hk hcall
  exact ⟨a, ha, ho, hk.symm, hcall⟩

end

/-- A write in the hands of the backend. -/
theorem requests_decode_write : ∃ (s : Sys) (sq : EmuSq), (sys (memBaseOf 4096)).Reachable s ∧
    s.be = .hand sq ∧ ∃ a ∈ s.accs, s.owner sq.hcmd = some a.toJob ∧
      a.cmd.ops = SHM_WRITE_OPS ∧
      beCall 0 sq = some (.write flashAddr (getBufferAddr (memBaseOf 4096) 0)) := by
  obtain ⟨s, hr, hs⟩ := exists_run (memBaseOf 4096)
    (P := fun s => s.be.inHand.length == 1 && s.accs.all fun a => a.cmd.ops == SHM_WRITE_OPS)
    (submit 0 ⟨SHM_WRITE_OPS, 20, 16384⟩ ++ List.replicate 39 .ftl ++ [.be]) (by decide +kernel)
  simp only [Bool.and_eq_true, beq_iff_eq, List.all_eq_true] at hs
  obtain ⟨h1, h2⟩ := hs
  cases hb : s.be with
  | hand sq =>
    have hsq : sq ∈ outstanding s.dev s.be := by simp [outstanding, hb, BePc.inHand]
    obtain ⟨a, ha, ho, -, hcall⟩ := requests_decode (by decide) hr hsq
    have hop := h2 a ha
    exact ⟨s, sq, hr, hb, a, ha, ho, hop, by rw [hcall 0, if_pos hop]⟩
  | idle | done =>
    rw [hb] at h1
    cases h1

/-! ## The emulator with its memory and its file -/

/-- The threads, the memory the page buffers lie in and the file `flash_log`. -/
structure Store where
  sys : Sys
  mem : Seg
  file : List UInt8

/-- Where buffer 0 is. -/
def bufferBase (memBase : BitVec 32) : Nat := (getBufferAddr memBase 0).toNat

/-- The bytes of the page buffers, `BUFFER_NUMBER` pages from buffer 0 on. -/
def InBuffers (memBase : BitVec 32) (a : Nat) : Prop :=
  bufferBase memBase ≤ a ∧ a < bufferBase memBase + BUFFER_NUMBER * PAGE_LEN

/-- The page buffers hold the same; the rest of the memory may differ. -/
def SameBuffers (memBase : BitVec 32) (m m' : Seg) : Prop := ∀ a, InBuffers memBase a → m' a = m a

/-- What a call does to the memory and the file. `torn`, `locals` and `fuel` are
as in `L1.FlashLog.readLog`.
mirrors src/emu/be/be.c:69-89,120-173 -/
def runCall (torn : List UInt8) (locals : Ppa) (fuel : Nat) :
    Option LogCall → Seg → List UInt8 → Option (Seg × List UInt8)
  | none, m, file => some (m, file)
  | some (.write ppa buf), m, file => some (m, writeLog file ppa (window m buf.toNat PAGE_LEN))
  | some (.read ppa buf), m, file =>
    (readLog fuel file ppa (window m buf.toNat PAGE_LEN) torn locals).map fun r => (blit m buf.toNat r, file)

/-- The backend executes the request in its hands. -/
def Store.Executes (memBase : BitVec 32) (x : Store) (sq : EmuSq) (x' : Store) : Prop :=
  ∃ junk torn locals fuel m, torn.length = PAGE_LEN ∧
    runCall torn locals fuel (beCall junk sq) x.mem x.file = some (m, x'.file) ∧ SameBuffers memBase m x'.mem

/-- A step of a thread. Only `BE_read_log` writes to the page buffers, and only
`BE_write_log` to the file. -/
def storeStep (memBase : BitVec 32) (x : Store) (l : Lbl) (x' : Store) : Prop :=
  step memBase x.sys l = some x'.sys ∧
    match l, x.sys.be with
    | .be, .hand sq => x.Executes memBase sq x'
    | _, _ => SameBuffers memBase x.mem x'.mem ∧ x'.file = x.file

/-- From page buffers that hold what `mem` does and the file an earlier run left. -/
def store (memBase : BitVec 32) (mem : Seg) (file : List UInt8) : LTS Store Lbl where
  init x := (sys memBase).init x.sys ∧ SameBuffers memBase mem x.mem ∧ x.file = file
  step := storeStep memBase

/-! ## One page of flash and one buffer -/

/-- The page last written, if any, and the buffer. -/
structure Cell where
  flash : Option (List UInt8)
  buf : List UInt8

/-- A write copies the buffer to the flash, a read the flash to the buffer. -/
def Cell.exec (c : Cell) (j : Job) : Cell :=
  if j.isWrite then { c with flash := some c.buf } else { c with buf := c.flash.getD c.buf }

/-- The pages written by the jobs `js`, in order. -/
def Cell.pages (c : Cell) : List Job → List (List UInt8)
  | [] => []
  | j :: js => (if j.isWrite then [c.buf] else []) ++ (c.exec j).pages js

/-- The record of a page. -/
def recordOf (page : List UInt8) : List UInt8 := header flashAddr ++ page

/-- A page that can be read back: 16 KB, and the first byte is not white space. -/
structure Page (bs : List UInt8) : Prop where
  length : bs.length = PAGE_LEN
  head : blanks bs = 0

/-- A page of zeros. -/
def zeroPage : List UInt8 := List.replicate PAGE_LEN 0

theorem page_replicate {b : UInt8} (hb : isSpace b = false) : Page (List.replicate PAGE_LEN b) := by
  refine ⟨List.length_replicate, ?_⟩
  rw [show PAGE_LEN = 16383 + 1 from rfl, List.replicate_succ, blanks,
    List.takeWhile_cons_of_neg (by simp [hb])]
  rfl

theorem window_zero (a n : Nat) : window (fun _ => 0) a n = List.replicate n 0 := by
  simp [window, List.map_const']

structure Cell.Ok (c : Cell) : Prop where
  buf : Page c.buf
  flash : ∀ bs ∈ c.flash, Page bs

section
variable {c : Cell} {j : Job} {js : List Job}

theorem Cell.Ok.exec (h : c.Ok) (j : Job) : (c.exec j).Ok := by
  unfold Cell.exec
  split
  · exact ⟨h.buf, fun bs hb => (Option.some.inj hb) ▸ h.buf⟩
  · refine ⟨?_, h.flash⟩
    cases hf : c.flash with
    | none => exact h.buf
    | some bs => exact h.flash bs hf

theorem Cell.Ok.run (h : c.Ok) (js : List Job) : (js.foldl Cell.exec c).Ok := by
  induction js generalizing c with
  | nil => exact h
  | cons j js ih => exact ih (h.exec j)

theorem Cell.pages_append (c : Cell) (js : List Job) (j : Job) :
    c.pages (js ++ [j]) = c.pages js ++ if j.isWrite then [(js.foldl Cell.exec c).buf] else [] := by
  induction js generalizing c with
  | nil => simp [Cell.pages]
  | cons i js ih => rw [List.cons_append, Cell.pages, ih, Cell.pages, List.foldl_cons, List.append_assoc]

end

/-! ### The file -/

/-- The file ends in the record of the page `flash`, or is empty. -/
def Ends (file : List UInt8) : Option (List UInt8) → Prop
  | none => file = []
  | some bs => ∃ us w, file = log (us ++ [w]) ∧ (∀ v ∈ us ++ [w], v.ppa.Small) ∧ w.ppa = flashAddr ∧
      w.payload = bs

section
variable {file buf torn bs : List UInt8} {flash : Option (List UInt8)} {locals : Ppa}

/-- A read ends in its first round and finds the page. -/
theorem Ends.read (h : Ends file flash) (hp : ∀ bs ∈ flash, Page bs) :
    readLog 1 file flashAddr buf torn locals = some (flash.getD buf) := by
  cases flash with
  | none =>
    rw [show file = [] from h]
    exact readLoop_start (by decide) 0
  | some bs =>
    obtain ⟨us, w, rfl, hs, ha, rfl⟩ := h
    have hpage := hp w.payload rfl
    rw [readLog, length_log hs, List.length_append, List.length_singleton, readLoop_record hs,
      if_pos ha.symm, hpage.head, List.drop_zero, fread, if_pos w.length_payload.ge, ← w.length_payload,
      List.take_length]
    rfl

theorem log_append (us : List Write) (w : Write) : log (us ++ [w]) = writeLog (log us) w.ppa w.payload := by
  rw [log, List.foldl_append]
  rfl

/-- A write adds the record of its page. -/
theorem Ends.write (h : Ends file flash) (hl : bs.length = PAGE_LEN) :
    Ends (writeLog file flashAddr bs) (some bs) := by
  have hsmall : flashAddr.Small := by decide
  cases flash with
  | none =>
    refine ⟨[], ⟨flashAddr, bs, hl⟩, ?_, fun v hv => ?_, rfl, rfl⟩
    · rw [log_append, show file = [] from h]
      rfl
    · rw [List.mem_singleton.mp hv]
      exact hsmall
  | some old =>
    obtain ⟨us, w, rfl, hs, -, -⟩ := h
    refine ⟨us ++ [w], ⟨flashAddr, bs, hl⟩, ?_, fun v hv => ?_, rfl, rfl⟩
    · rw [log_append (us ++ [w]), log_append us]
    · rcases List.mem_append.mp hv with hv | hv
      · exact hs v hv
      · rw [List.mem_singleton.mp hv]
        exact hsmall

end

/-! ### The steps -/

section
variable {mb : BitVec 32} {s s' : Sys}

theorem sequence_append (h : s'.log = s.log ++ es) (k : Kind) :
    s'.sequence k = s.sequence k ++ (es.filter fun e => e.kind = k).map Ev.job := by
  rw [Sys.sequence, Sys.sequence, h, List.filter_append, List.map_append]

theorem handlerEvents_exec (q : Status) (d d' : Dev) (i : Nat) :
    (handlerEvents s q d d' i).filter (fun e => e.kind = .exec) = [] := by
  rw [List.filter_eq_nil_iff]
  intro e he
  unfold handlerEvents at he
  split at he
  · obtain ⟨sq, -, rfl⟩ := List.mem_map.mp he
    simp [Sys.event]
  · rw [List.mem_singleton.mp he]
    cases q <;> simp [Sys.event, Place.kind]

/-- A request is executed by the backend, in one step, and by nobody else. -/
theorem exec_step {l : Lbl} (hs : step mb s l = some s') :
    (∃ sq, l = .be ∧ s.be = .hand sq ∧ s'.sequence .exec = s.sequence .exec ++ [s.owner sq.hcmd]) ∨
      ((∀ sq, ¬ (l = .be ∧ s.be = .hand sq)) ∧ s'.sequence .exec = s.sequence .exec) := by
  have hsame : s'.log = s.log → s'.sequence .exec = s.sequence .exec := fun e => by
    rw [Sys.sequence, Sys.sequence, e]
  cases l with
  | host k a => exact .inr ⟨fun _ h => Lbl.noConfusion h.1, hsame (hostStep_frame hs).2.2.2.1⟩
  | be =>
    cases beStep_cases hs with
    | take hb =>
      refine .inr ⟨fun _ h => BePc.noConfusion (hb.symm.trans h.2), ?_⟩
      rw [sequence_append rfl]
      simp [Sys.event]
    | @exec sq hb =>
      refine .inl ⟨sq, rfl, hb, ?_⟩
      rw [sequence_append rfl]
      simp [Sys.event]
    | post hb =>
      refine .inr ⟨fun _ h => BePc.noConfusion (hb.symm.trans h.2), ?_⟩
      rw [sequence_append rfl]
      simp [Sys.event]
  | ftl =>
    refine .inr ⟨fun _ h => Lbl.noConfusion h.1, ?_⟩
    cases ftlStep_cases hs with
    | accept =>
      rw [acceptInto, sequence_append rfl]
      simp
    | serve =>
      rw [sequence_append rfl, handlerEvents_exec]
      simp
    | round =>
      rw [sequence_append rfl]
      simp [Sys.event]
    | _ => exact hsame rfl

end

theorem SameBuffers.trans {mb : BitVec 32} {m m' m'' : Seg} (h : SameBuffers mb m m')
    (h' : SameBuffers mb m' m'') : SameBuffers mb m m'' :=
  fun a ha => (h' a ha).trans (h a ha)

/-- Buffer 0 is one of the page buffers. -/
theorem SameBuffers.window {mb : BitVec 32} {m m' : Seg} (h : SameBuffers mb m m') :
    window m' (bufferBase mb) PAGE_LEN = window m (bufferBase mb) PAGE_LEN := by
  refine window_congr fun a h1 h2 => h a ⟨h1, Nat.lt_of_lt_of_le h2 (Nat.add_le_add_left ?_ _)⟩
  exact Nat.le_mul_of_pos_left PAGE_LEN (by decide)

/-- More rounds than enough change nothing. -/
theorem runCall_succ {torn : List UInt8} {locals : Ppa} {fuel : Nat} {call : Option LogCall} {m : Seg}
    {file : List UInt8} {r : Seg × List UInt8} (h : runCall torn locals fuel call m file = some r) :
    runCall torn locals (fuel + 1) call m file = some r := by
  match call with
  | none => exact h
  | some (.write _ _) => exact h
  | some (.read ppa buf) =>
    obtain ⟨bs, hbs, rfl⟩ := Option.map_eq_some_iff.mp h
    have hbs := readLoop_mono _ _ _ hbs 1
    exact Option.map_eq_some_iff.mpr ⟨bs, hbs, rfl⟩

/-- The call of a job on a memory and a file that hold a cell. -/
theorem runCall_cell {mb : BitVec 32} {m : Seg} {file : List UInt8} {c : Cell} {j : Job} (hok : c.Ok)
    (he : Ends file c.flash) (hw : window m (bufferBase mb) PAGE_LEN = c.buf) {call : Option LogCall}
    (hcall : call = some (if j.isWrite then .write flashAddr (getBufferAddr mb 0)
      else .read flashAddr (getBufferAddr mb 0))) :
    ∃ m' file', (∀ torn locals fuel, runCall torn locals (fuel + 1) call m file = some (m', file')) ∧
      file' = file ++ (if j.isWrite then recordOf c.buf else []) ∧ Ends file' (c.exec j).flash ∧
      window m' (bufferBase mb) PAGE_LEN = (c.exec j).buf ∧
      ∀ a, a < bufferBase mb ∨ bufferBase mb + PAGE_LEN ≤ a → m' a = m a := by
  have hlen := (hok.exec j).buf.length
  unfold bufferBase at *
  subst hcall
  unfold Cell.exec at *
  split
  · refine ⟨m, writeLog file flashAddr c.buf, fun torn locals fuel => ?_, ?_, he.write hok.buf.length, hw,
      fun a _ => rfl⟩
    · simp only [runCall, hw]
    · rw [writeLog, recordOf, List.append_assoc]
  · rename_i hr
    rw [if_neg hr] at hlen
    refine ⟨blit m (getBufferAddr mb 0).toNat (c.flash.getD c.buf), file, fun torn locals fuel => ?_,
      (List.append_nil file).symm, he, window_blit hlen, fun a ha => blit_outside (by rw [hlen]; exact ha)⟩
    have hread : readLog 1 file flashAddr c.buf torn locals = some (c.flash.getD c.buf) := he.read hok.flash
    replace hread := readLoop_mono _ _ _ hread fuel
    simp only [runCall, hw]
    rw [readLog, Nat.add_comm fuel 1, hread]
    rfl

/-- After the requests of the jobs `js`, from the memory `mem₀`, the file
`file₀` and the cell `c₀` they hold. -/
structure Stored (p : BitVec 32) (mem₀ : Seg) (file₀ : List UInt8) (c₀ : Cell) (x : Store) (js : List Job) :
    Prop where
  reach : (sys (memBaseOf p)).Reachable x.sys
  seq : x.sys.sequence .exec = js.map some
  file : x.file = file₀ ++ (c₀.pages js).flatMap recordOf
  ends : Ends x.file (js.foldl Cell.exec c₀).flash
  buf : window x.mem (bufferBase (memBaseOf p)) PAGE_LEN = (js.foldl Cell.exec c₀).buf
  frame : ∀ a, InBuffers (memBaseOf p) a → bufferBase (memBaseOf p) + PAGE_LEN ≤ a → x.mem a = mem₀ a

section
variable {p : BitVec 32} {mem₀ : Seg} {file₀ : List UInt8} {c₀ : Cell} {x x' : Store} {js : List Job}

/-- The request in the backend's hands ends, with the same result whatever the
uninitialised bytes are. -/
theorem Stored.call (hp : p.toNat + 1 * GB + 16 * KB < 4 * GB) (hc : c₀.Ok)
    (h : Stored p mem₀ file₀ c₀ x js) {sq : EmuSq} (hb : x.sys.be = .hand sq) :
    ∃ j m file, x.sys.owner sq.hcmd = some j ∧
      (∀ junk torn locals fuel, runCall torn locals (fuel + 1) (beCall junk sq) x.mem x.file =
        some (m, file)) ∧
      file = x.file ++ (if j.isWrite then recordOf (js.foldl Cell.exec c₀).buf else []) ∧
      Ends file ((js.foldl Cell.exec c₀).exec j).flash ∧
      window m (bufferBase (memBaseOf p)) PAGE_LEN = ((js.foldl Cell.exec c₀).exec j).buf ∧
      ∀ a, a < bufferBase (memBaseOf p) ∨ bufferBase (memBaseOf p) + PAGE_LEN ≤ a → m a = x.mem a := by
  have hsq : sq ∈ outstanding x.sys.dev x.sys.be := by simp [outstanding, hb, BePc.inHand]
  obtain ⟨j, ho, -, hcall⟩ := call_of_owner hp h.reach hsq
  obtain ⟨m, file, h1, h2, h3, h4, h5⟩ := runCall_cell (hc.run js) h.ends h.buf (hcall 0)
  refine ⟨j, m, file, ho, fun junk torn locals fuel => ?_, h2, h3, h4, h5⟩
  rw [hcall junk, ← hcall 0]
  exact h1 torn locals fuel

theorem Stored.step (hp : p.toNat + 1 * GB + 16 * KB < 4 * GB) (hc : c₀.Ok)
    (h : Stored p mem₀ file₀ c₀ x js) {l : Lbl} (hs : storeStep (memBaseOf p) x l x') :
    ∃ js, Stored p mem₀ file₀ c₀ x' js := by
  obtain ⟨hsys, hrest⟩ := hs
  have hr := h.reach.next hsys
  rcases exec_step hsys with ⟨sq, rfl, hb, hseq⟩ | ⟨hno, hseq⟩
  · simp only [hb] at hrest
    obtain ⟨junk, torn, locals, fuel, m', -, hrun, hsame⟩ := hrest
    obtain ⟨j, m, file, ho, hcall, hfile, hends, hbuf, hframe⟩ := h.call hp hc hb
    have heq := (hcall junk torn locals fuel).symm.trans (runCall_succ hrun)
    obtain ⟨rfl, rfl⟩ := Prod.mk.inj (Option.some.inj heq)
    refine ⟨js ++ [j], hr, ?_, ?_, ?_, ?_, fun a ha hpast => ?_⟩
    · rw [hseq, ho, h.seq, List.map_append]
      rfl
    · rw [hfile, h.file, Cell.pages_append, List.flatMap_append, List.append_assoc]
      split <;> simp
    · rw [List.foldl_append]
      exact hends
    · rw [List.foldl_append, hsame.window]
      exact hbuf
    · rw [hsame a ha, hframe a (.inr hpast), h.frame a ha hpast]
  · obtain ⟨hmem, hfile⟩ : SameBuffers (memBaseOf p) x.mem x'.mem ∧ x'.file = x.file := by
      split at hrest
      · rename_i sq hb
        exact absurd ⟨rfl, hb⟩ (hno sq)
      · exact hrest
    refine ⟨js, hr, hseq.trans h.seq, hfile.trans h.file, ?_, hmem.window.trans h.buf,
      fun a ha hpast => (hmem a ha).trans (h.frame a ha hpast)⟩
    rw [hfile]
    exact h.ends

theorem stored_inv (hp : p.toNat + 1 * GB + 16 * KB < 4 * GB) (hc : c₀.Ok) (he : Ends file₀ c₀.flash)
    (hw : window mem₀ (bufferBase (memBaseOf p)) PAGE_LEN = c₀.buf) :
    (store (memBaseOf p) mem₀ file₀).Inductive fun x => ∃ js, Stored p mem₀ file₀ c₀ x js where
  init := by
    intro x hx
    obtain ⟨hsys, hm, hf⟩ := hx
    refine ⟨[], .start hsys, ?_, ?_, ?_, hm.window.trans hw, fun a ha _ => hm a ha⟩
    · obtain ⟨m, -, e⟩ := hsys
      rw [e]
      rfl
    · simp [hf, Cell.pages]
    · rw [hf]
      exact he
  step := by
    intro x l x' h hs
    obtain ⟨js, h⟩ := h
    exact h.step hp hc hs

/-- Every run of the threads is a run with the memory and the file. -/
theorem exists_store (hp : p.toNat + 1 * GB + 16 * KB < 4 * GB) (hc : c₀.Ok) (he : Ends file₀ c₀.flash)
    (hw : window mem₀ (bufferBase (memBaseOf p)) PAGE_LEN = c₀.buf) {s : Sys} (hr : (sys (memBaseOf p)).Reachable s) :
    ∃ x, (store (memBaseOf p) mem₀ file₀).Reachable x ∧ x.sys = s := by
  induction hr with
  | @start s h => exact ⟨⟨s, mem₀, file₀⟩, .start ⟨h, fun _ _ => rfl, rfl⟩, rfl⟩
  | @next s s' l _ hs ih =>
    obtain ⟨x, hx, rfl⟩ := ih
    obtain ⟨js, h⟩ := (stored_inv hp hc he hw).reachable x hx
    rcases exec_step hs with ⟨sq, rfl, hb, -⟩ | ⟨hno, -⟩
    · obtain ⟨j, m, file, -, hcall, -⟩ := h.call hp hc hb
      refine ⟨⟨s', m, file⟩, hx.next (l := .be) ⟨hs, ?_⟩, rfl⟩
      simp only [hb]
      exact ⟨0, List.replicate PAGE_LEN 0, flashAddr, 1, m, List.length_replicate, hcall _ _ _ 0, fun _ _ => rfl⟩
    · refine ⟨⟨s', x.mem, x.file⟩, hx.next (l := l) ⟨hs, ?_⟩, rfl⟩
      split
      · rename_i sq hb
        exact absurd ⟨rfl, hb⟩ (hno sq)
      · exact ⟨fun _ _ => rfl, rfl⟩

/-- The emulated flash is one page. In every run, from any file that is empty
or ends in a record of the fixed address, with a page and a buffer that do not
begin with white space, the file is what it was followed by one record for
each executed write, in the order of execution, with the page the buffer held
then; a read brings back the page last written; of the page buffers only buffer
0 changes; and every call ends, with a result that does not depend on
uninitialised memory. -/
theorem storage_refines (hp : p.toNat + 1 * GB + 16 * KB < 4 * GB) (hc : c₀.Ok)
    (he : Ends file₀ c₀.flash) (hw : window mem₀ (bufferBase (memBaseOf p)) PAGE_LEN = c₀.buf)
    (hr : (store (memBaseOf p) mem₀ file₀).Reachable x) :
    ∃ js : List Job, x.sys.sequence .exec = js.map some ∧
      x.file = file₀ ++ (c₀.pages js).flatMap recordOf ∧
      window x.mem (bufferBase (memBaseOf p)) PAGE_LEN = (js.foldl Cell.exec c₀).buf ∧
      (∀ a, InBuffers (memBaseOf p) a → bufferBase (memBaseOf p) + PAGE_LEN ≤ a → x.mem a = mem₀ a) ∧
      ∀ sq, x.sys.be = .hand sq → ∃ m file, ∀ junk torn locals fuel,
        runCall torn locals (fuel + 1) (beCall junk sq) x.mem x.file = some (m, file) := by
  obtain ⟨js, h⟩ := (stored_inv hp hc he hw).reachable x hr
  refine ⟨js, h.seq, h.file, h.buf, h.frame, fun sq hb => ?_⟩
  obtain ⟨j, m, file, -, hcall, -⟩ := h.call hp hc hb
  exact ⟨m, file, hcall⟩

end

/-- One read, executed. -/
theorem exists_readback : ∃ s, (sys (memBaseOf 4096)).Reachable s ∧ ∃ j : Job,
    s.sequence .exec = [some j] ∧ j.isWrite = false := by
  obtain ⟨s, hr, hs⟩ := exists_run (memBaseOf 4096)
    (P := fun s => s.sequence .exec == [some ⟨0, 0, ⟨SHM_READ_OPS, 20, 16384⟩, 0⟩])
    (submit 0 ⟨SHM_READ_OPS, 20, 16384⟩ ++ List.replicate 39 .ftl ++ [.be, .be]) (by decide +kernel)
  exact ⟨s, hr, _, by simpa using hs, rfl⟩

/-- A read brings back the page of an earlier run. -/
theorem storage_refines_read : ∃ (page : List UInt8) (x : Store),
    (store (memBaseOf 4096) (fun _ => 0) (recordOf page)).Reachable x ∧ page ≠ zeroPage ∧
      window x.mem (bufferBase (memBaseOf 4096)) PAGE_LEN = page ∧ x.file = recordOf page := by
  have hpage : Page (List.replicate PAGE_LEN 65) := page_replicate (by decide)
  let c : Cell := ⟨some (List.replicate PAGE_LEN 65), zeroPage⟩
  have hc : c.Ok := ⟨page_replicate (by decide), fun bs hb => (Option.some.inj hb) ▸ hpage⟩
  have hempty : Ends [] none := rfl
  have he : Ends (recordOf (List.replicate PAGE_LEN 65)) c.flash := hempty.write hpage.length
  have hw : window (fun _ => 0) (bufferBase (memBaseOf 4096)) PAGE_LEN = c.buf := window_zero _ _
  obtain ⟨s, hr, j, hseq, hj⟩ := exists_readback
  obtain ⟨x, hx, rfl⟩ := exists_store (by decide) hc he hw hr
  obtain ⟨js, hseq', hfile, hbuf, -⟩ := storage_refines (by decide) hc he hw hx
  have hjs : js = [j] := by
    have h := hseq'.symm.trans hseq
    cases js with
    | nil => cases h
    | cons i js => simpa using h
  rw [hjs] at hfile hbuf
  refine ⟨_, x, hx, fun h => ?_, hbuf.trans ?_, hfile.trans ?_⟩
  · exact absurd ((List.replicate_right_inj (by decide)).mp h) (by decide)
  · simp [Cell.exec, hj, c]
  · simp [Cell.pages, hj]

/-- The cell of a cleared buffer and no file. -/
def zeroCell : Cell := ⟨none, zeroPage⟩

theorem zeroCell_ok : zeroCell.Ok := ⟨page_replicate (by decide), fun _ h => (nomatch h)⟩

/-- Nothing but zeros is in the cell. -/
structure Cell.Zero (c : Cell) : Prop where
  buf : c.buf = zeroPage
  flash : ∀ bs ∈ c.flash, bs = zeroPage

theorem zeroCell_zero : zeroCell.Zero := ⟨rfl, fun _ h => (nomatch h)⟩

section
variable {c : Cell} {js : List Job}

theorem Cell.Zero.exec (h : c.Zero) (j : Job) : (c.exec j).Zero := by
  unfold Cell.exec
  split
  · exact ⟨h.buf, fun bs hb => (Option.some.inj hb).symm.trans h.buf⟩
  · refine ⟨?_, h.flash⟩
    cases hf : c.flash with
    | none => exact h.buf
    | some bs => exact h.flash bs hf

theorem Cell.Zero.run (h : c.Zero) : (js.foldl Cell.exec c).Zero := by
  induction js generalizing c with
  | nil => exact h
  | cons j js ih => exact ih (h.exec j)

theorem Cell.Zero.pages (h : c.Zero) :
    c.pages js = List.replicate (js.countP Job.isWrite) zeroPage := by
  induction js generalizing c with
  | nil => rfl
  | cons j js ih =>
    rw [Cell.pages, ih (h.exec j), List.countP_cons, h.buf]
    split
    · rw [List.replicate_succ]
      rfl
    · rfl

end

section
variable {p : BitVec 32} {mem₀ : Seg} {x : Store}

/-- What the host writes never gets to the flash, as the data move does not
move any: from no file and a cleared buffer the file is a record of zeros for
each executed write, in every run and of whatever commands, and the page
buffers are never changed. -/
theorem only_zero_pages (hp : p.toNat + 1 * GB + 16 * KB < 4 * GB)
    (hw : window mem₀ (bufferBase (memBaseOf p)) PAGE_LEN = zeroPage)
    (hr : (store (memBaseOf p) mem₀ []).Reachable x) :
    SameBuffers (memBaseOf p) mem₀ x.mem ∧ ∃ js : List Job, x.sys.sequence .exec = js.map some ∧
      x.file = (List.replicate (js.countP Job.isWrite) (recordOf zeroPage)).flatten := by
  obtain ⟨js, h⟩ := (stored_inv hp zeroCell_ok rfl hw).reachable x hr
  have hzero : (js.foldl Cell.exec zeroCell).Zero := zeroCell_zero.run
  refine ⟨fun a ha => ?_, js, h.seq, ?_⟩
  · by_cases hpast : bufferBase (memBaseOf p) + PAGE_LEN ≤ a
    · exact h.frame a ha hpast
    · obtain ⟨k, rfl⟩ := Nat.exists_eq_add_of_le ha.1
      have hk : k < PAGE_LEN := by omega
      have hsame : window x.mem (bufferBase (memBaseOf p)) PAGE_LEN = window mem₀ (bufferBase (memBaseOf p)) PAGE_LEN := by
        rw [h.buf, hzero.buf, hw]
      have := congrArg (fun l => l[k]?) hsame
      simp only [getElem?_window hk] at this
      exact Option.some.inj this
  · rw [h.file, List.nil_append, zeroCell_zero.pages, List.flatMap_def, List.map_replicate]

end

/-- One write, executed. -/
theorem exists_written : ∃ s, (sys (memBaseOf 4096)).Reachable s ∧ ∃ j : Job,
    s.sequence .exec = [some j] ∧ j.isWrite = true := by
  obtain ⟨s, hr, hs⟩ := exists_run (memBaseOf 4096)
    (P := fun s => s.sequence .exec == [some ⟨0, 0, ⟨SHM_WRITE_OPS, 20, 16384⟩, 0⟩])
    writeSchedule (by decide +kernel)
  exact ⟨s, hr, _, by simpa using hs, rfl⟩

/-- One record of zeros. -/
theorem only_zero_pages_write : ∃ x, (store (memBaseOf 4096) (fun _ => 0) []).Reachable x ∧
    SameBuffers (memBaseOf 4096) (fun _ => 0) x.mem ∧ x.file = recordOf zeroPage := by
  obtain ⟨s, hr, j, hseq, hj⟩ := exists_written
  have hw : window (fun _ => 0) (bufferBase (memBaseOf 4096)) PAGE_LEN = zeroCell.buf := window_zero _ _
  obtain ⟨x, hx, rfl⟩ := exists_store (by decide) zeroCell_ok rfl hw hr
  obtain ⟨hm, js, hseq', hfile⟩ := only_zero_pages (by decide) hw hx
  have hjs : js = [j] := by
    have he := hseq'.symm.trans hseq
    cases js with
    | nil => cases he
    | cons i js => simpa using he
  refine ⟨x, hx, hm, hfile.trans ?_⟩
  rw [hjs]
  simp [hj]

end OpenSSDEmu.L4.Pipeline
