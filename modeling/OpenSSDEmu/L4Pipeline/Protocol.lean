import Mathlib.Algebra.GroupWithZero.Nat
import Mathlib.Data.List.Count
import OpenSSDEmu.L4Pipeline.Refine

/-!
# Ownership, stage order and submission order

The results about the pipeline, read off the simulation of
`L4Pipeline.Refine`. All of them hold in every reachable state of `sys`:
any number of submitters, any commands, any interleaving.

* `ownership`: an entry occurs in a task queue or a backend list only while
  its bit in `hcmd_map` is set, and then at most once; a read or write of one
  flash page occurs exactly once.
* `stage_protocol`: each command goes through its stages in the order of its
  course, each at most once, and all counters agree when it finishes.
* `raw_order`: a write is submitted and executed before a read exactly if an
  earlier call of `FTL_nvme_req_polling` accepted it. There is no check for
  overlapping commands anywhere in the FTL, so a read accepted by the same
  call as a write to the same pages overtakes it (`read_overtakes_write`).
-/
namespace OpenSSDEmu.L4.Pipeline
open L2.Hcl L2.Fcl L2.Shmem L2.TaskQueue
open Jobs hiding step Lbl
open OpenSSDEmu.Flow

/-- One flash page: 16 KB up to but not including 32 KB. -/
def onePage (c : HostCmd) : Prop := 16 * 1024 ≤ c.size.toNat ∧ c.size.toNat < 32 * 1024

theorem reqNum_eq_one {j : Job} : j.reqNum = 1 ↔ onePage j.cmd := by
  rw [← UInt32.toNat_inj, Job.reqNum, onePage, UInt32.toNat_div, UInt32.toNat_div]
  have h1 : HOST_BLOCK_SIZE.toNat = 4096 := by decide
  have h2 : (4 : UInt32).toNat = 4 := by decide
  have h3 : (1 : UInt32).toNat = 1 := by decide
  rw [h1, h2, h3]
  omega

/-! ## Ownership -/

def statuses : List Status := [.checkCache, .toSq, .dataMoved, .fromCq, .finish, .waitCq]

/-- How often entry `i` occurs over all positions of all task queues and all
requests: registered, in the backend's hands, completed. -/
def Sys.occurrences (s : Sys) (i : Nat) : Nat :=
  (statuses.map fun q => (contents (s.dev.tq q)).count (some i)).sum +
    ((outstanding s.dev s.be).map EmuSq.hcmd).count i

/-- The places somebody will still take a job from. -/
def workPlaces : List Place :=
  [.queue .checkCache, .queue .toSq, .queue .dataMoved, .queue .fromCq, .queue .finish,
    .queue .waitCq, .registered, .inHand, .executed, .completed]

def busy (n : Net) : List Job := tokens workPlaces n.jobs

section
variable {mb : BitVec 32} {s : Sys} {n : Net}

theorem live_perm_busy (n : Net) : n.live.Perm (busy n ++ n.jobs .stranded) := by
  rw [busy, Net.live, tokens, tokens, show places = workPlaces ++ [.stranded] from rfl, List.flatMap_append]
  simp

theorem Sim.occurrences (h : Sim s n) (i : Nat) :
    s.occurrences i = ((busy n).map Job.idx).count i := by
  have hq : ∀ q, (contents (s.dev.tq q)).count (some i) = ((n.jobs (.queue q)).map Job.idx).count i :=
    fun q => by
      rw [(h.dev.places.ring q).contents_eq]
      exact List.count_map_of_injective _ _ (fun _ _ h => Option.some.inj h) i
  have hp := h.dev.places
  simp only [Sys.occurrences, statuses, List.map_cons, List.map_nil, hq, List.sum_cons, List.sum_nil,
    outstanding, List.map_append, hp.reg, hp.hand, hp.done, hp.cpl]
  simp only [busy, workPlaces, tokens, List.flatMap_cons, List.flatMap_nil, List.map_append, List.count_append,
    List.map_nil, List.count_nil]
  omega

/-- **Command ownership.** -/
theorem ownership (hr : (sys mb).Reachable s) (i : Nat) :
    (bit s.dev.hcl i = false → s.occurrences i = 0) ∧
      (bit s.dev.hcl i = true → s.occurrences i ≤ 1 ∧
        ∃ j, s.owner i = some j ∧
          ((j.cmd.ops = SHM_READ_OPS ∨ j.cmd.ops = SHM_WRITE_OPS) → onePage j.cmd →
            s.occurrences i = 1)) := by
  obtain ⟨n, hI, h⟩ := reachable_sim hr
  have hp := live_perm_busy n
  have hn : ((busy n).map Job.idx).Nodup := by
    have := (hp.map Job.idx).nodup_iff.mp hI.live.nodup
    rw [List.map_append, List.nodup_append] at this
    exact this.1
  rw [h.occurrences]
  refine ⟨fun hb => ?_, fun hb => ⟨List.nodup_iff_count_le_one.mp hn i, ?_⟩⟩
  · refine List.count_eq_zero.mpr fun hi => ?_
    obtain ⟨j, hj, rfl⟩ := List.mem_map.mp hi
    have : j ∈ n.live := hp.mem_iff.mpr (List.mem_append_left _ hj)
    rw [(h.dev.entries.bit _).mpr (List.mem_map_of_mem this)] at hb
    cases hb
  · obtain ⟨j, hj, rfl⟩ := List.mem_map.mp ((h.dev.entries.bit i).mp hb)
    refine ⟨j, h.owner j hj, fun hop hone => List.count_eq_one_of_mem hn ?_⟩
    rcases List.mem_append.mp (hp.mem_iff.mp hj) with hj | hj
    · exact List.mem_map_of_mem hj
    · -- a stranded command is of neither kind or not of one page
      rcases (hI.tracked.here .stranded j hj).2.at with ⟨hw, hr, -⟩ | ⟨-, h1⟩
      · simp only [Job.isWrite, Job.isRead, beq_eq_false_iff_ne, ne_eq] at hw hr
        exact absurd hop (by simp [hw, hr])
      · exact absurd (reqNum_eq_one.mpr hone) h1

end

/-- A read and a write of one page and a read of 4 KB: the request of the
first read is in the backend's hands, the write is in a task queue. -/
theorem ownership_mixed : ∃ s, (sys 0).Reachable s ∧ (∃ sq, s.be = .hand sq) ∧
    s.occurrences 0 = 1 ∧ s.occurrences 1 = 1 ∧ bit s.dev.hcl 2 = true ∧ s.occurrences 2 ≤ 1 ∧
    bit s.dev.hcl 3 = false ∧ s.occurrences 3 = 0 := by
  obtain ⟨s, hr, hs⟩ := exists_run 0
    (P := fun s => !s.be.inHand.isEmpty && [0, 1, 2].all (bit s.dev.hcl) && !bit s.dev.hcl 3 &&
      decide ((s.owner 0).map Job.cmd = some ⟨SHM_READ_OPS, 20, 16384⟩) &&
      decide ((s.owner 1).map Job.cmd = some ⟨SHM_WRITE_OPS, 40, 16384⟩))
    (submit 0 ⟨SHM_READ_OPS, 20, 16384⟩ ++ submit 1 ⟨SHM_WRITE_OPS, 40, 16384⟩ ++
      submit 0 ⟨SHM_READ_OPS, 60, 4096⟩ ++ List.replicate 22 .ftl ++ [.be]) (by decide +kernel)
  simp only [Bool.and_eq_true, Bool.not_eq_true', List.all_cons, decide_eq_true_eq] at hs
  obtain ⟨⟨⟨⟨hbe, h0, h1, h2, -⟩, h3⟩, ho0⟩, ho1⟩ := hs
  obtain ⟨-, j, hj, hone⟩ := (ownership hr 0).2 h0
  obtain ⟨-, j', hj', hone'⟩ := (ownership hr 1).2 h1
  rw [hj, Option.map_some, Option.some.injEq] at ho0
  rw [hj', Option.map_some, Option.some.injEq] at ho1
  rw [ho0] at hone
  rw [ho1] at hone'
  refine ⟨s, hr, ?_, hone (.inl rfl) ⟨by decide, by decide⟩, hone' (.inr rfl) ⟨by decide, by decide⟩, h2,
    ((ownership hr 2).2 h2).1, h3, (ownership hr 3).1 h3⟩
  cases hb : s.be with
  | hand sq => exact ⟨sq, rfl⟩
  | idle => simp [hb, BePc.inHand] at hbe
  | done sq => simp [hb, BePc.inHand] at hbe

/-! ## Stages -/

/-- What happened to an acceptance, in order. -/
def Sys.events (s : Sys) (j : Job) : List Kind :=
  (s.log.filter fun e => e.job = some j).map Ev.kind

section
variable {mb : BitVec 32} {s : Sys} {n : Net}

theorem Sim.events (h : Sim s n) (j : Job) : s.events j = n.hist j := by
  have key : ∀ (l : List Ev) (m : List (Kind × Job)),
      l.map (fun e => (e.kind, e.job)) = m.map (fun e => (e.1, some e.2)) →
      (l.filter fun e => e.job = some j).map Ev.kind = (m.filter fun e => e.2 = j).map Prod.fst := by
    intro l
    induction l with
    | nil => intro m hm; simp_all
    | cons e l ih =>
      intro m hm
      cases m with
      | nil => simp at hm
      | cons x m =>
        simp only [List.map_cons, List.cons.injEq, Prod.mk.injEq] at hm
        obtain ⟨⟨hk, hj⟩, hm⟩ := hm
        by_cases hx : x.2 = j <;> simp [hj, hx, hk, ih m hm]
  exact key s.log n.log h.log

theorem course_nodup (j : Job) : j.course.Nodup := by
  unfold Job.course
  split
  · decide
  · split <;> decide

theorem Sim.mem_log (h : Sim s n) {e : Ev} (he : e ∈ s.log) :
    ∃ j, e.job = some j ∧ (e.kind, j) ∈ n.log := by
  have := List.mem_map_of_mem (f := fun e : Ev => (e.kind, e.job)) he
  rw [h.log] at this
  obtain ⟨x, hx, hxe⟩ := List.mem_map.mp this
  simp only [Prod.mk.injEq] at hxe
  exact ⟨x.2, hxe.2.symm, by rw [← hxe.1]; exact hx⟩

/-- **Stage protocol.** `Job.course` lists the stages of a write and of a
read; no stage is listed twice. -/
theorem stage_protocol (hr : (sys mb).Reachable s) :
    (∀ a ∈ s.accs, s.events a.toJob <+: a.toJob.course ∧ (s.events a.toJob).Nodup) ∧
      (∀ e ∈ s.log, ∃ a ∈ s.accs, e.job = some a.toJob) ∧
      ∀ e ∈ s.log, e.kind = .finish →
        e.entry.cplCnt = e.entry.reqNum ∧ e.entry.sendSqCnt = e.entry.reqNum ∧
          e.entry.nvmeDmaCpl = e.entry.reqNum := by
  obtain ⟨n, hI, h⟩ := reachable_sim hr
  refine ⟨fun a ha => ?_, fun e he => ?_, fun e he hk => ?_⟩
  · have ha' : a.toJob ∈ n.accepted := h.accs ▸ List.mem_map_of_mem ha
    have hpre : s.events a.toJob <+: a.toJob.course := by
      rw [h.events]
      rcases hI.tracked.gone a.toJob ha' with ⟨p, hp⟩ | hp
      · exact (hI.tracked.here p _ hp).2.initial
      · exact hp.initial
    exact ⟨hpre, (course_nodup a.toJob).sublist hpre.sublist⟩
  · obtain ⟨j, hj, hm⟩ := h.mem_log he
    have := hI.tracked.known _ hm
    rw [← h.accs] at this
    obtain ⟨a, ha, rfl⟩ := List.mem_map.mp this
    exact ⟨a, ha, hj⟩
  · have := h.fin e he hk
    exact ⟨this.cpl, this.send, this.dma⟩

end

/-- The schedule of one 16 KB write from submission to its end. -/
def writeSchedule : List Lbl :=
  submit 0 ⟨SHM_WRITE_OPS, 20, 16384⟩ ++ List.replicate 39 .ftl ++ [.be, .be, .be] ++ List.replicate 30 .ftl

/-- One write, start to finish. -/
theorem stage_protocol_write : ∃ s, (sys 0).Reachable s ∧
    (∀ a ∈ s.accs, s.events a.toJob <+: writeCourse) ∧
    s.log.map Ev.kind = writeCourse ∧ ∀ e ∈ s.log, e.kind = .finish → e.entry.cplCnt = e.entry.reqNum := by
  obtain ⟨s, hr, hs⟩ := exists_run 0
    (P := fun s => decide (s.log.map Ev.kind = writeCourse) && s.accs.all fun a => a.toJob.isWrite)
    writeSchedule (by decide +kernel)
  simp only [Bool.and_eq_true, decide_eq_true_eq, List.all_eq_true] at hs
  refine ⟨s, hr, fun a ha => ?_, hs.1, fun e he hk => ((stage_protocol hr).2.2 e he hk).1⟩
  have := ((stage_protocol hr).1 a ha).1
  rwa [Job.course, if_pos (hs.2 a ha)] at this

/-! ## Submission order -/

section
variable {mb : BitVec 32} {s : Sys} {n : Net}

/-- A position in the log is a position in the log of the network. -/
theorem Sim.log_split {pre post : List Ev} {e : Ev} {j : Job} (h : Sim s n)
    (hl : s.log = pre ++ e :: post) (hj : e.job = some j) :
    ∃ pre' post', n.log = pre' ++ (e.kind, j) :: post' ∧
      ∀ (k : Kind) (w : Job), (k, w) ∈ pre' ↔ ∃ x ∈ pre, x.kind = k ∧ x.job = some w := by
  have hlog := h.log
  rw [hl, List.map_append, List.map_cons] at hlog
  obtain ⟨pre', rest, hn, hpre, hrest⟩ := List.map_eq_append_iff.mp hlog.symm
  obtain ⟨x, post', rfl, hx, -⟩ := List.map_eq_cons_iff.mp hrest
  simp only [hj, Prod.mk.injEq, Option.some.injEq] at hx
  refine ⟨pre', post', by rw [hn, ← hx.1, ← hx.2], fun k w => ?_⟩
  have hmem : (k, some w) ∈ pre'.map (fun e => (e.1, some e.2)) ↔ (k, w) ∈ pre' := by simp
  rw [← hmem, hpre]
  simp

/-- **Submission and execution order of a write and a read.** -/
theorem raw_order {w r : Job} {pre post : List Ev} {e : Ev} (hr : (sys mb).Reachable s)
    (hw : w ∈ s.accs.map Acc.toJob) (hwo : w.cmd.ops = SHM_WRITE_OPS) (hro : r.cmd.ops = SHM_READ_OPS)
    (hl : s.log = pre ++ e :: post) (hj : e.job = some r) (hk : e.kind = .send ∨ e.kind = .exec) :
    (∃ x ∈ pre, x.kind = e.kind ∧ x.job = some w) ↔ w.poll < r.poll := by
  obtain ⟨n, hI, h⟩ := reachable_sim hr
  obtain ⟨pre', post', hn, hpre⟩ := h.log_split hl hj
  have hkw : w.isWrite = true := by simp [Job.isWrite, hwo]
  have hkr : r.isRead = true := by simp [Job.isRead, hro]
  rw [← hpre]
  rcases hk with hk | hk <;> rw [hk] at hn ⊢
  · exact hI.send_before hn (h.accs ▸ hw) hkw hkr
  · exact hI.exec_before hn (h.accs ▸ hw) hkw hkr

end

/-- A command on whole flash pages of 16 KB. -/
def aligned (a : Job) : Prop := a.cmd.lpn % 4 = 0 ∧ a.cmd.size % 16384 = 0

/-- The page ranges of two commands overlap. -/
def overlap (a b : Job) : Prop :=
  ∃ p : Nat, (a.cmd.lpn / 4).toNat ≤ p ∧ p < (a.cmd.lpn / 4).toNat + a.reqNum.toNat ∧
    (b.cmd.lpn / 4).toNat ≤ p ∧ p < (b.cmd.lpn / 4).toNat + b.reqNum.toNat

/-- A write and then a read of the same page, both accepted by call 0. -/
def earlierWrite : Job := ⟨0, 0, ⟨SHM_WRITE_OPS, 20, 16384⟩, 0⟩
def laterRead : Job := ⟨1, 1, ⟨SHM_READ_OPS, 20, 16384⟩, 0⟩

/-- Up to the first submission. -/
def overtakingSchedule : List Lbl :=
  submit 0 earlierWrite.cmd ++ submit 0 laterRead.cmd ++ List.replicate 19 .ftl

/-- **Counterexample**: the read is submitted while its write waits. -/
theorem read_overtakes_write : ¬ ∀ (s : Sys) (w r : Job) (pre post : List Ev) (e : Ev),
    (sys 0).Reachable s → w ∈ s.accs.map Acc.toJob → r ∈ s.accs.map Acc.toJob → w.ser < r.ser →
    w.cmd.ops = SHM_WRITE_OPS → r.cmd.ops = SHM_READ_OPS → aligned w → aligned r → overlap w r →
    s.log = pre ++ e :: post → e.kind = .send → e.job = some r →
    ∃ x ∈ pre, x.kind = .send ∧ x.job = some w := by
  intro hall
  obtain ⟨s, hr, hs⟩ := exists_run 0
    (P := fun s => decide (s.accs.map Acc.toJob = [earlierWrite, laterRead]) &&
      decide (s.log.map (fun e => (e.kind, e.job)) =
        [(.accept, some earlierWrite), (.accept, some laterRead), (.check, some earlierWrite),
          (.check, some laterRead)] ++ [(.send, some laterRead)]))
    overtakingSchedule (by decide +kernel)
  simp only [Bool.and_eq_true, decide_eq_true_eq] at hs
  obtain ⟨ha, hlog⟩ := hs
  obtain ⟨pre, rest, hl, hpre, hrest⟩ := List.map_eq_append_iff.mp hlog
  obtain ⟨e, post, rfl, he, -⟩ := List.map_eq_cons_iff.mp hrest
  simp only [Prod.mk.injEq] at he
  obtain ⟨x, hx, hk, -⟩ := hall s earlierWrite laterRead pre post e hr (by simp [ha]) (by simp [ha])
    (by decide) rfl rfl ⟨rfl, rfl⟩ ⟨rfl, rfl⟩ ⟨5, by decide⟩ hl he.1 he.2
  have hm := List.mem_map_of_mem (f := fun e : Ev => (e.kind, e.job)) hx
  rw [hpre, hk] at hm
  simp at hm

/-- The same read, accepted by call 1. -/
def nextRead : Job := ⟨1, 1, ⟨SHM_READ_OPS, 20, 16384⟩, 1⟩

def orderedSchedule : List Lbl :=
  submit 0 earlierWrite.cmd ++ List.replicate 25 .ftl ++ submit 0 nextRead.cmd ++ List.replicate 17 .ftl

/-- Accepted one call earlier, the write is submitted first. -/
theorem raw_order_next_call : ∃ (s : Sys) (pre post : List Ev) (e : Ev), (sys 0).Reachable s ∧
    s.log = pre ++ e :: post ∧ e.kind = .send ∧ e.job = some nextRead ∧ overlap earlierWrite nextRead ∧
    ∃ x ∈ pre, x.kind = e.kind ∧ x.job = some earlierWrite := by
  obtain ⟨s, hr, hs⟩ := exists_run 0
    (P := fun s => decide (s.accs.map Acc.toJob = [earlierWrite, nextRead]) &&
      decide ((s.log.map (fun e => (e.kind, e.job))).getLast? = some (.send, some nextRead)))
    orderedSchedule (by decide +kernel)
  simp only [Bool.and_eq_true, decide_eq_true_eq] at hs
  obtain ⟨ha, hlog⟩ := hs
  obtain ⟨l, hl⟩ := List.getLast?_eq_some_iff.mp hlog
  obtain ⟨pre, rest, hl, -, hrest⟩ := List.map_eq_append_iff.mp hl
  obtain ⟨e, post, rfl, he, -⟩ := List.map_eq_cons_iff.mp hrest
  simp only [Prod.mk.injEq] at he
  exact ⟨s, pre, post, e, hr, hl, he.1, he.2, ⟨5, by decide⟩,
    (raw_order hr (by simp [ha]) rfl rfl hl he.2 (.inl he.1)).mpr (by decide)⟩

end OpenSSDEmu.L4.Pipeline
