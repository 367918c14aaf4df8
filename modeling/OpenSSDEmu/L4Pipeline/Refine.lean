import Mathlib.Data.List.Perm.Subperm
import OpenSSDEmu.L4Pipeline.Order
import OpenSSDEmu.L4Pipeline.System

/-!
# The emulator refines the job network

`Sim s n` relates a state of the emulator to a state of `Jobs.net`. Its three
parts are about disjoint pieces of the device and are kept separately by
every handler:

* `Places`: the rings and the two backend lists hold the indices of the jobs
  at the matching places, in the same order;
* `Entries`: the bits of `hcmd_map` are the indices of the live jobs, the
  counters of a taken entry count the events of its job, and a free entry is
  all zero;
* `Sqs`: the submission queue entries in use are those of the outstanding
  requests.

`sim` is the simulation. It is where the two "cannot happen" branches of the
handlers are discharged: a task queue is never full and a submission queue
entry is always free, because no index is held by two jobs and there are as
many ring positions and queue entries as indices.
-/
namespace OpenSSDEmu.L4.Pipeline
open L2.Hcl L2.Fcl L2.Shmem L2.TaskQueue
open Jobs hiding step Lbl
open OpenSSDEmu.Flow

def BePc.inHand : BePc → List EmuSq
  | .hand sq => [sq]
  | _ => []

def BePc.executed : BePc → List EmuSq
  | .done sq => [sq]
  | _ => []

/-! ## Places -/

structure Places (d : Dev) (b : BePc) (f : Place → List Job) : Prop where
  ring : ∀ q, Rep (d.tq q) ((f (.queue q)).map Job.idx)
  reg : d.registerList.map EmuSq.hcmd = (f .registered).map Job.idx
  hand : b.inHand.map EmuSq.hcmd = (f .inHand).map Job.idx
  done : b.executed.map EmuSq.hcmd = (f .executed).map Job.idx
  cpl : d.completeList.map EmuSq.hcmd = (f .completed).map Job.idx

section
variable {d : Dev} {b : BePc} {f : Place → List Job} {q : Status} {j : Job} {r : List Job}

@[simp] theorem sendhcmd_hcl (d : Dev) (i : Nat) (q : Status) : (sendhcmd d i q).2.hcl = d.hcl := rfl
theorem sendhcmd_tq (d : Dev) (i : Nat) (q t : Status) :
    (sendhcmd d i q).2.tq t = if t = q then (addTail (d.tq q) i).2 else d.tq t := rfl

theorem Places.congr {d' : Dev} (h : Places d b f) (h1 : d'.tq = d.tq)
    (h2 : d'.registerList = d.registerList) (h3 : d'.completeList = d.completeList) :
    Places d' b f :=
  ⟨h1 ▸ h.ring, h2 ▸ h.reg, h.hand, h.done, h3 ▸ h.cpl⟩

theorem Places.send (h : Places d b f) (hl : (f (.queue q)).length < TASK_QUEUE_MAX) :
    Places (sendhcmd d j.idx q).2 b (push f (.queue q) j) := by
  refine ⟨fun t => ?_, h.reg.trans ?_, h.hand.trans ?_, h.done.trans ?_, h.cpl.trans ?_⟩
  · rw [sendhcmd_tq]
    split
    · rename_i e
      subst e
      simpa using (addTail_spec (h.ring t) j.idx (by simpa using hl)).2
    · rename_i e
      rw [push_of_ne (by simpa using e)]
      exact h.ring t
  all_goals rw [push_of_ne (by simp)]

/-- Taking the first command off a task queue. -/
theorem Places.removeHead (h : Places d b f) (hq : f (.queue q) = j :: r) :
    (L2.TaskQueue.removeHead (d.tq q)).1 = some j.idx ∧
      Places { d with tq := fun t => if t = q then (L2.TaskQueue.removeHead (d.tq q)).2 else d.tq t } b
        (pop f (.queue q)) := by
  have hring := h.ring q
  rw [hq, List.map_cons] at hring
  obtain ⟨h1, h2⟩ := removeHead_cons hring
  refine ⟨h1, fun t => ?_, h.reg.trans ?_, h.hand.trans ?_, h.done.trans ?_, h.cpl.trans ?_⟩
  · by_cases e : t = q
    · subst e
      simpa [hq] using h2
    · rw [pop_of_ne (by simpa using e)]
      simpa [e] using h.ring t
  all_goals rw [pop_of_ne (by simp)]

theorem Places.register {sq : EmuSq} (h : Places d b f) (hs : sq.hcmd = j.idx) :
    Places { d with registerList := d.registerList ++ [sq] } b (push f .registered j) := by
  refine ⟨fun t => ?_, ?_, h.hand.trans ?_, h.done.trans ?_, h.cpl.trans ?_⟩
  · rw [push_of_ne (by simp)]; exact h.ring t
  · simp [h.reg, hs]
  all_goals rw [push_of_ne (by simp)]

theorem Places.strand (h : Places d b f) : Places d b (push f .stranded j) := by
  refine ⟨fun t => ?_, h.reg.trans ?_, h.hand.trans ?_, h.done.trans ?_, h.cpl.trans ?_⟩
  · rw [push_of_ne (by simp)]; exact h.ring t
  all_goals rw [push_of_ne (by simp)]

theorem Places.uncomplete {sq : EmuSq} {rest : List EmuSq} (h : Places d b f)
    (hc : d.completeList = sq :: rest) (hf : f .completed = j :: r) :
    sq.hcmd = j.idx ∧ Places { d with completeList := rest } b (pop f .completed) := by
  have hcpl := h.cpl
  rw [hc, hf, List.map_cons, List.map_cons, List.cons.injEq] at hcpl
  refine ⟨hcpl.1, fun t => ?_, h.reg.trans ?_, h.hand.trans ?_, h.done.trans ?_, ?_⟩
  · rw [pop_of_ne (by simp)]; exact h.ring t
  · rw [pop_of_ne (by simp)]
  · rw [pop_of_ne (by simp)]
  · rw [pop_of_ne (by simp)]
  · simpa [hf] using hcpl.2

end

/-! ## Entries -/

def opOf (j : Job) : HcmdOpcode := if j.isWrite then .write else if j.isRead then .read else .unset

/-- An entry whose job went through the events `h`. -/
structure EntryOk (e : HostCmdEntry) (j : Job) (h : List Kind) : Prop where
  op : e.opCode = opOf j
  req : e.reqNum = j.reqNum
  cpl : e.cplCnt.toNat = h.count .cq
  send : e.sendSqCnt.toNat = h.count .send
  dma : e.nvmeDmaCpl.toNat = h.count .dataMove

structure Entries (p : HcmdPool) (live : List Job) (hist : Job → List Kind) : Prop where
  bit : ∀ i, L2.Hcl.bit p i = true ↔ i ∈ live.map Job.idx
  ok : ∀ j ∈ live, EntryOk (p.queue j.idx) j (hist j)
  zero : ∀ i, L2.Hcl.bit p i = false → p.queue i = .zero

section
variable {p : HcmdPool} {live live' : List Job} {hist hist' : Job → List Kind} {j : Job} {e : HostCmdEntry}

theorem Entries.perm (h : Entries p live hist) (hp : live'.Perm live) : Entries p live' hist :=
  ⟨fun i => (h.bit i).trans (hp.map Job.idx).mem_iff.symm, fun j hj => h.ok j (hp.mem_iff.mp hj), h.zero⟩

/-- One more event of a live job, with its entry updated to match. -/
theorem Entries.update (h : Entries p live hist) (hn : (live.map Job.idx).Nodup) (hj : j ∈ live)
    (he : EntryOk e j (hist' j)) (hh : ∀ i, i ≠ j → hist' i = hist i) :
    Entries (L2.Hcl.setEntry p j.idx e) live hist' := by
  refine ⟨h.bit, fun i hi => ?_, fun i hi => ?_⟩
  · by_cases hij : i = j
    · subst hij; simpa using he
    · have hne : i.idx ≠ j.idx := fun e => hij (List.inj_on_of_nodup_map hn hi hj e)
      rw [setEntry_queue, if_neg hne, hh i hij]
      exact h.ok i hi
  · have hne : i ≠ j.idx := by
      intro heq
      subst heq
      have hb := (h.bit j.idx).mpr (List.mem_map_of_mem hj)
      rw [setEntry_bit] at hi
      rw [hi] at hb; cases hb
    rw [setEntry_queue, if_neg hne]
    exact h.zero i hi

theorem Entries.reclaim (h : Entries p (j :: live) hist) (hn : ((j :: live).map Job.idx).Nodup)
    (hh : ∀ i, i ≠ j → hist' i = hist i) : Entries (reclaimHcmdEntry p j.idx) live hist' := by
  rw [List.map_cons, List.nodup_cons] at hn
  refine ⟨fun i => ?_, fun i hi => ?_, fun i hi => ?_⟩
  · rw [reclaim_bit, Bool.and_eq_true, h.bit i, List.map_cons, List.mem_cons]
    constructor
    · intro hx
      obtain ⟨h1, h2⟩ := hx
      exact h2.resolve_left (by simpa using h1)
    · intro hi
      have : i ≠ j.idx := by
        intro heq
        subst heq
        exact hn.1 hi
      exact ⟨by simpa using this, .inr hi⟩
  · have hne : i.idx ≠ j.idx := fun e => hn.1 (e ▸ List.mem_map_of_mem hi)
    have hij : i ≠ j := fun e => hne (e ▸ rfl)
    rw [reclaim_queue, if_neg hne, hh i hij]
    exact h.ok i (List.mem_cons_of_mem _ hi)
  · rw [reclaim_queue]
    split
    · rfl
    · rename_i hne
      rw [reclaim_bit] at hi
      exact h.zero i (by simpa [hne] using hi)

end

/-! ## Submission queue entries -/

def outstanding (d : Dev) (b : BePc) : List EmuSq :=
  d.registerList ++ b.inHand ++ b.executed ++ d.completeList

structure Sqs (d : Dev) (b : BePc) : Prop where
  ch : ∀ sq ∈ outstanding d b, sq.ch = fakePpa.ch.toNat
  nodup : ((outstanding d b).map EmuSq.sqIndex).Nodup
  bit : ∀ k, sqBit d.fcl fakePpa.ch.toNat k = true ↔ k ∈ (outstanding d b).map EmuSq.sqIndex

section
variable {d d' : Dev} {b b' : BePc}

theorem Sqs.perm (h : Sqs d b) (hf : d'.fcl = d.fcl) (hp : (outstanding d' b').Perm (outstanding d b)) :
    Sqs d' b' := by
  have hm := hp.map EmuSq.sqIndex
  exact ⟨fun sq hsq => h.ch sq (hp.mem_iff.mp hsq), hm.nodup_iff.mpr h.nodup,
    fun k => by rw [hf, h.bit k]; exact hm.mem_iff.symm⟩

/-- With fewer than 256 requests outstanding an entry is free. -/
theorem Sqs.free (h : Sqs d b) (hl : (outstanding d b).length < HW_QUEUE_DEPTH) :
    ∃ k f, getFreeSQEntry d.fcl fakePpa.ch.toNat = (some k, f) := by
  rcases hg : getFreeSQEntry d.fcl fakePpa.ch.toNat with ⟨_ | k, f⟩
  · have hall := (getFreeSQEntry_none hg).1
    have hsub : List.range HW_QUEUE_DEPTH ⊆ (outstanding d b).map EmuSq.sqIndex := fun k hk =>
      (h.bit k).mp (hall k (List.mem_range.mp hk))
    have := (List.subperm_of_subset List.nodup_range hsub).length_le
    simp only [List.length_range, List.length_map] at this
    omega
  · exact ⟨k, f, rfl⟩

theorem Sqs.add {f : SqPool} (h : Sqs d b) (sq : EmuSq)
    (hg : getFreeSQEntry d.fcl fakePpa.ch.toNat = (some sq.sqIndex, f)) (hc : sq.ch = fakePpa.ch.toNat)
    (hb : ∀ c k, sqBit d'.fcl c k = sqBit f c k)
    (hp : (outstanding d' b').Perm (sq :: outstanding d b)) : Sqs d' b' := by
  obtain ⟨-, hclear, -, hset⟩ := getFreeSQEntry_some hg
  have hm := hp.map EmuSq.sqIndex
  have hnew : sq.sqIndex ∉ (outstanding d b).map EmuSq.sqIndex := fun hin => by
    rw [(h.bit _).mpr hin] at hclear; cases hclear
  refine ⟨fun s hs => ?_, hm.nodup_iff.mpr (List.nodup_cons.mpr ⟨hnew, h.nodup⟩), fun k => ?_⟩
  · rcases List.mem_cons.mp (hp.mem_iff.mp hs) with rfl | hs
    · exact hc
    · exact h.ch s hs
  · rw [hb, hset, hm.mem_iff, Bool.or_eq_true, h.bit k]
    simp

theorem Sqs.remove {sq : EmuSq} (h : Sqs d b) (hf : d'.fcl = freeSQEntry d.fcl sq.ch sq.sqIndex)
    (hp : (sq :: outstanding d' b').Perm (outstanding d b)) : Sqs d' b' := by
  have hm := hp.map EmuSq.sqIndex
  have hn := hm.nodup_iff.mpr h.nodup
  rw [List.map_cons, List.nodup_cons] at hn
  have hch := h.ch sq (hp.mem_iff.mp (by simp))
  refine ⟨fun s hs => h.ch s (hp.mem_iff.mp (List.mem_cons_of_mem _ hs)), hn.2, fun k => ?_⟩
  rw [hf, freeSQEntry_sqBit, hch, Bool.and_eq_true, h.bit k, ← hm.mem_iff, List.map_cons, List.mem_cons]
  constructor
  · intro hx
    obtain ⟨h1, h2⟩ := hx
    exact h2.resolve_left (by simpa using h1)
  · intro hk
    have : k ≠ sq.sqIndex := by
      intro heq
      subst heq
      exact hn.1 hk
    exact ⟨by simpa using this, .inr hk⟩

end

/-! ## Handlers -/

/-- The three parts together. -/
structure DevOk (d : Dev) (b : BePc) (f : Place → List Job) (live : List Job)
    (hist : Job → List Kind) : Prop where
  places : Places d b f
  entries : Entries d.hcl live hist
  sqs : Sqs d b

theorem EntryOk.event {e : HostCmdEntry} {j : Job} {h : List Kind} {k : Kind} (he : EntryOk e j h)
    (h1 : k ≠ .cq) (h2 : k ≠ .send) (h3 : k ≠ .dataMove) : EntryOk e j (h ++ [k]) := by
  refine ⟨he.op, he.req, he.cpl.trans ?_, he.send.trans ?_, he.dma.trans ?_⟩ <;>
    simp [List.count_append, h1, h2, h3]

theorem EntryOk.checkcacheLoop {j : Job} {h : List Kind} (n : UInt32) (k : Nat) (c : UInt32)
    {e : HostCmdEntry} (he : EntryOk e j h) : EntryOk (checkcacheLoop n k c e).2 j h := by
  induction k generalizing c e with
  | zero => exact he
  | succ k ih =>
    simp only [Pipeline.checkcacheLoop]
    split
    · exact ih _ ⟨he.op, he.req, he.cpl, he.send, he.dma⟩
    · exact he

theorem setEntry_setEntry (p : HcmdPool) (i : Nat) (a e : HostCmdEntry) :
    L2.Hcl.setEntry (L2.Hcl.setEntry p i a) i e = L2.Hcl.setEntry p i e := by
  simp only [L2.Hcl.setEntry, HcmdPool.mk.injEq, and_true]
  funext t
  split <;> rfl

/-- `FTL_handle_tosq` when an entry is free: one request. -/
theorem handleTosq_eq {mb : BitVec 32} {d : Dev} {i k : Nat} {f : SqPool}
    (hg : getFreeSQEntry d.fcl fakePpa.ch.toNat = (some k, f)) :
    let g := setSQEntry mb f i k 0 (d.entry i).opCode fakePpa HCMD_SPACE
    handleTosq mb d i =
      { d with
        hcl := L2.Hcl.setEntry d.hcl i { d.entry i with bufCnt := 1, sendSqCnt := 1 }
        fcl := g
        registerList := d.registerList ++
          [⟨fakePpa.ch.toNat, fakePpa.ce.toNat, k, g.entry fakePpa.ch.toNat k⟩] } := by
  have h1 : (1 : UInt32).toNat = 1 := by decide
  have h2 : (0 : UInt32) < 1 := by decide
  have h3 : (0 : UInt32) + 1 = 1 := by decide
  simp only [handleTosq, h1, tosqLoop, h2, if_true, Dev.setEntry, hg, sendSQEntry, h3, Dev.entry,
    setEntry_setEntry, setEntry_queue]

section
variable {d : Dev} {b : BePc} {f : Place → List Job} {live : List Job} {hist hist' : Job → List Kind}
  {j : Job} {k : Kind}

/-- A handler that only rewrites the entry of its job and forwards it. -/
theorem DevOk.forward {q : Status} {e : HostCmdEntry} (h : DevOk d b f live hist)
    (hn : (live.map Job.idx).Nodup) (hj : j ∈ live) (hroom : (f (.queue q)).length < TASK_QUEUE_MAX)
    (he : EntryOk e j (hist' j)) (hh : ∀ i, i ≠ j → hist' i = hist i) :
    DevOk (sendhcmd (d.setEntry j.idx e) j.idx q).2 b (push f (.queue q) j) live hist' :=
  ⟨Places.send (h.places.congr rfl rfl rfl) hroom, h.entries.update hn hj he hh,
    h.sqs.perm rfl (List.Perm.refl _)⟩

variable (h : DevOk d b f live hist) (hn : (live.map Job.idx).Nodup) (hj : j ∈ live)
  (hroom : ∀ q, (f (.queue q)).length < TASK_QUEUE_MAX) (hk : hist' j = hist j ++ [k])
  (hh : ∀ i, i ≠ j → hist' i = hist i)
include h hn hj hroom hk hh

theorem handleCheckcache_ok (e : k = .check) :
    DevOk (handleCheckcache d j.idx) b (pushTo f (dest j (.queue .checkCache)) j) live hist' := by
  have he := h.entries.ok j hj
  have hop : (d.entry j.idx).opCode = opOf j := he.op
  have hb := j.not_both
  have hnew : ∀ c, EntryOk { (checkcacheLoop (d.entry j.idx).reqNum (d.entry j.idx).reqNum.toNat
      (d.entry j.idx).curCnt (d.entry j.idx)).2 with curCnt := c } j (hist' j) := fun c => by
    have := (he.checkcacheLoop (d.entry j.idx).reqNum (d.entry j.idx).reqNum.toNat
      (d.entry j.idx).curCnt).event (k := k) (by simp [e]) (by simp [e]) (by simp [e])
    rw [hk]
    exact ⟨this.op, this.req, this.cpl, this.send, this.dma⟩
  unfold handleCheckcache
  cases hw : j.isWrite with
  | true =>
    have ho : (d.entry j.idx).opCode = .write := by rw [hop, opOf, if_pos hw]
    simp only [ho, dest, hw, if_true]
    exact h.forward hn hj (hroom _) (hnew _) hh
  | false =>
    cases hr : j.isRead with
    | true =>
      have ho : (d.entry j.idx).opCode = .read := by simp [hop, opOf, hw, hr]
      simp only [ho, dest, hw, hr, if_true]
      exact h.forward hn hj (hroom _) (hnew _) hh
    | false =>
      have ho : (d.entry j.idx).opCode = .unset := by simp [hop, opOf, hw, hr]
      simp only [ho, dest, hw, hr]
      exact ⟨Places.strand (h.places.congr rfl rfl rfl), h.entries.update hn hj (hnew _) hh,
        h.sqs.perm rfl (List.Perm.refl _)⟩

theorem handleDatamove_ok (e : k = .dataMove) (h0 : (hist j).count .dataMove = 0) :
    DevOk (handleDatamove d j.idx) b (pushTo f (dest j (.queue .dataMoved)) j) live hist' := by
  have he := h.entries.ok j hj
  have hop : (d.entry j.idx).opCode = opOf j := he.op
  have hd : (d.entry j.idx).nvmeDmaCpl = 0 := UInt32.toNat_inj.mp (he.dma.trans h0)
  have hdma : dmaLoop 1 (1 : UInt32).toNat 0 = 1 := by decide
  have hnew : EntryOk { d.entry j.idx with bufCnt := 1, nvmeDmaCpl := 1 } j (hist' j) := by
    rw [hk, e]
    refine ⟨he.op, he.req, he.cpl.trans ?_, he.send.trans ?_, ?_⟩ <;> simp [List.count_append, h0]
  have hb := j.not_both
  simp only [handleDatamove, hd, hdma]
  cases hr : j.isRead with
  | true =>
    have ho : (d.entry j.idx).opCode = .read := by
      have hw : ¬ j.isWrite = true := fun e => hb ⟨e, hr⟩
      simp [hop, opOf, hw, hr]
    simp only [ho, dest, hr, if_true]
    exact ho ▸ h.forward hn hj (hroom _) hnew hh
  | false =>
    have ho : ¬ (d.entry j.idx).opCode = .read := by rw [hop, opOf]; split <;> simp [hr]
    simp only [ho, dest, hr]
    exact h.forward hn hj (hroom _) hnew hh

theorem handleFromcq_ok (e : k = .fromCq) :
    DevOk (handleFromcq d j.idx) b (pushTo f (dest j (.queue .fromCq)) j) live hist' := by
  have he := h.entries.ok j hj
  have hop : (d.entry j.idx).opCode = opOf j := he.op
  have hnew : ∀ s, EntryOk { d.entry j.idx with status := s } j (hist' j) := fun s => by
    have := he.event (k := k) (by simp [e]) (by simp [e]) (by simp [e])
    rw [hk]
    exact ⟨this.op, this.req, this.cpl, this.send, this.dma⟩
  unfold handleFromcq
  cases hw : j.isWrite with
  | true =>
    have ho : (d.entry j.idx).opCode = .write := by simp [hop, opOf, hw]
    simp only [ho, dest, hw, if_true]
    exact h.forward hn hj (hroom _) (ho ▸ hnew _) hh
  | false =>
    have ho : ¬ (d.entry j.idx).opCode = .write := by
      simp only [hop, opOf, hw]
      split <;> (try split) <;> simp_all
    simp only [ho, dest, hw]
    exact h.forward hn hj (hroom _) (hnew _) hh

omit hroom in
/-- One request is registered, and it carries the index of the job. -/
theorem handleTosq_ok (mb : BitVec 32) (e : k = .send) (h0 : (hist j).count .send = 0)
    (hlt : j.idx < HCMD_NUM) (hl : (outstanding d b).length < HW_QUEUE_DEPTH) :
    DevOk (handleTosq mb d j.idx) b (pushTo f (dest j (.queue .toSq)) j) live hist' ∧
      ∃ sq : EmuSq, sq.hcmd = j.idx ∧
        (handleTosq mb d j.idx).registerList = d.registerList ++ [sq] := by
  have he := h.entries.ok j hj
  obtain ⟨n, g, hg⟩ := h.sqs.free hl
  have hnew : EntryOk { d.entry j.idx with bufCnt := 1, sendSqCnt := 1 } j (hist' j) := by
    rw [hk, e]
    refine ⟨he.op, he.req, he.cpl.trans ?_, ?_, he.dma.trans ?_⟩ <;> simp [List.count_append, h0]
  obtain ⟨sq, hsq⟩ : ∃ sq : EmuSq, sq = ⟨fakePpa.ch.toNat, fakePpa.ce.toNat, n,
    (setSQEntry mb g j.idx n 0 (d.entry j.idx).opCode fakePpa HCMD_SPACE).entry fakePpa.ch.toNat n⟩ :=
    ⟨_, rfl⟩
  have hs : sq.hcmd = j.idx := by
    rw [hsq, EmuSq.hcmd, setSQEntry_hcmdIndex, BitVec.toNat_ofNat]
    exact Nat.mod_eq_of_lt hlt
  have hi : n = sq.sqIndex := by rw [hsq]
  simp only [handleTosq_eq hg, ← hsq]
  refine ⟨⟨(h.places.register hs).congr rfl rfl rfl, h.entries.update hn hj hnew hh, ?_⟩, sq, hs, rfl⟩
  refine h.sqs.add sq (f := g) (hi ▸ hg) (by rw [hsq]) (fun c m => rfl) ?_
  refine List.perm_iff_count.mpr fun a => ?_
  simp only [outstanding, List.count_append, List.count_cons, List.count_nil]
  omega

omit hj hroom hk in
theorem handleFinish_ok {rest : List Job} (hp : live.Perm (j :: rest)) :
    DevOk (handleFinish d j.idx) b (pushTo f (dest j (.queue .finish)) j) rest hist' :=
  ⟨h.places.congr rfl rfl rfl,
    (h.entries.perm hp.symm).reclaim ((hp.map Job.idx).nodup_iff.mp hn) hh,
    h.sqs.perm rfl (List.Perm.refl _)⟩

end

section
variable {d : Dev} {b : BePc} {f : Place → List Job} {live : List Job} {hist hist' : Job → List Kind}
  {j : Job} {r : List Job}

theorem cqRound_eq {sq : EmuSq} {rest : List EmuSq} {i : Nat} (hs : sq.hcmd = i) :
    let d' : Dev :=
      { d with
        hcl := L2.Hcl.setEntry d.hcl i { d.entry i with cplCnt := (d.entry i).cplCnt + 1 }
        fcl := freeSQEntry d.fcl sq.ch sq.sqIndex
        completeList := rest }
    cqRound d sq rest =
      if (d.entry i).cplCnt + 1 = (d.entry i).reqNum then (sendhcmd d' i .fromCq).2 else d' := by
  subst hs
  simp only [cqRound, Dev.setEntry, Dev.entry, setEntry_queue, if_true]
  by_cases hc : (d.hcl.queue sq.hcmd).cplCnt + 1 = (d.hcl.queue sq.hcmd).reqNum
  · simp only [hc, if_true]; rfl
  · simp only [hc, if_false]

/-- One round of `FTL_CQ_polling`. -/
theorem cqRound_ok {sq : EmuSq} {rest : List EmuSq} (h : DevOk d b f live hist)
    (hn : (live.map Job.idx).Nodup) (hj : j ∈ live) (hf : f .completed = j :: r)
    (hc : d.completeList = sq :: rest)
    (hroom : (pop f .completed (.queue .fromCq)).length < TASK_QUEUE_MAX)
    (hk : hist' j = hist j ++ [.cq]) (hh : ∀ i, i ≠ j → hist' i = hist i)
    (h0 : (hist j).count .cq = 0) :
    DevOk (cqRound d sq rest) b (pushTo (pop f .completed) (dest j .completed) j) live hist' := by
  obtain ⟨hs, hP⟩ := h.places.uncomplete hc hf
  have he := h.entries.ok j hj
  have hz : (d.entry j.idx).cplCnt = 0 := UInt32.toNat_inj.mp (he.cpl.trans h0)
  have h1 : (0 : UInt32) + 1 = 1 := by decide
  have hone : (d.entry j.idx).cplCnt + 1 = (d.entry j.idx).reqNum ↔ j.reqNum = 1 := by
    rw [hz, h1, show (d.entry j.idx).reqNum = j.reqNum from he.req]; exact eq_comm
  have hnew : EntryOk { d.entry j.idx with cplCnt := (d.entry j.idx).cplCnt + 1 } j (hist' j) := by
    rw [hk, hz]
    refine ⟨he.op, he.req, ?_, he.send.trans ?_, he.dma.trans ?_⟩ <;> simp [List.count_append, h0]
  have hE := h.entries.update hn hj hnew hh
  have hp : (sq :: outstanding { d with completeList := rest } b).Perm (outstanding d b) := by
    simp only [outstanding, hc]
    exact List.perm_middle.symm
  rw [cqRound_eq hs, dest]
  by_cases hq : j.reqNum = 1
  · rw [if_pos (hone.mpr hq), if_pos hq]
    exact ⟨Places.send (hP.congr rfl rfl rfl) hroom, hE, h.sqs.remove rfl hp⟩
  · rw [if_neg (mt hone.mp hq), if_neg hq]
    exact ⟨Places.strand (hP.congr rfl rfl rfl), hE, h.sqs.remove rfl hp⟩

theorem fillEntry_ok (j : Job) (index : Nat) (c : UInt32) :
    EntryOk (fillEntry .zero j.cmd index c) j [.accept] := by
  refine ⟨?_, rfl, rfl, rfl, rfl⟩
  simp only [fillEntry, opOf, Job.isWrite, Job.isRead, beq_iff_eq, HostCmdEntry.zero]

/-- Accepting a command into a free entry. -/
theorem accept_ok {hcl : HcmdPool} {index : Nat} {c : UInt32} (h : DevOk d b f live hist)
    (hg : getHostCmdEntry d.hcl = (some j.idx, hcl))
    (hroom : (f (.queue .checkCache)).length < TASK_QUEUE_MAX)
    (hk : hist' j = [.accept]) (hh : ∀ i ∈ live, hist' i = hist i) :
    DevOk (sendhcmd { d with hcl := L2.Hcl.setEntry hcl j.idx (fillEntry (hcl.queue j.idx) j.cmd index c) }
      j.idx .checkCache).2 b (push f (.queue .checkCache) j) (j :: live) hist' := by
  obtain ⟨-, hfree, -, hbit, hq⟩ := getHostCmdEntry_some hg
  have hnew : j.idx ∉ live.map Job.idx := fun hin => by
    rw [(h.entries.bit _).mpr hin] at hfree; cases hfree
  refine ⟨Places.send (h.places.congr rfl rfl rfl) hroom, ⟨fun i => ?_, fun i hi => ?_, fun i hi => ?_⟩,
    h.sqs.perm rfl (List.Perm.refl _)⟩
  · rw [sendhcmd_hcl, setEntry_bit, hbit, Bool.or_eq_true, h.entries.bit i]
    simp
  · rcases List.mem_cons.mp hi with rfl | hi
    · rw [sendhcmd_hcl, setEntry_queue, if_pos rfl, hq, h.entries.zero _ hfree, hk]
      exact fillEntry_ok _ _ _
    · have hne : i.idx ≠ j.idx := fun e => hnew (e ▸ List.mem_map_of_mem hi)
      rw [sendhcmd_hcl, setEntry_queue, if_neg hne, hq, hh i hi]
      exact h.entries.ok i hi
  · rw [sendhcmd_hcl, setEntry_bit, hbit, Bool.or_eq_false_iff] at hi
    have hne : i ≠ j.idx := by simpa using hi.1
    rw [sendhcmd_hcl, setEntry_queue, if_neg hne, hq]
    exact h.entries.zero i hi.2

/-! ## The backend -/

/-- An event that no counter counts. -/
theorem Entries.event {p : HcmdPool} {k : Kind} (h : Entries p live hist)
    (hk : hist' j = hist j ++ [k]) (hh : ∀ i, i ≠ j → hist' i = hist i)
    (h1 : k ≠ .cq) (h2 : k ≠ .send) (h3 : k ≠ .dataMove) : Entries p live hist' := by
  refine ⟨h.bit, fun i hi => ?_, h.zero⟩
  by_cases e : i = j
  · subst e; rw [hk]; exact (h.ok i hi).event h1 h2 h3
  · rw [hh i e]; exact h.ok i hi

theorem take_ok {sq : EmuSq} {rest : List EmuSq} (h : DevOk d .idle f live hist)
    (hf : f .registered = j :: r) (hl : d.registerList = sq :: rest)
    (hk : hist' j = hist j ++ [.take]) (hh : ∀ i, i ≠ j → hist' i = hist i) :
    DevOk { d with registerList := rest } (.hand sq) (push (pop f .registered) .inHand j) live hist' := by
  have hreg := h.places.reg
  rw [hl, hf, List.map_cons, List.map_cons, List.cons.injEq] at hreg
  have hhand : f .inHand = [] := by simpa [BePc.inHand] using h.places.hand.symm
  refine ⟨⟨fun t => ?_, ?_, ?_, ?_, ?_⟩, h.entries.event hk hh (by decide) (by decide) (by decide),
    h.sqs.perm rfl ?_⟩
  · rw [push_of_ne (by simp), pop_of_ne (by simp)]; exact h.places.ring t
  · rw [push_of_ne (by simp), pop_self, hf]; exact hreg.2
  · rw [push_self, pop_of_ne (by simp), hhand]; simp [BePc.inHand, hreg.1]
  · rw [push_of_ne (by simp), pop_of_ne (by simp)]; exact h.places.done
  · rw [push_of_ne (by simp), pop_of_ne (by simp)]; exact h.places.cpl
  · refine List.perm_iff_count.mpr fun a => ?_
    simp only [outstanding, hl, BePc.inHand, BePc.executed, List.count_append, List.count_cons,
      List.count_nil]
    omega

theorem exec_ok {sq : EmuSq} (h : DevOk d (.hand sq) f live hist) (hf : f .inHand = j :: r)
    (hk : hist' j = hist j ++ [.exec]) (hh : ∀ i, i ≠ j → hist' i = hist i) :
    DevOk d (.done sq) (push (pop f .inHand) .executed j) live hist' := by
  have hhand := h.places.hand
  rw [hf] at hhand
  simp only [BePc.inHand, List.map_cons, List.map_nil, List.cons.injEq] at hhand
  have hdone : f .executed = [] := by simpa [BePc.executed] using h.places.done.symm
  refine ⟨⟨fun t => ?_, ?_, ?_, ?_, ?_⟩, h.entries.event hk hh (by decide) (by decide) (by decide),
    h.sqs.perm rfl ?_⟩
  · rw [push_of_ne (by simp), pop_of_ne (by simp)]; exact h.places.ring t
  · rw [push_of_ne (by simp), pop_of_ne (by simp)]; exact h.places.reg
  · rw [push_of_ne (by simp), pop_self, hf]; exact hhand.2
  · rw [push_self, pop_of_ne (by simp), hdone]; simp [BePc.executed, hhand.1]
  · rw [push_of_ne (by simp), pop_of_ne (by simp)]; exact h.places.cpl
  · refine List.perm_iff_count.mpr fun a => ?_
    simp only [outstanding, BePc.inHand, BePc.executed, List.count_append, List.count_nil]
    omega

theorem post_ok {sq : EmuSq} (h : DevOk d (.done sq) f live hist) (hf : f .executed = j :: r)
    (hk : hist' j = hist j ++ [.post]) (hh : ∀ i, i ≠ j → hist' i = hist i) :
    DevOk { d with completeList := d.completeList ++ [sq] } .idle (push (pop f .executed) .completed j)
      live hist' := by
  have hdone := h.places.done
  rw [hf] at hdone
  simp only [BePc.executed, List.map_cons, List.map_nil, List.cons.injEq] at hdone
  refine ⟨⟨fun t => ?_, ?_, ?_, ?_, ?_⟩, h.entries.event hk hh (by decide) (by decide) (by decide),
    h.sqs.perm rfl ?_⟩
  · rw [push_of_ne (by simp), pop_of_ne (by simp)]; exact h.places.ring t
  · rw [push_of_ne (by simp), pop_of_ne (by simp)]; exact h.places.reg
  · rw [push_of_ne (by simp), pop_of_ne (by simp)]; exact h.places.hand
  · rw [push_of_ne (by simp), pop_self, hf]; exact hdone.2
  · rw [push_self, pop_of_ne (by simp)]; simp [h.places.cpl, hdone.1]
  · refine List.perm_iff_count.mpr fun a => ?_
    simp only [outstanding, BePc.inHand, BePc.executed, List.count_append, List.count_nil]
    omega

end

/-! ## The simulation -/

/-- All counters of an entry agree. -/
structure Settled (e : HostCmdEntry) : Prop where
  cpl : e.cplCnt = e.reqNum
  send : e.sendSqCnt = e.reqNum
  dma : e.nvmeDmaCpl = e.reqNum

/-- What is left to serve is what the queue holds. -/
def StageOk (n : Net) : FtlPc → Prop
  | .poll _ | .got _ _ _ | .free _ _ | .put _ _ _ => n.stage = .poll
  | .stage q => n.stage = .serve q
  | .serve q cnt j => n.stage = .serve q ∧ j + (n.jobs (.queue q)).length = cnt
  | .cq | .cqLoop => n.stage = .cq

structure Sim (s : Sys) (n : Net) : Prop where
  dev : DevOk s.dev s.be n.jobs n.live n.hist
  owner : ∀ j ∈ n.live, s.owner j.idx = some j
  accs : s.accs.map Acc.toJob = n.accepted
  log : s.log.map (fun e => (e.kind, e.job)) = n.log.map fun e => (e.1, some e.2)
  fin : ∀ e ∈ s.log, e.kind = .finish → Settled e.entry
  stage : StageOk n s.ftl
  polls : s.polls = n.polls

section
variable {s s' : Sys} {n : Net} {p : Place} {j : Job} {r : List Job}

/-- Steps that touch none of what `Sim` speaks of. -/
theorem Sim.frame (h : Sim s n) (h1 : s'.dev = s.dev) (h2 : s'.be = s.be) (h3 : s'.accs = s.accs)
    (h4 : s'.log = s.log) (h5 : StageOk n s'.ftl) (h6 : s'.polls = s.polls) : Sim s' n := by
  refine ⟨?_, ?_, h3 ▸ h.accs, h4 ▸ h.log, h4 ▸ h.fin, h5, h6.trans h.polls⟩
  · rw [h1, h2]; exact h.dev
  · intro j hj
    rw [Sys.owner, h3]; exact h.owner j hj

theorem live_length (h : Live n) : n.live.length ≤ HCMD_NUM := by
  have hsub : n.live.map Job.idx ⊆ List.range HCMD_NUM := fun i hi => by
    obtain ⟨j, hj, rfl⟩ := List.mem_map.mp hi
    exact List.mem_range.mpr (h.lt j hj)
  simpa using (List.subperm_of_subset h.nodup hsub).length_le

theorem Sim.accs_length (h : Sim s n) : s.accs.length = n.accepted.length := by
  rw [← h.accs, List.length_map]

/-- An entry is handed out to each live job, and no other is. -/
theorem Sim.allocated (hI : Inv n) (h : Sim s n) : allocated s.dev.hcl = n.live.length := by
  have hp : ((List.range HCMD_NUM).filter (bit s.dev.hcl)).Perm (n.live.map Job.idx) := by
    refine (List.perm_ext_iff_of_nodup (List.nodup_range.filter _) hI.live.nodup).mpr fun i => ?_
    rw [List.mem_filter, List.mem_range, h.dev.entries.bit i]
    refine and_iff_right_of_imp fun hi => ?_
    obtain ⟨j, hj, rfl⟩ := List.mem_map.mp hi
    exact hI.live.lt j hj
  rw [L2.Hcl.allocated, List.countP_eq_length_filter, hp.length_eq, List.length_map]

/-- With one job out of all places no place is full. -/
theorem room (h : Live n) (hp : n.jobs p = j :: r) :
    (tokens places (pop n.jobs p)).length < HCMD_NUM := by
  have h1 := live_length h
  have h2 := (pop_perm places_nodup (mem_places p) hp).length_eq
  simp only [List.length_cons] at h2
  unfold Net.live at h1
  omega

theorem queue_length_le (f : Place → List Job) (q : Status) :
    (f (.queue q)).length ≤ (tokens places f).length := by
  cases q <;> simp only [tokens, places, List.flatMap_cons, List.flatMap_nil, List.length_append] <;> omega

theorem Places.outstanding_le {d : Dev} {b : BePc} {f : Place → List Job} (h : Places d b f) :
    (outstanding d b).length ≤ (tokens places f).length := by
  have h1 := congrArg List.length h.reg
  have h2 := congrArg List.length h.hand
  have h3 := congrArg List.length h.done
  have h4 := congrArg List.length h.cpl
  simp only [List.length_map] at h1 h2 h3 h4
  simp only [outstanding, tokens, places, List.flatMap_cons, List.flatMap_nil, List.length_append]
  omega

theorem move_hist_self : (n.move p j).hist j = n.hist j ++ [p.kind] := by
  rw [hist_append (n.move p j) p.kind rfl, if_pos rfl]

theorem move_hist_of_ne {i : Job} (h : i ≠ j) : (n.move p j).hist i = n.hist i := by
  rw [hist_append (n.move p j) p.kind rfl, if_neg h]

theorem live_of_move (hp : n.jobs p = j :: r) : ∀ i ∈ (n.move p j).live, i ∈ n.live := by
  intro i hi
  cases hd : dest j p with
  | some d => exact (live_move hp hd).mem_iff.mp hi
  | none => exact (live_leave hp hd).mem_iff.mp (List.mem_cons_of_mem _ hi)

theorem Sim.move (h : Sim s n) (hp : n.jobs p = j :: r)
    (hd : DevOk s'.dev s'.be (n.move p j).jobs (n.move p j).live (n.move p j).hist)
    (ha : s'.accs = s.accs) (hl : s'.log = s.log ++ [s.event p.kind j.idx])
    (hf : p.kind = .finish → Settled (s.dev.entry j.idx)) (hg : StageOk (n.move p j) s'.ftl)
    (hq : s'.polls = s.polls) : Sim s' (n.move p j) := by
  have hj : j ∈ n.live := mem_live.mpr ⟨p, by simp [hp]⟩
  refine ⟨hd, fun i hi => ?_, ha ▸ h.accs, ?_, fun e he hk => ?_, hg, hq.trans h.polls⟩
  · rw [Sys.owner, ha]; exact h.owner i (live_of_move hp i hi)
  · simp [hl, Net.move, h.log, Sys.event, h.owner j hj]
  · rw [hl] at he
    rcases List.mem_append.mp he with he | he
    · exact h.fin e he hk
    · rw [List.mem_singleton.mp he] at hk ⊢
      exact hf hk

theorem DevOk.perm {d : Dev} {b : BePc} {f : Place → List Job} {live live' : List Job}
    {hist : Job → List Kind} (h : DevOk d b f live hist) (hp : live'.Perm live) :
    DevOk d b f live' hist := ⟨h.places, h.entries.perm hp, h.sqs⟩

/-! ### Steps of the network -/

theorem step_move (ha : n.stage.allows p = true) (hp : n.jobs p = j :: r) :
    Jobs.step n (.move p) = some (n.move p j) := by
  simp [Jobs.step, ha, hp]

theorem step_next {g : Stage} {k : Nat} (ha : Advance n g k) :
    Jobs.step n .next = some { n with stage := g, polls := k } := by
  cases ha with
  | poll h => simp [Jobs.step, h]
  | serve h he => simp [Jobs.step, h, he]
  | cq h he => simp [Jobs.step, h, he]

/-! ### The FTL thread -/

theorem Done.count {a b c : Nat} {h : List Kind} {k : Kind} (hd : j.Done a b h)
    (h1 : (writeCourse.take a).count k = c) (h2 : (readCourse.take b).count k = c) : h.count k = c := by
  rcases hd with ⟨-, rfl⟩ | ⟨-, rfl⟩
  · exact h1
  · exact h2

/-- Serving the first command of a queue. -/
theorem handler_ok (mb : BitVec 32) {q : Status} {d : Dev} (hI : Inv n)
    (hq : n.jobs (.queue q) = j :: r)
    (hd : DevOk d s.be (pop n.jobs (.queue q)) n.live n.hist) :
    DevOk (func mb q d j.idx) s.be (n.move (.queue q) j).jobs (n.move (.queue q) j).live
        (n.move (.queue q) j).hist ∧
      handlerEvents s q d (func mb q d j.idx) j.idx = [s.event (Place.queue q).kind j.idx] := by
  have hj : j ∈ n.live := mem_live.mpr ⟨_, by rw [hq]; exact List.mem_cons_self⟩
  have hat := (hI.tracked.here (.queue q) j (by simp [hq])).2.at
  have hr := room hI.live hq
  have hroom : ∀ t, (pop n.jobs (.queue q) (.queue t)).length < TASK_QUEUE_MAX := fun t =>
    Nat.lt_of_le_of_lt (queue_length_le _ t) hr
  have hh : ∀ i, i ≠ j → (n.move (.queue q) j).hist i = n.hist i := fun i hi => move_hist_of_ne hi
  have hk := move_hist_self (n := n) (p := .queue q) (j := j)
  cases q with
  | checkCache =>
    have hok := handleCheckcache_ok hd hI.live.nodup hj hroom hk hh rfl
    exact ⟨hok.perm (live_move hq rfl), rfl⟩
  | toSq =>
    have h0 : (n.hist j).count .send = 0 := Done.count hat (by decide) (by decide)
    have hl : (outstanding d s.be).length < HW_QUEUE_DEPTH :=
      Nat.lt_of_le_of_lt hd.places.outstanding_le hr
    obtain ⟨hok, sq, hs, hreg⟩ :=
      handleTosq_ok hd hI.live.nodup hj hk hh mb rfl h0 (hI.live.lt j hj) hl
    refine ⟨hok.perm (live_move hq rfl), ?_⟩
    simp [handlerEvents, func, hreg, hs, Place.kind]
  | dataMoved =>
    have h0 : (n.hist j).count .dataMove = 0 := Done.count hat.1 (by decide) (by decide)
    have hok := handleDatamove_ok hd hI.live.nodup hj hroom hk hh rfl h0
    exact ⟨hok.perm (live_move hq rfl), rfl⟩
  | fromCq =>
    have hok := handleFromcq_ok hd hI.live.nodup hj hroom hk hh rfl
    exact ⟨hok.perm (live_move hq rfl), rfl⟩
  | finish =>
    exact ⟨handleFinish_ok hd hI.live.nodup hh (live_leave hq rfl).symm, rfl⟩
  | waitCq => exact absurd hat id

theorem Sim.settled (hI : Inv n) (h : Sim s n) (hq : n.jobs (.queue .finish) = j :: r) :
    Settled (s.dev.entry j.idx) := by
  obtain ⟨hd, h1⟩ := (hI.tracked.here (.queue .finish) j (by simp [hq])).2.at
  have he := h.dev.entries.ok j (mem_live.mpr ⟨_, by rw [hq]; exact List.mem_cons_self⟩)
  have hone : ∀ x : UInt32, x.toNat = 1 → x = (s.dev.entry j.idx).reqNum := fun x hx => by
    rw [show (s.dev.entry j.idx).reqNum = 1 from he.req.trans h1]
    exact UInt32.toNat_inj.mp hx
  exact ⟨hone _ (he.cpl.trans (Done.count hd (by decide) (by decide))),
    hone _ (he.send.trans (Done.count hd (by decide) (by decide))),
    hone _ (he.dma.trans (Done.count hd (by decide) (by decide)))⟩

/-- No handler puts a command back into its own queue. -/
theorem move_queue_self {q : Status} :
    (n.move (.queue q) j).jobs (.queue q) = (n.jobs (.queue q)).tail := by
  cases q <;> cases hw : j.isWrite <;> cases hr : j.isRead <;>
    simp [Net.move, pushTo, dest, hw, hr, push_of_ne]

/-- A request at the head of a list is that of the job at the head of the
matching place. -/
theorem head_job {sq : EmuSq} {rest : List EmuSq} {l : List Job}
    (h : (sq :: rest).map EmuSq.hcmd = l.map Job.idx) : ∃ j r, l = j :: r ∧ sq.hcmd = j.idx := by
  cases l with
  | nil => simp at h
  | cons j r => exact ⟨j, r, rfl, (List.cons.inj h).1⟩

theorem queue_kind_finish {q : Status} (h : (Place.queue q).kind = .finish) :
    q = .finish ∨ q = .waitCq := by
  cases q <;> simp_all [Place.kind]

/-- What a step of the emulator does to the network: nothing, or one step. -/
def Matched (s' : Sys) (n : Net) : Prop := Sim s' n ∨ ∃ l n', net.step n l n' ∧ Sim s' n'

/-- A queue that is being served holds what is left to serve. -/
theorem Sim.serving {q : Status} {cnt k : Nat} (h : Sim s n) (hp : s.ftl = .serve q cnt k)
    (hlt : k < cnt) : ∃ j r, n.jobs (.queue q) = j :: r := by
  have hg : n.stage = .serve q ∧ k + (n.jobs (.queue q)).length = cnt := by
    simpa [hp, StageOk] using h.stage
  cases hq : n.jobs (.queue q) with
  | nil => rw [hq] at hg; simp at hg; omega
  | cons j r => exact ⟨j, r, rfl⟩

/-- Serving a command takes the first job of the queue, and is its one event. -/
theorem Sim.serve_first {mb : BitVec 32} {q : Status} {cnt k i : Nat} {ring : L2.TaskQueue Nat} {d d' : Dev}
    (hI : Inv n) (h : Sim s n) (hp : s.ftl = .serve q cnt k) (hlt : k < cnt)
    (e : removeHead (s.dev.tq q) = (some i, ring))
    (hdev : d = { s.dev with tq := fun t => if t = q then ring else s.dev.tq t })
    (hdev' : d' = func mb q d i) :
    ∃ j r, n.jobs (.queue q) = j :: r ∧
      DevOk d' s.be (n.move (.queue q) j).jobs (n.move (.queue q) j).live (n.move (.queue q) j).hist ∧
      handlerEvents s q d d' i = [s.event (Place.queue q).kind j.idx] := by
  -- a command is left, so the queue is not empty
  obtain ⟨j, r, hq⟩ := h.serving hp hlt
  obtain ⟨h1, h2⟩ := h.dev.places.removeHead hq
  rw [e] at h1 h2
  obtain rfl : i = j.idx := Option.some.inj h1
  have hd : DevOk d s.be (pop n.jobs (.queue q)) n.live n.hist := by
    subst hdev
    exact ⟨h2, h.dev.entries, h.dev.sqs.perm rfl (List.Perm.refl _)⟩
  obtain ⟨hok, hev⟩ := handler_ok mb hI hq hd
  rw [← hdev'] at hok hev
  exact ⟨j, r, hq, hok, hev⟩

theorem Sim.serve {mb : BitVec 32} {q : Status} {cnt k i : Nat} {ring : L2.TaskQueue Nat} {d d' : Dev}
    (hI : Inv n) (h : Sim s n) (hp : s.ftl = .serve q cnt k) (hlt : k < cnt)
    (e : removeHead (s.dev.tq q) = (some i, ring))
    (hdev : d = { s.dev with tq := fun t => if t = q then ring else s.dev.tq t })
    (hdev' : d' = func mb q d i) :
    Matched { s with dev := d', ftl := .serve q cnt (k + 1),
                     log := s.log ++ handlerEvents s q d d' i } n := by
  have hg : n.stage = .serve q ∧ k + (n.jobs (.queue q)).length = cnt := by
    simpa [hp, StageOk] using h.stage
  obtain ⟨j, r, hq, hok, hev⟩ := h.serve_first hI hp hlt e hdev hdev'
  refine .inr ⟨.move (.queue q), n.move (.queue q) j, step_move (by simp [Stage.allows, hg.1]) hq, ?_⟩
  have hset : (Place.queue q).kind = .finish → Settled (s.dev.entry j.idx) := fun hk => by
    rcases queue_kind_finish hk with rfl | rfl
    · exact h.settled hI hq
    · exact absurd (hI.tracked.here _ j (by rw [hq]; exact List.mem_cons_self)).2.at id
  refine h.move hq hok rfl (congrArg (s.log ++ ·) hev) hset ⟨hg.1, ?_⟩ rfl
  rw [move_queue_self, hq, List.tail_cons]
  rw [hq, List.length_cons] at hg
  omega

theorem Sim.served {q : Status} {cnt k : Nat} (h : Sim s n) (hp : s.ftl = .serve q cnt k)
    (hlt : ¬ k < cnt) : Matched { s with ftl := .after q } n := by
  have hg : n.stage = .serve q ∧ k + (n.jobs (.queue q)).length = cnt := by
    simpa [hp, StageOk] using h.stage
  have he : n.jobs (.queue q) = [] := List.eq_nil_of_length_eq_zero (by omega)
  refine .inr ⟨.next, _, step_next (.serve hg.1 he), ?_⟩
  refine ⟨h.dev, h.owner, h.accs, h.log, h.fin, ?_, h.polls⟩
  cases q <;> rfl

theorem owner_append (a : Acc) (i : Nat) (h : s'.accs = s.accs ++ [a]) :
    s'.owner i = if a.idx = i then some a.toJob else s.owner i := by
  simp only [Sys.owner, h, List.reverse_append, List.reverse_cons, List.reverse_nil, List.nil_append,
    List.cons_append, List.find?_cons]
  by_cases e : a.idx = i <;> simp [e]

/-- An entry that can be handed out is no live job's. -/
theorem Sim.unused {k : Nat} {hcl : HcmdPool} (h : Sim s n)
    (hget : getHostCmdEntry s.dev.hcl = (some k, hcl)) : k < HCMD_NUM ∧ k ∉ n.live.map Job.idx := by
  obtain ⟨hk, hfree, -, -, -⟩ := getHostCmdEntry_some hget
  refine ⟨hk, fun hin => ?_⟩
  rw [(h.dev.entries.bit k).mpr hin] at hfree
  cases hfree

/-- With an entry to spare the queue for new commands has room. -/
theorem accept_room (h : Live n) (hlt : j.idx < HCMD_NUM) (hnew : j.idx ∉ n.live.map Job.idx) :
    (n.jobs (.queue .checkCache)).length < TASK_QUEUE_MAX := by
  have h1 := live_length (h.accept hlt hnew)
  have h2 := (live_accept n j).length_eq
  have h3 := queue_length_le n.jobs .checkCache
  simp only [List.length_cons] at h2
  unfold Net.live at h1 h2
  unfold HCMD_NUM at h1
  unfold TASK_QUEUE_MAX
  omega

theorem Sim.accept {i index k : Nat} {scmd : ShmCmd} {hcl : HcmdPool} (hI : Inv n) (h : Sim s n)
    (hg : n.stage = .poll) (hget : getHostCmdEntry s.dev.hcl = (some k, hcl)) :
    Matched (acceptInto s i index scmd.toHostCmd k hcl) n := by
  obtain ⟨hk, hnew⟩ := h.unused hget
  have hlen := h.accs_length
  let j : Job := ⟨s.accs.length, k, scmd.toHostCmd, s.polls⟩
  have hfresh := hI.tracked.fresh (j := j) hlen
  have hlive : ∀ m ∈ n.live, m ≠ j := fun m hm e => by
    obtain ⟨p, hp⟩ := mem_live.mp hm
    exact hfresh (e ▸ (hI.tracked.here p m hp).1)
  have hroom := accept_room (j := j) hI.live hk hnew
  refine .inr ⟨.accept k scmd.toHostCmd, n.accept j, ?_, ?_⟩
  · show Jobs.step n _ = _
    simp only [Jobs.step, hg, hk, hnew, not_false_eq_true, and_self, if_true, j, hlen, h.polls]
  have hhist := hist_append (n := n) (j := j) (n.accept j) .accept rfl
  refine ⟨?_, fun m hm => ?_, ?_, ?_, ?_, hg, h.polls⟩
  · refine DevOk.perm (accept_ok (j := j) h.dev hget hroom ?_ fun m hm => ?_) (live_accept n j)
    · rw [hhist, if_pos rfl, hI.tracked.hist_nil hfresh]; rfl
    · rw [hhist, if_neg (hlive m hm)]
  · rw [owner_append (s := s) ⟨j, _⟩ m.idx rfl]
    rcases List.mem_cons.mp ((live_accept n j).mem_iff.mp hm) with rfl | hm
    · simp
    · have hne : j.idx ≠ m.idx :=
        fun e => hnew (by rw [show k = m.idx from e]; exact List.mem_map_of_mem hm)
      rw [if_neg hne]; exact h.owner m hm
  · simp [acceptInto, Net.accept, h.accs, j]
  · simp [acceptInto, Net.accept, h.log, j]
  · intro e he hk
    rcases List.mem_append.mp he with he | he
    · exact h.fin e he hk
    · rw [List.mem_singleton.mp he] at hk; cases hk

theorem Sim.round {sq : EmuSq} {rest : List EmuSq} (hI : Inv n) (h : Sim s n) (hp : s.ftl = .cqLoop)
    (hl : s.dev.completeList = sq :: rest) :
    Matched { s with dev := cqRound s.dev sq rest, log := s.log ++ [s.event .cq sq.hcmd] } n := by
  have hg : n.stage = .cq := by simpa [hp, StageOk] using h.stage
  obtain ⟨j, r, hq, hs⟩ := head_job (hl ▸ h.dev.places.cpl)
  have hj : j ∈ n.live := mem_live.mpr ⟨_, by rw [hq]; exact List.mem_cons_self⟩
  have hat := (hI.tracked.here .completed j (by simp [hq])).2.at
  have hroom := Nat.lt_of_le_of_lt (queue_length_le _ .fromCq) (room hI.live hq)
  have hok := cqRound_ok h.dev hI.live.nodup hj hq hl hroom (move_hist_self (p := .completed))
    (fun i hi => move_hist_of_ne hi) (Done.count hat (by decide) (by decide))
  refine .inr ⟨.move .completed, n.move .completed j, step_move (by simp [Stage.allows, hg]) hq, ?_⟩
  refine h.move hq (hok.perm (live_move hq rfl)) rfl ?_ (fun hk => ?_) ?_ rfl
  · simp [hs, Place.kind]
  · cases hk
  · rw [hp]
    exact hg

/-- The completion loop ends when the list is empty. -/
theorem Sim.done (h : Sim s n) (hp : s.ftl = .cqLoop) (hl : s.dev.completeList = []) :
    Matched { s with ftl := .poll 0, polls := s.polls + 1 } n := by
  have hg : n.stage = .cq := by simpa [hp, StageOk] using h.stage
  have he : n.jobs .completed = [] := by simpa [hl] using h.dev.places.cpl.symm
  refine .inr ⟨.next, _, step_next (.cq hg he), h.dev, h.owner, h.accs, h.log, h.fin, rfl, ?_⟩
  exact congrArg (· + 1) h.polls

theorem Sim.ftl {mb : BitVec 32} (hI : Inv n) (h : Sim s n) (hs : ftlStep mb s = some s') :
    Matched s' n := by
  have hst := h.stage
  cases ftlStep_cases hs with
  | empty hp | got hp | refuse hp | giveBack hp | putBack hp =>
    have hg : n.stage = .poll := by simpa [hp, StageOk] using hst
    exact .inl (h.frame rfl rfl rfl rfl hg rfl)
  | polled hp hi =>
    have hg : n.stage = .poll := by simpa [hp, StageOk] using hst
    exact .inr ⟨.next, _, step_next (.poll hg), h.dev, h.owner, h.accs, h.log, h.fin, rfl, h.polls⟩
  | accept hp e => exact h.accept hI (by simpa [hp, StageOk] using hst) e
  | @stage q hp =>
    have hg : n.stage = .serve q := by simpa [hp, StageOk] using hst
    refine .inl (h.frame rfl rfl rfl rfl ⟨hg, ?_⟩ rfl)
    have := (h.dev.places.ring q).cnt
    simp only [List.length_map] at this
    omega
  | skip hp hj e =>
    obtain ⟨j, r, hq⟩ := h.serving hp hj
    have h1 := (h.dev.places.removeHead hq).1
    rw [e] at h1
    cases h1
  | serve hp hj e hd hd' => exact h.serve hI hp hj e hd hd'
  | served hp hj => exact h.served hp hj
  | cq hp =>
    have hg : n.stage = .cq := by simpa [hp, StageOk] using hst
    exact .inl (h.frame rfl rfl rfl rfl hg rfl)
  | done hp e => exact h.done hp e
  | round hp e => exact h.round hI hp e

/-! ### The backend thread and the submitters -/

/-- A move of the backend leaves the queues of the FTL alone. -/
theorem StageOk.be_move {pc : FtlPc} (h : StageOk n pc)
    (hq : ∀ q, (n.move p j).jobs (.queue q) = n.jobs (.queue q)) : StageOk (n.move p j) pc := by
  cases pc with
  | serve q cnt k => exact ⟨h.1, by rw [hq]; exact h.2⟩
  | _ => exact h

theorem Sim.be (h : Sim s n) (hs : beStep s = some s') : Matched s' n := by
  have hdev := h.dev
  cases beStep_cases hs with
  | take hb hp e =>
    rw [hb] at hdev
    obtain ⟨j, r, hq, hsq⟩ := head_job (e ▸ hdev.places.reg)
    have hok := take_ok hdev hq e (move_hist_self (p := .registered)) fun i hi => move_hist_of_ne hi
    refine .inr ⟨.move .registered, n.move .registered j, step_move rfl hq, ?_⟩
    refine h.move hq (hok.perm (live_move hq rfl)) rfl ?_ (fun hk => ?_) (h.stage.be_move fun q => ?_) rfl
    · simp [hsq, Place.kind]
    · cases hk
    · simp [Net.move, pushTo, dest, push_of_ne, pop_of_ne]
  | exec hb =>
    rw [hb] at hdev
    obtain ⟨j, r, hq, hsq⟩ := head_job hdev.places.hand
    have hok := exec_ok hdev hq (move_hist_self (p := .inHand)) fun i hi => move_hist_of_ne hi
    refine .inr ⟨.move .inHand, n.move .inHand j, step_move rfl hq, ?_⟩
    refine h.move hq (hok.perm (live_move hq rfl)) rfl ?_ (fun hk => ?_) (h.stage.be_move fun q => ?_) rfl
    · simp [hsq, Place.kind]
    · cases hk
    · simp [Net.move, pushTo, dest, push_of_ne, pop_of_ne]
  | post hb hp =>
    rw [hb] at hdev
    obtain ⟨j, r, hq, hsq⟩ := head_job hdev.places.done
    have hok := post_ok hdev hq (move_hist_self (p := .executed)) fun i hi => move_hist_of_ne hi
    refine .inr ⟨.move .executed, n.move .executed j, step_move rfl hq, ?_⟩
    refine h.move hq (hok.perm (live_move hq rfl)) rfl ?_ (fun hk => ?_) (h.stage.be_move fun q => ?_) rfl
    · simp [hsq, Place.kind]
    · cases hk
    · simp [Net.move, pushTo, dest, push_of_ne, pop_of_ne]

/-- A submitter works on the shared memory alone. -/
theorem hostStep_frame {k : Host} {a : HostAct} (hs : hostStep s k a = some s') :
    s'.dev = s.dev ∧ s'.be = s.be ∧ s'.accs = s.accs ∧ s'.log = s.log ∧ s'.ftl = s.ftl ∧
      s'.polls = s.polls := by
  cases hostStep_cases hs <;> exact ⟨rfl, rfl, rfl, rfl, rfl, rfl⟩

theorem Sim.host {k : Host} {a : HostAct} (h : Sim s n) (hs : hostStep s k a = some s') : Sim s' n := by
  obtain ⟨h1, h2, h3, h4, h5, h6⟩ := hostStep_frame hs
  exact h.frame h1 h2 h3 h4 (h5 ▸ h.stage) h6

end

theorem sim_init (m : Shm) : Sim (.init m) .init := by
  refine ⟨⟨⟨fun q => rep_init, rfl, rfl, rfl, rfl⟩, ⟨fun i => ?_, ?_, fun i _ => rfl⟩, ?_, ?_, fun k => ?_⟩,
    ?_, rfl, rfl, ?_, rfl, rfl⟩
  · rw [show (Sys.init m).dev.hcl = initHostCmdEntryQueue from rfl, bit_init]
    simp [Net.live, Net.init, tokens]
  · simp [Net.live, Net.init, tokens]
  · simp [outstanding, Sys.init, Dev.init, BePc.inHand, BePc.executed]
  · simp [outstanding, Sys.init, Dev.init, BePc.inHand, BePc.executed]
  · rw [show (Sys.init m).dev.fcl = initHwQueue from rfl, sqBit_init]
    simp [outstanding, Sys.init, Dev.init, BePc.inHand, BePc.executed]
  · simp [Net.live, Net.init, tokens]
  · simp [Sys.init]

/-- **The emulator refines the job network.** -/
theorem sim (mb : BitVec 32) : (sys mb).Simulation net Sim where
  init := by
    intro s hstart
    obtain ⟨m, -, rfl⟩ := hstart
    exact ⟨.init, rfl, sim_init m⟩
  step := by
    intro s n l s' hr h hs
    have hI := inv_reachable hr
    cases l with
    | host k a => exact .inl (h.host hs)
    | ftl => exact h.ftl hI hs
    | be => exact h.be hs

/-- Every reachable state of the emulator is a state of the network in which
the three invariants hold. -/
theorem reachable_sim {mb : BitVec 32} {s : Sys} (hr : (sys mb).Reachable s) : ∃ n, Inv n ∧ Sim s n := by
  obtain ⟨n, hn, h⟩ := (sim mb).reachable s hr
  exact ⟨n, inv_reachable hn, h⟩

end OpenSSDEmu.L4.Pipeline
