import OpenSSDEmu.L4Pipeline.Jobs

/-!
# The order of submissions

Reads go from the cache check straight to submission, writes by way of the
data move, and the queues are served in a fixed order, each until it is
empty. So submissions leave call by call of `FTL_nvme_req_polling`, and the
reads of a call before its writes: in the order of `Job.key`.

* `order_inv`: what was submitted, followed by what still waits to be, is
  sorted by key at all times. A move changes where a job waits and not its
  position in that list (`move_seq`); only an acceptance does.
* `Inv.send_before`, `Inv.exec_before`: a write is submitted, and executed,
  before a read exactly if an earlier call accepted it.
-/
namespace OpenSSDEmu.L4.Jobs
open L2.Hcl (Status HCMD_NUM)
open OpenSSDEmu.Flow

/-- Call `k` of `FTL_nvme_req_polling` accepts; its reads are submitted in
pass `k`, its writes, which go through the data move first, in pass `k + 1`. -/
def Job.key (j : Job) : Nat := 2 * j.poll + if j.isWrite then 1 else 0

theorem Job.key_le (j : Job) : 2 * j.poll ≤ j.key ∧ j.key ≤ 2 * j.poll + 1 := by
  unfold Job.key; split <;> omega

theorem Job.key_write {j : Job} (h : j.isWrite = true) : j.key = 2 * j.poll + 1 := by simp [Job.key, h]

theorem Job.key_read {j : Job} (h : j.isRead = true) : j.key = 2 * j.poll := by
  have hw : ¬ j.isWrite = true := fun e => j.not_both ⟨e, h⟩
  simp [Job.key, hw]

/-- The jobs that went through an event, in that order. -/
def Net.through (n : Net) (k : Kind) : List Job := (n.log.filter fun e => e.1 = k).map Prod.snd

/-- The jobs not submitted yet, in the order they will be. -/
def Net.pending (n : Net) : List Job :=
  n.jobs (.queue .toSq) ++ (n.jobs (.queue .checkCache)).filter Job.isRead ++
    (n.jobs (.queue .dataMoved)).filter Job.isWrite ++
    (n.jobs (.queue .checkCache)).filter Job.isWrite

def Stage.rank : Stage → Nat
  | .poll => 0
  | .serve .checkCache => 1
  | .serve .toSq => 2
  | .serve .dataMoved => 3
  | .serve .fromCq => 4
  | .serve .finish => 5
  | .serve .waitCq => 5
  | .cq => 6

structure Ordered (n : Net) : Prop where
  sorted : Sorted Job.key (n.through .send ++ n.pending)
  fifo : n.through .exec ++ n.jobs .inHand ++ n.jobs .registered = n.through .send
  checked : 2 ≤ n.stage.rank → n.jobs (.queue .checkCache) = []
  moved : n.stage.rank = 0 ∨ 4 ≤ n.stage.rank → (n.jobs (.queue .dataMoved)).filter Job.isWrite = []
  polls : ∀ j ∈ n.accepted, j.poll ≤ n.polls
  old : n.stage = .poll → ∀ j ∈ n.through .send ++ n.jobs (.queue .toSq), j.poll < n.polls
  new : n.stage = .poll → ∀ j ∈ n.jobs (.queue .checkCache), j.poll = n.polls

section
variable {n : Net} {p : Place} {j : Job} {r : List Job}

theorem through_append (m : Net) (k k' : Kind) (h : m.log = n.log ++ [(k', j)]) :
    m.through k = n.through k ++ if k' = k then [j] else [] := by
  by_cases e : k' = k <;> simp [Net.through, h, e]

theorem mem_through {k : Kind} : j ∈ n.through k ↔ (k, j) ∈ n.log := by
  simp only [Net.through, List.mem_map, List.mem_filter, decide_eq_true_eq]
  constructor
  · rintro ⟨⟨k', i⟩, ⟨he, rfl⟩, rfl⟩; exact he
  · exact fun h => ⟨(k, j), ⟨h, rfl⟩, rfl⟩

theorem Job.Done.known {w k : Nat} {h : List Kind} (hd : j.Done w k h) :
    j.isWrite = true ∨ j.isRead = true := hd.imp And.left And.left

/-- Moving a job changes where it waits, not the order of submissions. -/
theorem move_seq (hT : Tracked n) (h : Ordered n) (ha : n.stage.allows p = true)
    (hp : n.jobs p = j :: r) :
    (n.move p j).through .send ++ (n.move p j).pending = n.through .send ++ n.pending := by
  have hat := (hT.here p j (by simp [hp])).2.at
  have hb := j.not_both
  rw [through_append (n := n) (j := j) (n.move p j) .send p.kind rfl]
  cases p with
  | queue s =>
    have hs : n.stage = .serve s := by simpa [Stage.allows] using ha
    have hc := h.checked
    cases s with
    | dataMoved =>
      -- a command of neither kind never gets here
      rcases hat.1.known with hk | hk <;> cases hw : j.isWrite <;>
        simp_all [Net.pending, Net.move, pushTo, dest, Place.kind, push, pop, Function.update,
          Stage.rank]
    | _ =>
      cases hw : j.isWrite <;> cases hr : j.isRead <;>
        simp_all [Net.pending, Net.move, pushTo, dest, Place.kind, push, pop, Function.update]
  | _ =>
    cases hq : decide (j.reqNum = 1) <;>
      simp_all [Net.pending, Net.move, pushTo, dest, Place.kind, push, pop, Function.update]

theorem move_fifo (h : Ordered n) (ha : n.stage.allows p = true) (hp : n.jobs p = j :: r) :
    (n.move p j).through .exec ++ (n.move p j).jobs .inHand ++ (n.move p j).jobs .registered =
      (n.move p j).through .send := by
  rw [through_append (n := n) (j := j) (n.move p j) .send p.kind rfl,
    through_append (n := n) (j := j) (n.move p j) .exec p.kind rfl, ← h.fifo]
  cases p with
  | queue s =>
    cases s <;> cases hw : j.isWrite <;> cases hr : j.isRead <;>
      simp_all [Net.move, pushTo, dest, Place.kind, push, pop, Function.update]
  | _ =>
    cases hq : decide (j.reqNum = 1) <;>
      simp_all [Net.move, pushTo, dest, Place.kind, push, pop, Function.update, Stage.allows]

theorem pending_accepted (hT : Tracked n) : ∀ i ∈ n.through .send ++ n.pending, i ∈ n.accepted := by
  intro i hi
  simp only [Net.pending, List.mem_append, List.mem_filter, mem_through] at hi
  rcases hi with hi | ((hi | hi) | hi) | hi
  · exact hT.known _ hi
  · exact (hT.here _ i hi).1
  · exact (hT.here _ i hi.1).1
  · exact (hT.here _ i hi.1).1
  · exact (hT.here _ i hi.1).1

/-- A new read is submitted after the reads of its call and before the writes
of it, a new write after all of them. -/
theorem accept_sorted (hT : Tracked n) (h : Ordered n) (hs : n.stage = .poll)
    (hj : j.poll = n.polls) : Sorted Job.key (n.through .send ++ (n.accept j).pending) := by
  have hd : (n.jobs (.queue .dataMoved)).filter Job.isWrite = [] :=
    h.moved (.inl (by simp [hs, Stage.rank]))
  have hb := j.not_both
  cases hw : j.isWrite with
  | true =>
    have hr : j.isRead = false := by simpa [hw] using hb
    have he : (n.accept j).pending = n.pending ++ [j] := by
      simp [Net.pending, Net.accept, push, Function.update, hd, hw, hr]
    rw [he, ← List.append_assoc]
    refine Sorted.insert (by simpa using h.sorted) (fun a ha => ?_) (by simp)
    have := h.polls a (pending_accepted hT a ha)
    have := a.key_le
    rw [Job.key_write hw]; omega
  | false =>
    cases hr : j.isRead with
    | false =>
      have he : (n.accept j).pending = n.pending := by
        simp [Net.pending, Net.accept, push, Function.update, hw, hr]
      rw [he]; exact h.sorted
    | true =>
      have hpend : n.pending = n.jobs (.queue .toSq) ++
          (n.jobs (.queue .checkCache)).filter Job.isRead ++
          (n.jobs (.queue .checkCache)).filter Job.isWrite := by simp [Net.pending, hd]
      have he : (n.accept j).pending = n.jobs (.queue .toSq) ++
          (n.jobs (.queue .checkCache)).filter Job.isRead ++
          j :: (n.jobs (.queue .checkCache)).filter Job.isWrite := by
        simp [Net.pending, Net.accept, push, Function.update, hd, hw, hr]
      have hsort := h.sorted
      rw [hpend, ← List.append_assoc] at hsort
      rw [he, ← List.append_assoc]
      refine Sorted.insert hsort (fun a ha => ?_) fun b hb => ?_
      · rw [Job.key_read hr]
        rw [← List.append_assoc] at ha
        rcases List.mem_append.mp ha with ha | ha
        · have := h.old hs a ha
          have := a.key_le
          omega
        · obtain ⟨ha, hk⟩ := List.mem_filter.mp ha
          rw [Job.key_read hk, h.new hs a ha, hj]
      · obtain ⟨hb, hk⟩ := List.mem_filter.mp hb
        rw [Job.key_read hr, Job.key_write hk, h.new hs b hb]; omega

theorem Ordered.accept (hT : Tracked n) (h : Ordered n) (hs : n.stage = .poll)
    (hj : j.poll = n.polls) : Ordered (n.accept j) := by
  have hsend : (n.accept j).through .send = n.through .send := by
    simpa using through_append (n := n) (j := j) (n.accept j) .send .accept rfl
  have hexec : (n.accept j).through .exec = n.through .exec := by
    simpa using through_append (n := n) (j := j) (n.accept j) .exec .accept rfl
  refine ⟨?_, ?_, ?_, ?_, ?_, ?_, ?_⟩
  · rw [hsend]
    exact accept_sorted hT h hs hj
  · rw [hexec, hsend, ← h.fifo]
    simp [Net.accept, push, Function.update]
  · intro hr; simp [Net.accept, hs, Stage.rank] at hr
  · intro hr; simpa [Net.accept, push, Function.update] using h.moved hr
  · intro i hi
    rcases List.mem_append.mp hi with hi | hi
    · exact h.polls i hi
    · rw [List.mem_singleton.mp hi, hj]; exact Nat.le_refl _
  · intro _
    rw [hsend]
    simpa [Net.accept, push, Function.update] using h.old hs
  · intro _ i hi
    simp only [Net.accept, mem_push] at hi
    rcases hi with hi | ⟨-, rfl⟩
    · exact h.new hs i hi
    · exact hj

/-- A job that is at `q` after a move was there before, or it is the one
that moved. -/
theorem mem_move_old {q : Place} {i : Job} (h : i ∈ (n.move p j).jobs q) :
    i ∈ n.jobs q ∨ (dest j p = some q ∧ i = j) := (mem_move h).imp_left mem_of_mem_pop

theorem dest_ne_checkCache : dest j p ≠ some (.queue .checkCache) := by
  cases p with
  | queue s => cases s <;> simp only [dest] <;> (try split) <;> (try split) <;> simp
  | completed => simp only [dest]; split <;> simp
  | _ => simp [dest]

theorem dest_dataMoved (h : dest j p = some (.queue .dataMoved)) (hw : j.isWrite = true) :
    p = .queue .checkCache := by
  cases p with
  | queue s => cases s <;> cases hr : j.isRead <;> simp_all [dest]
  | completed => simp only [dest] at h; split at h <;> simp at h
  | _ => simp [dest] at h

/-- While commands are accepted only the backend moves anything. -/
theorem allows_poll (h : Stage.allows .poll p = true) :
    p.kind ≠ .send ∧ dest j p ≠ some (.queue .toSq) := by
  cases p with
  | queue s => cases s <;> simp [Stage.allows] at h
  | completed => simp [Stage.allows] at h
  | _ => exact ⟨by decide, by simp [dest]⟩

theorem Ordered.move (hT : Tracked n) (h : Ordered n) (ha : n.stage.allows p = true)
    (hp : n.jobs p = j :: r) : Ordered (n.move p j) := by
  refine ⟨move_seq hT h ha hp ▸ h.sorted, move_fifo h ha hp, fun hr => ?_, fun hr => ?_, h.polls,
    fun hs i hi => ?_, fun hs i hi => ?_⟩
  · refine List.eq_nil_iff_forall_not_mem.mpr fun i hi => ?_
    rcases mem_move_old hi with hi | ⟨hd, -⟩
    · rw [h.checked hr] at hi; cases hi
    · exact dest_ne_checkCache hd
  · refine List.filter_eq_nil_iff.mpr fun i hi hw => ?_
    rcases mem_move_old hi with hi | ⟨hd, rfl⟩
    · exact List.filter_eq_nil_iff.mp (h.moved hr) i hi hw
    · have hg : n.stage = .serve .checkCache := by
        simpa [Stage.allows, dest_dataMoved hd hw] using ha
      simp [Net.move, hg, Stage.rank] at hr
  · have hg : n.stage = .poll := hs
    rw [hg] at ha
    obtain ⟨hk, hd⟩ := allows_poll (j := j) ha
    rw [through_append (n := n) (j := j) (n.move p j) .send p.kind rfl, if_neg hk,
      List.append_nil] at hi
    refine h.old hg i (List.mem_append.mpr ((List.mem_append.mp hi).imp_right fun hi => ?_))
    exact (mem_move_old hi).resolve_right fun e => hd e.1
  · exact h.new hs i ((mem_move_old hi).resolve_right fun e => dest_ne_checkCache e.1)

theorem Ordered.advance {g : Stage} {k : Nat} (hT : Tracked n) (h : Ordered n) (ha : Advance n g k) :
    Ordered { n with stage := g, polls := k } := by
  cases ha with
  | poll hs =>
    exact ⟨h.sorted, h.fifo, by simp [Stage.rank], by simp [Stage.rank], h.polls, by simp, by simp⟩
  | @serve s hs he =>
    have hc := h.checked
    have hm := h.moved
    cases s <;>
      exact ⟨h.sorted, h.fifo, by simp_all [Stage.after, Stage.rank],
        by simp_all [Stage.after, Stage.rank], h.polls, by simp [Stage.after], by simp [Stage.after]⟩
  | cq hs he =>
    have hc := h.checked (by simp [hs, Stage.rank])
    refine ⟨h.sorted, h.fifo, by simp [Stage.rank], fun _ => h.moved (by simp [hs, Stage.rank]),
      fun i hi => Nat.le_succ_of_le (h.polls i hi), fun _ i hi => Nat.lt_succ_of_le (h.polls i ?_), ?_⟩
    · refine pending_accepted hT i ?_
      rcases List.mem_append.mp hi with hi | hi
      · exact List.mem_append_left _ hi
      · simp [Net.pending, hi]
    · simp [hc]

end

/-- **Submissions leave in the order of their keys.** -/
theorem order_inv : net.InductiveUnder Tracked Ordered where
  init := by
    intro n heq
    subst heq
    refine ⟨?_, ?_, ?_, ?_, ?_, ?_, ?_⟩ <;> simp [Net.init, Net.through, Net.pending, Sorted]
  step := by
    intro n l n' hT h hs
    obtain ⟨j, hg, -, -, -, hj, rfl⟩ | ⟨p, j, r, ha, hp, rfl⟩ | ⟨g, k, ha, rfl⟩ := step_cases hs
    · exact h.accept hT hg hj
    · exact h.move hT ha hp
    · exact h.advance hT ha

/-- The three invariants together. -/
structure Inv (n : Net) : Prop where
  live : Live n
  tracked : Tracked n
  ordered : Ordered n

theorem inv_reachable {n : Net} (h : net.Reachable n) : Inv n := by
  have hL := live_inv.reachable
  have hT := path_inv.reachable hL
  exact ⟨hL n h, hT n h, order_inv.reachable hT n h⟩

section
variable {n : Net} {w r : Job} {pre post : List (Kind × Job)}

theorem mem_hist {k : Kind} : k ∈ n.hist w ↔ (k, w) ∈ n.log := by
  simp only [Net.hist, List.mem_map, List.mem_filter, decide_eq_true_eq]
  constructor
  · rintro ⟨⟨k', i⟩, ⟨he, rfl⟩, rfl⟩; exact he
  · exact fun h => ⟨(k, w), ⟨h, rfl⟩, rfl⟩

theorem Job.Done.sent {a b : Nat} {h : List Kind} (hd : w.Done a b h) (ha : 4 ≤ a) (hb : 3 ≤ b) :
    .send ∈ h := by
  rcases hd with ⟨-, rfl⟩ | ⟨-, rfl⟩
  · exact List.take_subset_take_left _ ha (by decide)
  · exact List.take_subset_take_left _ hb (by decide)

/-- A read or write that was not submitted yet is on its way to be. -/
theorem Inv.send_or_pending (h : Inv n) (hw : w ∈ n.accepted)
    (hk : w.isWrite = true ∨ w.isRead = true) : w ∈ n.through .send ++ n.pending := by
  have hsent : .send ∈ n.hist w → w ∈ n.through .send ++ n.pending := fun hm =>
    List.mem_append_left _ (mem_through.mpr (mem_hist.mp hm))
  rcases h.tracked.gone w hw with ⟨p, hp⟩ | hp
  · have hat := (h.tracked.here p w hp).2.at
    match p with
    | .queue .checkCache =>
      refine List.mem_append_right _ ?_
      rcases hk with hk | hk <;> simp [Net.pending, hp, hk]
    | .queue .toSq => simp [Net.pending, hp]
    | .queue .dataMoved =>
      rcases hat.1 with ⟨hk, -⟩ | ⟨-, e⟩
      · simp [Net.pending, hp, hk]
      · exact hsent (by rw [e]; decide)
    | .queue .fromCq | .queue .finish => exact hsent (hat.1.sent (by decide) (by decide))
    | .queue .waitCq => exact absurd hat id
    | .registered | .inHand | .executed | .completed =>
      exact hsent (Job.Done.sent hat (by decide) (by decide))
    | .stranded =>
      rcases hat with ⟨h1, h2, -⟩ | ⟨hd, -⟩
      · simp [h1, h2] at hk
      · exact hsent (hd.sent (by decide) (by decide))
  · exact hsent (hp.at.1.sent (by decide) (by decide))

theorem through_split {k : Kind} {j : Job} (hl : n.log = pre ++ (k, j) :: post) :
    n.through k = (pre.filter fun e => e.1 = k).map Prod.snd ++
      j :: (post.filter fun e => e.1 = k).map Prod.snd := by
  simp [Net.through, hl]

/-- A write precedes a read, in a list in submission order, exactly if an
earlier call accepted it. -/
theorem Inv.before_iff {front back : List Job} (h : Inv n)
    (hl : n.through .send ++ n.pending = front ++ r :: back) (hw : w ∈ n.accepted)
    (hkw : w.isWrite = true) (hkr : r.isRead = true) : w ∈ front ↔ w.poll < r.poll := by
  have hm := h.send_or_pending hw (.inl hkw)
  have hs := h.ordered.sorted
  have ew := Job.key_write hkw
  have er := Job.key_read hkr
  rw [hl] at hm hs
  rw [hs.mem_left_iff hm (by omega), ew, er]
  omega

/-- **Submission order.** -/
theorem Inv.send_before (h : Inv n) (hl : n.log = pre ++ (.send, r) :: post) (hw : w ∈ n.accepted)
    (hkw : w.isWrite = true) (hkr : r.isRead = true) :
    (.send, w) ∈ pre ↔ w.poll < r.poll := by
  rw [← h.before_iff (by rw [through_split hl, List.append_assoc, List.cons_append]) hw hkw hkr]
  simp

/-- **Execution order**: the backend takes what was submitted first. -/
theorem Inv.exec_before (h : Inv n) (hl : n.log = pre ++ (.exec, r) :: post) (hw : w ∈ n.accepted)
    (hkw : w.isWrite = true) (hkr : r.isRead = true) :
    (.exec, w) ∈ pre ↔ w.poll < r.poll := by
  have he : n.through .send ++ n.pending = (pre.filter fun e => e.1 = .exec).map Prod.snd ++
      r :: ((post.filter fun e => e.1 = .exec).map Prod.snd ++ n.jobs .inHand ++
        n.jobs .registered ++ n.pending) := by
    rw [← h.ordered.fifo, through_split hl]; simp
  rw [← h.before_iff he hw hkw hkr]
  simp

end

end OpenSSDEmu.L4.Jobs
