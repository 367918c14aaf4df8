import OpenSSDEmu.L4Pipeline.Protocol

/-!
# Commands of one kind stay in order

All writes go through the same places one after the other, and so do all
reads. Along such a line of places, from an event back to the acceptance, a
command that moves keeps its position, and one that is stranded drops out
(`Line.move`). So the writes that went through the event, followed by those
further back on the line, are always a subsequence of the acceptances
(`line_inv`).

* `same_kind_order`: among writes, and among reads, submissions, executions
  and completions are subsequences of the acceptances.
-/
namespace OpenSSDEmu.L4.Jobs
open L2.Hcl (Status HCMD_NUM)
open OpenSSDEmu.Flow

/-- The jobs that satisfy `g` go from place to place of `line`, right to left,
from the acceptance to the event `k` that happens when they leave `front`. -/
structure Line (g : Job → Bool) (k : Kind) (front : Place) (line : List Place) : Prop where
  nodup : (front :: line).Nodup
  entry : ∃ a, front :: line = a ++ [.queue .checkCache]
  event : ∀ p, p ≠ .queue .waitCq → (p.kind = k ↔ p = front)
  next : ∀ j p q, g j = true → dest j p = some q → q ∈ front :: line → [q, p] <:+: front :: line
  accept : k ≠ .accept

/-- Those that went through the event and those further back. -/
def Net.along (n : Net) (g : Job → Bool) (k : Kind) (ps : List Place) : List Job :=
  (n.through k).filter g ++ tokens ps (sel g n.jobs)

section
variable {n : Net} {g : Job → Bool} {k : Kind} {front p : Place} {line : List Place} {j : Job}
  {rest : List Job}

theorem Line.accept_along (h : Line g k front line)
    (hs : (n.along g k (front :: line)).Sublist n.accepted) :
    ((n.accept j).along g k (front :: line)).Sublist (n.accept j).accepted := by
  obtain ⟨a, ha⟩ := h.entry
  have hn := h.nodup
  have hth : (n.accept j).through k = n.through k := by
    simpa [h.accept.symm] using through_append (n := n) (j := j) (n.accept j) k .accept rfl
  unfold Net.along at hs ⊢
  rw [hth, ha]
  rw [ha] at hs hn
  show (_ ++ tokens _ (sel g (push n.jobs (.queue .checkCache) j))).Sublist (n.accepted ++ [j])
  cases hg : g j with
  | true =>
    rw [sel_push hg, tokens_push_last hn, ← List.append_assoc]
    exact hs.append (List.Sublist.refl _)
  | false =>
    rw [sel_push_of_not hg]
    exact hs.trans (List.sublist_append_left _ _)

theorem sel_move (hp : n.jobs p = j :: rest) (hg : g j = true) :
    sel g (n.move p j).jobs = pushTo (pop (sel g n.jobs) p) (dest j p) j := by
  show sel g (pushTo (pop n.jobs p) (dest j p) j) = _
  unfold pushTo
  split
  · exact sel_pop hp hg
  · rw [sel_push hg, sel_pop hp hg]

theorem sel_move_of_not (hp : n.jobs p = j :: rest) (hg : g j = false) :
    sel g (n.move p j).jobs = sel g n.jobs := by
  show sel g (pushTo (pop n.jobs p) (dest j p) j) = _
  unfold pushTo
  split
  · exact sel_pop_of_not hp hg
  · rw [sel_push_of_not hg, sel_pop_of_not hp hg]

/-- What moves up along the line is not at its front yet. -/
theorem Line.ne_front {q : Place} (h : Line g k front line) (hi : [q, p] <:+: front :: line) :
    p ≠ front := by
  obtain ⟨a, b, hl⟩ := hi
  have hn := List.nodup_cons.mp h.nodup
  intro e
  refine hn.1 ?_
  cases a with
  | nil =>
    obtain ⟨-, rfl⟩ := List.cons.inj hl
    simp [e]
  | cons c a =>
    obtain ⟨-, rfl⟩ := List.cons.inj hl
    simp [e]

/-- A move keeps the order along the line. -/
theorem Line.move_along (h : Line g k front line) (hw : p ≠ .queue .waitCq)
    (hp : n.jobs p = j :: rest) :
    ((n.move p j).along g k (front :: line)).Sublist (n.along g k (front :: line)) := by
  unfold Net.along
  rw [through_append (n := n) (j := j) (n.move p j) k p.kind rfl, List.filter_append]
  cases hg : g j with
  | false =>
    have hnil : (if p.kind = k then [j] else []).filter g = [] := by split <;> simp [hg]
    rw [sel_move_of_not hp hg, hnil, List.append_nil]
  | true =>
    have hx : sel g n.jobs p = j :: rest.filter g := by simp [sel, hp, hg]
    have hself : (if p.kind = k then [j] else []).filter g = if p.kind = k then [j] else [] := by
      split <;> simp [hg]
    rw [hself, sel_move hp hg]
    by_cases hq : ∃ q, dest j p = some q ∧ q ∈ front :: line
    · -- up by one place
      obtain ⟨q, hd, hq⟩ := hq
      have hi := h.next j p q hg hd hq
      rw [if_neg (mt (h.event p hw).mp (h.ne_front hi)), hd, List.append_nil]
      obtain ⟨a, b, hl⟩ := hi
      have hl' : front :: line = a ++ q :: p :: b := by simpa using hl.symm
      have hn := h.nodup
      rw [hl'] at hn ⊢
      show (_ ++ tokens _ (push _ q j)).Sublist _
      rw [tokens_advance hn hx]
    · -- out, at the front or by being stranded
      have hout : tokens (front :: line) (pushTo (pop (sel g n.jobs) p) (dest j p) j) =
          tokens (front :: line) (pop (sel g n.jobs) p) := by
        unfold pushTo
        split
        · rfl
        · rename_i q hd
          exact tokens_push_of_notMem fun hin => hq ⟨q, hd, hin⟩
      rw [hout]
      by_cases hk : p.kind = k
      · obtain rfl := (h.event p hw).mp hk
        rw [if_pos hk, List.append_assoc, List.singleton_append, tokens_pop_head h.nodup hx]
      · rw [if_neg hk, List.append_nil]
        exact (List.Sublist.refl _).append tokens_pop_sublist

/-- **Along a line the order is that of the acceptances.** -/
theorem line_inv (h : Line g k front line) :
    net.InductiveUnder Tracked fun n => (n.along g k (front :: line)).Sublist n.accepted where
  init := by
    intro n heq
    subst heq
    simp [Net.along, Net.init, Net.through, tokens, sel]
  step := by
    intro n l n' hT hs hstep
    obtain ⟨j, -, -, -, -, -, rfl⟩ | ⟨p, j, r, -, hp, rfl⟩ | ⟨s, c, -, rfl⟩ := step_cases hstep
    · exact h.accept_along hs
    · have hw : p ≠ .queue .waitCq := by
        intro e
        subst e
        exact (hT.here _ j (by rw [hp]; exact List.mem_cons_self)).2.at
      exact (h.move_along hw hp).trans hs
    · exact hs

end

/-! ## The two lines -/

def writeLine : List Place :=
  [.queue .finish, .queue .fromCq, .completed, .executed, .inHand, .registered, .queue .toSq,
    .queue .dataMoved, .queue .checkCache]

def readLine : List Place :=
  [.queue .finish, .queue .dataMoved, .queue .fromCq, .completed, .executed, .inHand, .registered,
    .queue .toSq, .queue .checkCache]

/-- Two neighbours of a line without repetitions are neighbours in every
suffix that has the first of them. -/
theorem infix_suffix {p q : Place} {part whole : List Place} (hn : whole.Nodup) (hs : part <:+ whole)
    (hq : q ∈ part) (hi : [q, p] <:+: whole) : [q, p] <:+: part := by
  obtain ⟨c, rfl⟩ := hs
  obtain ⟨a, b, hl⟩ := hi
  rw [List.append_assoc] at hl
  rcases List.append_eq_append_iff.mp hl with ⟨e, rfl, he⟩ | ⟨e, -, he⟩
  · cases e with
    | nil => exact ⟨[], b, by simpa using he⟩
    | cons x e =>
      -- `q` would be in front of the suffix as well
      obtain ⟨rfl, -⟩ := List.cons.inj he
      exact absurd rfl ((List.nodup_append.mp hn).2.2 q (by simp) q hq)
  · exact ⟨e, b, by simp [he]⟩

theorem dest_write {j : Job} {p q : Place} (hw : j.isWrite = true) (hd : dest j p = some q) :
    q = .stranded ∨ [q, p] <:+: writeLine := by
  have hr : j.isRead = false := by
    have := j.not_both
    simpa [hw] using this
  cases p with
  | queue s => cases s <;> simp [dest, hw, hr] at hd <;> subst hd <;> decide
  | completed =>
    simp only [dest] at hd
    split at hd <;> cases hd <;> decide
  | _ => cases hd; decide

theorem dest_read {j : Job} {p q : Place} (hr : j.isRead = true) (hd : dest j p = some q) :
    q = .stranded ∨ [q, p] <:+: readLine := by
  have hw : j.isWrite = false := by
    have := j.not_both
    simpa [hr] using this
  cases p with
  | queue s => cases s <;> simp [dest, hw, hr] at hd <;> subst hd <;> decide
  | completed =>
    simp only [dest] at hd
    split at hd <;> cases hd <;> decide
  | _ => cases hd; decide

/-- A line is cut at the place whose event is looked at. -/
theorem line_of_suffix {g : Job → Bool} {k : Kind} {front : Place} {line whole : List Place}
    (hd : ∀ j p q, g j = true → dest j p = some q → q = .stranded ∨ [q, p] <:+: whole)
    (hn : whole.Nodup) (hs : front :: line <:+ whole) (hstr : .stranded ∉ whole)
    (hentry : [.queue .checkCache] <:+ front :: line) (hk : k ≠ .accept)
    (hevent : ∀ p ∈ places, p ≠ .queue .waitCq → (p.kind = k ↔ p = front)) :
    Line g k front line := by
  refine ⟨hs.sublist.nodup hn, ?_, fun p => hevent p (mem_places p), fun j p q hg hdest hq => ?_, hk⟩
  · obtain ⟨a, ha⟩ := hentry
    exact ⟨a, ha.symm⟩
  · refine infix_suffix hn hs hq ((hd j p q hg hdest).resolve_left fun e => ?_)
    exact hstr (hs.subset (e ▸ hq))

theorem line_write {k : Kind} {front : Place} {line : List Place} (hs : front :: line <:+ writeLine)
    (hentry : [.queue .checkCache] <:+ front :: line) (hk : k ≠ .accept)
    (hevent : ∀ p ∈ places, p ≠ .queue .waitCq → (p.kind = k ↔ p = front)) :
    Line Job.isWrite k front line :=
  line_of_suffix (fun _ _ _ => dest_write) (by decide) hs (by decide) hentry hk hevent

theorem line_read {k : Kind} {front : Place} {line : List Place} (hs : front :: line <:+ readLine)
    (hentry : [.queue .checkCache] <:+ front :: line) (hk : k ≠ .accept)
    (hevent : ∀ p ∈ places, p ≠ .queue .waitCq → (p.kind = k ↔ p = front)) :
    Line Job.isRead k front line :=
  line_of_suffix (fun _ _ _ => dest_read) (by decide) hs (by decide) hentry hk hevent

/-- The events whose order is looked at: submission, execution, completion. -/
def orderedKinds : List Kind := [.send, .exec, .finish]

theorem write_line {k : Kind} (hk : k ∈ orderedKinds) : ∃ front line, Line Job.isWrite k front line := by
  simp only [orderedKinds, List.mem_cons, List.not_mem_nil, or_false] at hk
  rcases hk with rfl | rfl | rfl
  · exact ⟨.queue .toSq, writeLine.drop 7, line_write (by decide) (by decide) (by decide) (by decide)⟩
  · exact ⟨.inHand, writeLine.drop 5, line_write (by decide) (by decide) (by decide) (by decide)⟩
  · exact ⟨.queue .finish, writeLine.drop 1, line_write (by decide) (by decide) (by decide) (by decide)⟩

theorem read_line {k : Kind} (hk : k ∈ orderedKinds) : ∃ front line, Line Job.isRead k front line := by
  simp only [orderedKinds, List.mem_cons, List.not_mem_nil, or_false] at hk
  rcases hk with rfl | rfl | rfl
  · exact ⟨.queue .toSq, readLine.drop 8, line_read (by decide) (by decide) (by decide) (by decide)⟩
  · exact ⟨.inHand, readLine.drop 6, line_read (by decide) (by decide) (by decide) (by decide)⟩
  · exact ⟨.queue .finish, readLine.drop 1, line_read (by decide) (by decide) (by decide) (by decide)⟩

/-- Jobs on a line go through its event in the order of acceptance. -/
theorem Line.through_sublist {n : Net} {g : Job → Bool} {k : Kind} {front : Place} {line : List Place}
    (h : Line g k front line) (hr : net.Reachable n) : ((n.through k).filter g).Sublist n.accepted :=
  (List.sublist_append_left _ _).trans
    ((line_inv h).reachable (fun _ hr => (inv_reachable hr).tracked) n hr)

end OpenSSDEmu.L4.Jobs

namespace OpenSSDEmu.L4.Pipeline
open L2.Shmem
open Jobs hiding step Lbl

/-- The jobs of the events of one kind, in order. -/
def Sys.sequence (s : Sys) (k : Kind) : List (Option Job) :=
  (s.log.filter fun e => e.kind = k).map Ev.job

section
variable {mb : BitVec 32} {s : Sys} {n : Net}

theorem Sim.sequence (h : Sim s n) (k : Kind) : s.sequence k = (n.through k).map some := by
  have h1 : s.sequence k =
      ((s.log.map fun e => (e.kind, e.job)).filter fun e => e.1 = k).map Prod.snd := by
    simp [Sys.sequence, List.filter_map, Function.comp_def]
  rw [h1, h.log]
  simp [Net.through, List.filter_map, Function.comp_def]

/-- Commands of one kind stay in order: in every run, among the writes, and
among the reads, the requests are sent, executed by `be()` and finished in
the order in which their commands were accepted. -/
theorem same_kind_order (hr : (sys mb).Reachable s) {k : Kind} (hk : k ∈ orderedKinds) :
    ∃ js : List Job, s.sequence k = js.map some ∧
      (js.filter Job.isWrite).Sublist (s.accs.map Acc.toJob) ∧
      (js.filter Job.isRead).Sublist (s.accs.map Acc.toJob) ∧
      (s.accs.map Acc.toJob).Nodup := by
  obtain ⟨n, hn, h⟩ := (sim mb).reachable s hr
  obtain ⟨f, l, hw⟩ := write_line hk
  obtain ⟨f', l', hr'⟩ := read_line hk
  refine ⟨n.through k, h.sequence k, ?_, ?_, ?_⟩
  · rw [h.accs]
    exact hw.through_sublist hn
  · rw [h.accs]
    exact hr'.through_sublist hn
  · rw [h.accs]
    exact (inv_reachable hn).tracked.accepted_nodup

end

/-- Two writes and two reads by turns, from their submission to their end. -/
def mixedSchedule : List Lbl :=
  submit 0 ⟨SHM_WRITE_OPS, 20, 16384⟩ ++ submit 1 ⟨SHM_READ_OPS, 20, 16384⟩ ++
    submit 0 ⟨SHM_WRITE_OPS, 40, 16384⟩ ++ submit 1 ⟨SHM_READ_OPS, 60, 16384⟩ ++
    List.replicate 52 .ftl ++ List.replicate 12 .be ++ List.replicate 70 .ftl

/-- All four are sent, executed and finished, each kind in its order. -/
theorem same_kind_order_mixed : ∃ s, (sys 0).Reachable s ∧ s.accs.length = 4 ∧
    ∀ k ∈ orderedKinds, ∃ js : List Job, s.sequence k = js.map some ∧ js.length = 4 ∧
      (js.filter Job.isWrite).Sublist (s.accs.map Acc.toJob) ∧
      (js.filter Job.isRead).Sublist (s.accs.map Acc.toJob) := by
  obtain ⟨s, hr, hs⟩ := exists_run 0
    (P := fun s => decide (s.accs.length = 4) && orderedKinds.all fun k => decide ((s.sequence k).length = 4))
    mixedSchedule (by decide +kernel)
  simp only [Bool.and_eq_true, List.all_eq_true, decide_eq_true_eq] at hs
  refine ⟨s, hr, hs.1, fun k hk => ?_⟩
  obtain ⟨js, he, hw, hrd, -⟩ := same_kind_order hr hk
  have hlen := hs.2 k hk
  rw [he, List.length_map] at hlen
  exact ⟨js, he, hlen, hw, hrd⟩

end OpenSSDEmu.L4.Pipeline
