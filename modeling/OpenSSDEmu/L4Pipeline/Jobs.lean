import OpenSSDEmu.Core.Flow
import OpenSSDEmu.Core.LTS
import OpenSSDEmu.L2Machine.Hcl
import OpenSSDEmu.L2Machine.Shmem

/-!
# The pipeline as jobs moving between places

What the FTL and the backend do to accepted commands, with the rings,
bitmaps and counters taken away: a `Job` is one acceptance of a command, a
`Place` is a task queue, one of the two backend lists, or the backend's
hands, and a step moves the first job of a place to the place `dest` names.
A job no handler will ever touch again is `stranded`: a command that is
neither a read nor a write, and one whose single completion does not bring
`cpl_cnt` to `req_num`.

`Stage` is where the FTL thread is in its loop; it only leaves a task queue
when it is empty, as nothing is added to a queue while it is being served.

* `live_inv`: no index is held by two jobs.
* `path_inv`: the events of a job and the place it is at determine each
  other (`Path`), whatever the other jobs did.

The order in which submissions leave is in `L4Pipeline.Order`.
-/
namespace OpenSSDEmu.L4.Jobs
open L2.Hcl (Status HCMD_NUM)
open L2.Shmem (HostCmd SHM_READ_OPS SHM_WRITE_OPS HOST_BLOCK_SIZE)
open OpenSSDEmu.Flow

/-- Command `cmd`, accepted into entry `idx` as number `ser` by call `poll`
of `FTL_nvme_req_polling`. -/
structure Job where
  ser : Nat
  idx : Nat
  cmd : HostCmd
  poll : Nat
  deriving DecidableEq, Repr

def Job.isWrite (j : Job) : Bool := j.cmd.ops == SHM_WRITE_OPS
def Job.isRead (j : Job) : Bool := j.cmd.ops == SHM_READ_OPS

/-- mirrors src/ftl/ftl_nvme.c:83,90 -/
def Job.reqNum (j : Job) : UInt32 := j.cmd.size / HOST_BLOCK_SIZE / 4

inductive Place
  | queue (s : Status) | registered | inHand | executed | completed | stranded
  deriving DecidableEq, Repr

def places : List Place :=
  [.queue .checkCache, .queue .toSq, .queue .dataMoved, .queue .fromCq, .queue .finish,
    .queue .waitCq, .registered, .inHand, .executed, .completed, .stranded]

theorem mem_places (p : Place) : p ∈ places := by
  cases p with
  | queue s => cases s <;> decide
  | _ => decide

theorem places_nodup : places.Nodup := by decide

/-- What happens to a job when it leaves a place (`accept`: when it enters). -/
inductive Kind | accept | check | send | take | exec | post | cq | fromCq | dataMove | finish
  deriving DecidableEq, Repr

def Place.kind : Place → Kind
  | .queue .checkCache => .check
  | .queue .toSq => .send
  | .queue .dataMoved => .dataMove
  | .queue .fromCq => .fromCq
  | .queue _ => .finish
  | .registered => .take
  | .inHand => .exec
  | .executed => .post
  | _ => .cq

/-- Where a job goes next; `none` = its entry is reclaimed. -/
def dest (j : Job) : Place → Option Place
  | .queue .checkCache =>
    some (if j.isWrite then .queue .dataMoved else if j.isRead then .queue .toSq else .stranded)
  | .queue .toSq => some .registered
  | .queue .dataMoved => some (if j.isRead then .queue .finish else .queue .toSq)
  | .queue .fromCq => some (if j.isWrite then .queue .finish else .queue .dataMoved)
  | .queue _ => none
  | .registered => some .inHand
  | .inHand => some .executed
  | .executed => some .completed
  | .completed => some (if j.reqNum = 1 then .queue .fromCq else .stranded)
  | .stranded => some .stranded

/-- Where the FTL thread is: accepting, serving a task queue, or polling the
completions. -/
inductive Stage | poll | serve (s : Status) | cq
  deriving DecidableEq, Repr

def Stage.after : Status → Stage
  | .checkCache => .serve .toSq
  | .toSq => .serve .dataMoved
  | .dataMoved => .serve .fromCq
  | .fromCq => .serve .finish
  | _ => .cq

structure Net where
  jobs : Place → List Job
  accepted : List Job
  log : List (Kind × Job)
  stage : Stage
  polls : Nat

def Net.init : Net := ⟨fun _ => [], [], [], .poll, 0⟩

def Net.live (n : Net) : List Job := tokens places n.jobs

inductive Lbl
  | accept (idx : Nat) (cmd : HostCmd)
  | move (p : Place)
  | next
  deriving DecidableEq, Repr

/-- The FTL thread serves its own places in turn; the backend works on the
others at any time. -/
def Stage.allows (g : Stage) : Place → Bool
  | .queue s => g == .serve s
  | .completed => g == .cq
  | .stranded => false
  | _ => true

/-- `d = none`: the job leaves. -/
def pushTo (f : Place → List Job) (d : Option Place) (j : Job) : Place → List Job :=
  match d with
  | none => f
  | some p => push f p j

def Net.move (n : Net) (p : Place) (j : Job) : Net :=
  { n with jobs := pushTo (pop n.jobs p) (dest j p) j, log := n.log ++ [(p.kind, j)] }

def Net.accept (n : Net) (j : Job) : Net :=
  { n with jobs := push n.jobs (.queue .checkCache) j, accepted := n.accepted ++ [j],
           log := n.log ++ [(.accept, j)] }

def step (n : Net) : Lbl → Option Net
  | .accept idx cmd =>
    if n.stage = .poll ∧ idx < HCMD_NUM ∧ idx ∉ n.live.map Job.idx then
      some (n.accept ⟨n.accepted.length, idx, cmd, n.polls⟩)
    else none
  | .move p =>
    if n.stage.allows p then
      match n.jobs p with
      | [] => none
      | j :: _ => some (n.move p j)
    else none
  | .next =>
    match n.stage with
    | .poll => some { n with stage := .serve .checkCache }
    | .serve s => if n.jobs (.queue s) = [] then some { n with stage := .after s } else none
    | .cq => if n.jobs .completed = [] then some { n with stage := .poll, polls := n.polls + 1 } else none

def net : LTS Net Lbl := LTS.ofFn .init step

/-- The stage reached by `next`, and what has to be empty for it. -/
inductive Advance : Net → Stage → Nat → Prop
  | poll {n : Net} (h : n.stage = .poll) : Advance n (.serve .checkCache) n.polls
  | serve {n : Net} {s : Status} (h : n.stage = .serve s) (he : n.jobs (.queue s) = []) :
      Advance n (.after s) n.polls
  | cq {n : Net} (h : n.stage = .cq) (he : n.jobs .completed = []) : Advance n .poll (n.polls + 1)

/-- Everything a step can do. -/
theorem step_cases {n n' : Net} {l : Lbl} (h : step n l = some n') :
    (∃ j : Job, n.stage = .poll ∧ j.idx < HCMD_NUM ∧ j.idx ∉ n.live.map Job.idx ∧
        j.ser = n.accepted.length ∧ j.poll = n.polls ∧ n' = n.accept j) ∨
      (∃ p j r, n.stage.allows p = true ∧ n.jobs p = j :: r ∧ n' = n.move p j) ∨
      ∃ g k, Advance n g k ∧ n' = { n with stage := g, polls := k } := by
  cases l with
  | accept idx cmd =>
    simp only [step] at h
    split at h
    · rename_i hc
      exact .inl ⟨⟨n.accepted.length, idx, cmd, n.polls⟩, hc.1, hc.2.1, hc.2.2, rfl, rfl,
        by simpa using h.symm⟩
    · cases h
  | move p =>
    simp only [step] at h
    split at h
    · split at h
      · cases h
      · rename_i ha _ j r he
        exact .inr (.inl ⟨p, j, r, ha, he, by simpa using h.symm⟩)
    · cases h
  | next =>
    refine .inr (.inr ?_)
    simp only [step] at h
    split at h
    · rename_i hs
      exact ⟨_, _, .poll hs, by simpa using h.symm⟩
    · rename_i s hs
      split at h
      · rename_i he
        exact ⟨_, _, .serve hs he, by simpa using h.symm⟩
      · cases h
    · rename_i hs
      split at h
      · rename_i he
        exact ⟨_, _, .cq hs he, by simpa using h.symm⟩
      · cases h

/-! ## Who holds an index -/

structure Live (n : Net) : Prop where
  nodup : (n.live.map Job.idx).Nodup
  lt : ∀ j ∈ n.live, j.idx < HCMD_NUM

section
variable {n n' : Net} {p d : Place} {j : Job} {r : List Job}

theorem live_accept (n : Net) (j : Job) : (n.accept j).live.Perm (j :: n.live) :=
  push_perm places_nodup (mem_places _)

theorem live_move (hp : n.jobs p = j :: r) (hd : dest j p = some d) :
    (n.move p j).live.Perm n.live := by
  have h1 := push_perm (f := pop n.jobs p) (x := j) places_nodup (mem_places d)
  have h2 := pop_perm places_nodup (mem_places p) hp
  simpa only [Net.live, Net.move, pushTo, hd] using h1.trans h2

theorem live_leave (hp : n.jobs p = j :: r) (hd : dest j p = none) :
    (j :: (n.move p j).live).Perm n.live := by
  simpa only [Net.live, Net.move, pushTo, hd] using pop_perm places_nodup (mem_places p) hp

theorem mem_live : j ∈ n.live ↔ ∃ p, j ∈ n.jobs p := mem_tokens mem_places

theorem Live.perm (h : Live n) (hp : n'.live.Perm n.live) : Live n' :=
  ⟨((hp.map Job.idx).nodup_iff).mpr h.nodup, fun j hj => h.lt j (hp.mem_iff.mp hj)⟩

theorem Live.move (h : Live n) (hp : n.jobs p = j :: r) : Live (n.move p j) := by
  cases hd : dest j p with
  | some d => exact h.perm (live_move hp hd)
  | none =>
    have hl := live_leave hp hd
    have hn := ((hl.map Job.idx).nodup_iff).mpr h.nodup
    exact ⟨(List.nodup_cons.mp hn).2, fun k hk => h.lt k (hl.mem_iff.mp (List.mem_cons_of_mem _ hk))⟩

theorem Live.accept (h : Live n) (hlt : j.idx < HCMD_NUM) (hf : j.idx ∉ n.live.map Job.idx) :
    Live (n.accept j) := by
  have hl := live_accept n j
  refine ⟨((hl.map Job.idx).nodup_iff).mpr (List.nodup_cons.mpr ⟨hf, h.nodup⟩), fun k hk => ?_⟩
  rcases List.mem_cons.mp (hl.mem_iff.mp hk) with rfl | hk
  · exact hlt
  · exact h.lt k hk

theorem Live.jobs_nodup (h : Live n) : n.live.Nodup := h.nodup.of_map _

/-- A job is told by its index among the live ones. -/
theorem Live.inj (h : Live n) {a b : Job} (ha : a ∈ n.live) (hb : b ∈ n.live) (e : a.idx = b.idx) :
    a = b := List.inj_on_of_nodup_map h.nodup ha hb e

end

/-- **No index is held twice.** -/
theorem live_inv : net.Inductive Live where
  init := by
    intro n heq
    subst heq
    exact ⟨by decide, by intro j hj; simp [Net.live, Net.init, tokens] at hj⟩
  step := by
    intro n l n' h hs
    obtain ⟨j, -, hlt, hf, -, -, rfl⟩ | ⟨p, j, r, -, hp, rfl⟩ | ⟨g, k, -, rfl⟩ := step_cases hs
    · exact h.accept hlt hf
    · exact h.move hp
    · exact ⟨h.nodup, h.lt⟩

/-! ## The course of a job -/

def Net.hist (n : Net) (j : Job) : List Kind := (n.log.filter fun e => e.2 = j).map Prod.fst

/-- `Path j h p`: a job that went through the events `h` is at `p`. -/
inductive Path (j : Job) : List Kind → Option Place → Prop
  | accept : Path j [.accept] (some (.queue .checkCache))
  | move {h : List Kind} {p : Place} (hp : Path j h (some p)) (hs : p ≠ .stranded) :
      Path j (h ++ [p.kind]) (dest j p)

structure Tracked (n : Net) : Prop where
  ser : n.accepted.map Job.ser = List.range n.accepted.length
  known : ∀ e ∈ n.log, e.2 ∈ n.accepted
  here : ∀ p, ∀ j ∈ n.jobs p, j ∈ n.accepted ∧ Path j (n.hist j) (some p)
  gone : ∀ j ∈ n.accepted, (∃ p, j ∈ n.jobs p) ∨ Path j (n.hist j) none

section
variable {n : Net} {p : Place} {j : Job} {r : List Job}

theorem hist_append (m : Net) (k : Kind) (h : m.log = n.log ++ [(k, j)]) (i : Job) :
    m.hist i = if i = j then n.hist i ++ [k] else n.hist i := by
  by_cases e : i = j
  · simp [Net.hist, h, e]
  · simp [Net.hist, h, e, Ne.symm e]

theorem Tracked.accepted_nodup (h : Tracked n) : n.accepted.Nodup :=
  List.Nodup.of_map Job.ser (h.ser ▸ List.nodup_range)

theorem Tracked.fresh (h : Tracked n) (hj : j.ser = n.accepted.length) : j ∉ n.accepted := by
  intro hm
  have := List.mem_map_of_mem (f := Job.ser) hm
  rw [h.ser, List.mem_range] at this
  omega

theorem Tracked.hist_nil (h : Tracked n) (hj : j ∉ n.accepted) : n.hist j = [] := by
  simp only [Net.hist, List.map_eq_nil_iff, List.filter_eq_nil_iff, decide_eq_true_eq]
  intro e he heq
  subst heq
  exact hj (h.known e he)

theorem Tracked.accept (h : Tracked n) (hj : j.ser = n.accepted.length) : Tracked (n.accept j) := by
  have hf := h.fresh hj
  have hh := hist_append (n := n) (j := j) (n.accept j) .accept rfl
  have hother : ∀ i ∈ n.accepted, (n.accept j).hist i = n.hist i := fun i hi => by
    rw [hh, if_neg]; rintro rfl; exact hf hi
  refine ⟨?_, ?_, ?_, ?_⟩
  · simp [Net.accept, h.ser, hj, List.range_succ]
  · intro e he
    rcases List.mem_append.mp he with he | he
    · exact List.mem_append_left _ (h.known e he)
    · exact List.mem_append_right _ (by simpa using congrArg Prod.snd (List.mem_singleton.mp he))
  · intro q i hi
    rcases mem_push.mp hi with hi | ⟨rfl, rfl⟩
    · obtain ⟨ha, hp⟩ := h.here q i hi
      exact ⟨List.mem_append_left _ ha, by rwa [hother i ha]⟩
    · refine ⟨List.mem_append_right _ (by simp), ?_⟩
      rw [hh, if_pos rfl, h.hist_nil hf]
      exact .accept
  · intro i hi
    rcases List.mem_append.mp hi with hi | hi
    · rcases h.gone i hi with ⟨q, hq⟩ | hg
      · exact .inl ⟨q, mem_push.mpr (.inl hq)⟩
      · exact .inr (by rwa [hother i hi])
    · exact .inl ⟨_, mem_push.mpr (.inr ⟨rfl, List.mem_singleton.mp hi⟩)⟩

theorem mem_move {n : Net} {p q : Place} {j i : Job} (h : i ∈ (n.move p j).jobs q) :
    i ∈ pop n.jobs p q ∨ (dest j p = some q ∧ i = j) := by
  cases hd : dest j p with
  | none => exact .inl (by simpa only [Net.move, pushTo, hd] using h)
  | some d =>
    simp only [Net.move, pushTo, hd] at h
    rcases mem_push.mp h with h | ⟨rfl, rfl⟩
    · exact .inl h
    · exact .inr ⟨rfl, rfl⟩

theorem mem_move_of_ne {q : Place} {i : Job} (hp : n.jobs p = j :: r) (h : i ∈ n.jobs q) (hne : i ≠ j) :
    i ∈ (n.move p j).jobs q := by
  have := mem_pop_of_ne hp h hne
  cases hd : dest j p with
  | none => simpa only [Net.move, pushTo, hd] using this
  | some d =>
    simp only [Net.move, pushTo, hd]
    exact mem_push.mpr (.inl this)

theorem Tracked.move (hl : Live n) (h : Tracked n) (hp : n.jobs p = j :: r) (hs : p ≠ .stranded) :
    Tracked (n.move p j) := by
  have hh := hist_append (n := n) (j := j) (n.move p j) p.kind rfl
  have hj := h.here p j (by simp [hp])
  have hpath : Path j ((n.move p j).hist j) (dest j p) := by
    rw [hh, if_pos rfl]; exact .move hj.2 hs
  have hout := notMem_pop places_nodup mem_places hl.jobs_nodup hp
  refine ⟨h.ser, ?_, ?_, ?_⟩
  · intro e he
    rcases List.mem_append.mp he with he | he
    · exact h.known e he
    · rw [List.mem_singleton.mp he]; exact hj.1
  · intro q i hi
    rcases mem_move hi with hq | ⟨hd, rfl⟩
    · have hne : i ≠ j := by
        intro heq
        subst heq
        exact hout q hq
      rw [hh, if_neg hne]
      exact h.here q i (mem_of_mem_pop hq)
    · exact ⟨hj.1, hd ▸ hpath⟩
  · intro i hi
    by_cases e : i = j
    · subst e
      cases hd : dest i p with
      | none => exact .inr (hd ▸ hpath)
      | some d => exact .inl ⟨d, by simp [Net.move, pushTo, hd]⟩
    · rw [hh, if_neg e]
      refine (h.gone i hi).imp_left ?_
      intro hx
      obtain ⟨q, hq⟩ := hx
      exact ⟨q, mem_move_of_ne hp hq e⟩

theorem allows_ne_stranded {g : Stage} (h : g.allows p = true) : p ≠ .stranded := by
  intro heq
  subst heq
  simp [Stage.allows] at h

end

/-- **Events and place of a job agree in every reachable state.** -/
theorem path_inv : net.InductiveUnder Live Tracked where
  init := by
    intro n heq
    subst heq
    exact ⟨rfl, by simp [Net.init], by simp [Net.init], by simp [Net.init]⟩
  step := by
    intro n l n' hl h hs
    obtain ⟨j, -, -, -, hj, -, rfl⟩ | ⟨p, j, r, ha, hp, rfl⟩ | ⟨g, k, -, rfl⟩ := step_cases hs
    · exact h.accept hj
    · exact h.move hl hp (allows_ne_stranded ha)
    · exact ⟨h.ser, h.known, h.here, h.gone⟩

def writeCourse : List Kind :=
  [.accept, .check, .dataMove, .send, .take, .exec, .post, .cq, .fromCq, .finish]

def readCourse : List Kind :=
  [.accept, .check, .send, .take, .exec, .post, .cq, .fromCq, .dataMove, .finish]

/-- All a job can ever go through. -/
def Job.course (j : Job) : List Kind :=
  if j.isWrite then writeCourse else if j.isRead then readCourse else [.accept, .check]

/-- `w` events behind it if a write, `r` if a read. -/
def Job.Done (j : Job) (w r : Nat) (h : List Kind) : Prop :=
  (j.isWrite ∧ h = writeCourse.take w) ∨ (j.isRead ∧ h = readCourse.take r)

/-- The events a job has behind it at a place. -/
def Job.At (j : Job) (h : List Kind) : Option Place → Prop
  | some (.queue .checkCache) => h = [.accept]
  | some (.queue .toSq) => j.Done 3 2 h
  | some (.queue .dataMoved) => j.Done 2 8 h ∧ (j.isRead → j.reqNum = 1)
  | some (.queue .fromCq) => j.Done 8 7 h ∧ j.reqNum = 1
  | some (.queue .finish) => j.Done 9 9 h ∧ j.reqNum = 1
  | some (.queue .waitCq) => False
  | some .registered => j.Done 4 3 h
  | some .inHand => j.Done 5 4 h
  | some .executed => j.Done 6 5 h
  | some .completed => j.Done 7 6 h
  | some .stranded =>
    (j.isWrite = false ∧ j.isRead = false ∧ h = [.accept, .check]) ∨ (j.Done 8 7 h ∧ j.reqNum ≠ 1)
  | none => j.Done 10 10 h ∧ j.reqNum = 1

theorem Job.not_both (j : Job) : ¬ (j.isWrite = true ∧ j.isRead = true) := by
  simp only [Job.isWrite, Job.isRead, beq_iff_eq]
  intro hx
  obtain ⟨h1, h2⟩ := hx
  exact absurd (h1.symm.trans h2) (by decide)

theorem Path.at {j : Job} {h : List Kind} {p : Option Place} (hp : Path j h p) : j.At h p := by
  have hb := j.not_both
  induction hp with
  | accept => rfl
  | @move h p _ hs ih =>
    cases p with
    | queue s =>
      cases s <;> cases hw : j.isWrite <;> cases hr : j.isRead <;>
        simp_all [Job.At, Job.Done, dest, Place.kind, writeCourse, readCourse]
    | stranded => exact absurd rfl hs
    | completed =>
      cases hw : j.isWrite <;> cases hr : j.isRead <;> by_cases hq : j.reqNum = 1 <;>
        simp_all [Job.At, Job.Done, dest, Place.kind, writeCourse, readCourse]
    | _ =>
      cases hw : j.isWrite <;> cases hr : j.isRead <;>
        simp_all [Job.At, Job.Done, dest, Place.kind, writeCourse, readCourse]

/-- A job that is somewhere is not finished. -/
theorem Path.unfinished {j : Job} {h : List Kind} {p : Place} (hp : Path j h (some p)) : .finish ∉ h := by
  have hd : ∀ {w r : Nat}, j.Done w r h → w ≤ 9 → r ≤ 9 → .finish ∉ h := by
    intro w r hd hw hr hm
    rcases hd with ⟨-, rfl⟩ | ⟨-, rfl⟩
    · exact absurd (List.take_subset_take_left _ hw hm) (by decide)
    · exact absurd (List.take_subset_take_left _ hr hm) (by decide)
  have ha := hp.at
  match p with
  | .queue .checkCache =>
    rw [show h = [.accept] from ha]
    decide
  | .queue .toSq | .registered | .inHand | .executed | .completed => exact hd ha (by decide) (by decide)
  | .queue .dataMoved | .queue .fromCq | .queue .finish => exact hd ha.1 (by decide) (by decide)
  | .queue .waitCq => exact absurd ha id
  | .stranded =>
    rcases ha with ⟨-, -, rfl⟩ | ⟨ha, -⟩
    · decide
    · exact hd ha (by decide) (by decide)

theorem Job.Done.initial {j : Job} {w r : Nat} {h : List Kind} (hd : j.Done w r h) : h <+: j.course := by
  have hb := j.not_both
  rcases hd with ⟨hk, rfl⟩ | ⟨hk, rfl⟩
  · rw [Job.course, if_pos hk]; exact List.take_prefix _ _
  · have hw : ¬ j.isWrite = true := fun e => hb ⟨e, hk⟩
    rw [Job.course, if_neg hw, if_pos hk]; exact List.take_prefix _ _

/-- Whatever a job has behind it is an initial part of its course. -/
theorem Path.initial {j : Job} {h : List Kind} {p : Option Place} (hp : Path j h p) : h <+: j.course := by
  have ha := hp.at
  match p with
  | some (.queue .checkCache) =>
    rw [show h = [.accept] from ha, Job.course]
    split
    · exact ⟨_, rfl⟩
    · split <;> exact ⟨_, rfl⟩
  | some (.queue .toSq) | some .registered | some .inHand | some .executed | some .completed =>
    exact Job.Done.initial ha
  | some (.queue .dataMoved) | some (.queue .fromCq) | some (.queue .finish) | none =>
    exact Job.Done.initial ha.1
  | some (.queue .waitCq) => exact absurd ha id
  | some .stranded =>
    rcases ha with ⟨hw, hr, rfl⟩ | ⟨hd, -⟩
    · simp [Job.course, hw, hr]
    · exact hd.initial

end OpenSSDEmu.L4.Jobs
