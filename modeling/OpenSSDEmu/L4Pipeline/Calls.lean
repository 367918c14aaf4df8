import OpenSSDEmu.L4Pipeline.Refine

/-!
# Calls whose failure nobody handles

`FTL_sendhcmd` can find its queue full, `FTL_task_queue_remove_head` its
queue empty and `FCL_get_free_SQ_entry` its bitmap full, and the FTL thread
ignores the first two and retries on the third. Here its functions are
written over these calls and `FCL_set_SQ_entry`: a `Kit` says how each is
made. With the results of the code's own they are the code (`ftlStepIn_eq`),
and `listing` makes each call as it is and lists it with its result, so no
call is left out of the list.

* `calls_succeed`: no such call ever fails.
* `sq_step`: what one step of any thread does to the submission queue
  entries and the outstanding requests.
* `sq_entries_owned`: the bit of an entry is set exactly while one request
  with its channel and index is outstanding, and the entry keeps the content
  it was sent with until then.
-/
namespace OpenSSDEmu.L4.Pipeline
open L2.Hcl L2.Fcl L2.Shmem L2.TaskQueue
open Jobs hiding step Lbl
open OpenSSDEmu.Flow

/-- A call of the FTL thread with its result; `none` is `NULL` or
`INVALID_INDEX`. -/
inductive Call
  | sendhcmd (q : Status) (ok : Bool)
  | removeHead (q : Status) (r : Option Nat)
  | getFreeSQEntry (r : Option Nat)
  | setSQEntry (d : Dev) (ch index : Nat)

def Call.ok : Call → Bool
  | .sendhcmd _ ok => ok
  | .removeHead _ r => r.isSome
  | .getFreeSQEntry r => r.isSome
  | .setSQEntry _ _ _ => true

/-! ## The functions of the FTL thread over their calls -/

/-- The calls, as made in `m`. -/
structure Kit (m : Type → Type) where
  sendhcmd : Dev → Nat → Status → m (Bool × Dev)
  removeHead : Dev → Status → m (Option Nat × L2.TaskQueue Nat)
  getFreeSQEntry : SqPool → Nat → m (Option Nat × SqPool)
  setSQEntry : BitVec 32 → Dev → Nat → Nat → HcmdOpcode → PhyPageAddr → m SqPool

section
variable {m : Type → Type} [Monad m]

/-- Callers ignore the return code. -/
def sendIn (K : Kit m) (d : Dev) (i : Nat) (q : Status) : m Dev := do
  let (_, d) ← K.sendhcmd d i q
  return d

/-- mirrors src/ftl/ftl_core0.c:24-78 -/
def handleCheckcacheIn (K : Kit m) (d : Dev) (i : Nat) : m Dev := do
  let e := d.entry i
  let (curCnt, e') := checkcacheLoop e.reqNum e.reqNum.toNat e.curCnt e
  let d := d.setEntry i { e' with curCnt := curCnt }
  match e.opCode with
  | .write => sendIn K d i .dataMoved
  | .read => sendIn K d i .toSq
  | _ => return d

/-- mirrors src/ftl/ftl_core0.c:106-151 -/
def tosqLoopIn (K : Kit m) (memBase : BitVec 32) (i : Nat) (opCode : HcmdOpcode) (bufCnt : UInt32) :
    Nat → UInt32 → Dev → m (Option UInt32 × Dev)
  | 0, sendSqCnt, d => return (some sendSqCnt, d)
  | k + 1, sendSqCnt, d =>
    if sendSqCnt < bufCnt then do
      let ppa := fakePpa
      match ← K.getFreeSQEntry d.fcl ppa.ch.toNat with
      | (none, _) => return (none, ← sendIn K d i .toSq)
      | (some tmpSqIndex, f) => do
        let f ← K.setSQEntry memBase { d with fcl := f } i tmpSqIndex opCode ppa
        let d := sendSQEntry { d with fcl := f } tmpSqIndex ppa.ch.toNat ppa.ce.toNat
        tosqLoopIn K memBase i opCode bufCnt k (sendSqCnt + 1) d
    else return (some sendSqCnt, d)

/-- mirrors src/ftl/ftl_core0.c:88-160 -/
def handleTosqIn (K : Kit m) (memBase : BitVec 32) (d : Dev) (i : Nat) : m Dev := do
  let e := { d.entry i with bufCnt := 1 }
  let d := d.setEntry i e
  match ← tosqLoopIn K memBase i e.opCode e.bufCnt e.bufCnt.toNat 0 d with
  | (none, d) => return d
  | (some sendSqCnt, d) => return d.setEntry i { d.entry i with sendSqCnt := sendSqCnt }

/-- mirrors src/ftl/ftl_core0.c:170-224 -/
def handleDatamoveIn (K : Kit m) (d : Dev) (i : Nat) : m Dev := do
  let e := { d.entry i with bufCnt := 1 }
  let d := d.setEntry i { e with nvmeDmaCpl := dmaLoop e.bufCnt e.bufCnt.toNat e.nvmeDmaCpl }
  if e.opCode = .read then sendIn K d i .finish else sendIn K d i .toSq

/-- mirrors src/ftl/ftl_core0.c:234-255 -/
def handleFromcqIn (K : Kit m) (d : Dev) (i : Nat) : m Dev :=
  if (d.entry i).opCode = .write then
    sendIn K (d.setEntry i { d.entry i with status := .finish }) i .finish
  else sendIn K (d.setEntry i { d.entry i with status := .dataMoved }) i .dataMoved

/-- mirrors src/ftl/ftl_taskqueue.c:48-53 -/
def funcIn (K : Kit m) (memBase : BitVec 32) : Status → Dev → Nat → m Dev
  | .checkCache => handleCheckcacheIn K
  | .toSq => handleTosqIn K memBase
  | .dataMoved => handleDatamoveIn K
  | .fromCq => handleFromcqIn K
  | .finish => fun d i => return handleFinish d i
  | .waitCq => fun d _ => return d

/-- mirrors src/ftl/ftl_core1.c:81-92 -/
def cqRoundIn (K : Kit m) (d : Dev) (sq : EmuSq) (rest : List EmuSq) : m Dev := do
  let d := { d with fcl := freeSQEntry d.fcl sq.ch sq.sqIndex }
  let i := sq.hcmd
  let d := d.setEntry i { d.entry i with cplCnt := (d.entry i).cplCnt + 1 }
  let d ← if (d.entry i).cplCnt = (d.entry i).reqNum then sendIn K d i .fromCq else pure d
  return { d with completeList := rest }

/-- mirrors src/ftl/ftl_nvme.c:69-108 -/
def acceptIntoIn (K : Kit m) (s : Sys) (i index : Nat) (scmd : HostCmd) (k : Nat) (hcl : HcmdPool) :
    m Sys := do
  let c := s.c + 1
  let e := fillEntry (hcl.queue k) scmd index c
  let j : Job := ⟨s.accs.length, k, scmd, s.polls⟩
  let d ← sendIn K { s.dev with hcl := L2.Hcl.setEntry hcl k e } k .checkCache
  return { s with dev := d, c := c, ftl := .free i index,
                  accs := s.accs ++ [⟨j, e⟩], log := s.log ++ [⟨.accept, some j, e⟩] }

/-- A step of the FTL thread.
mirrors src/ftl/ftl.c:22-40, src/ftl/ftl_nvme.c:53-117,
src/ftl/ftl_taskqueue.c:157-219 and src/ftl/ftl_core1.c:75-95 -/
def ftlStepIn (K : Kit m) (memBase : BitVec 32) (s : Sys) : Option (m Sys) :=
  match s.ftl with
  | .got i index scmd =>
    match getHostCmdEntry s.dev.hcl with
    | (some k, hcl) => some (acceptIntoIn K s i index scmd.toHostCmd k hcl)
    | (none, _) => some (return { s with ftl := .put i index scmd })
  | .serve q cnt j =>
    if j < cnt then some do
      let (hcmdEntry, ring) ← K.removeHead s.dev q
      let d := { s.dev with tq := fun t => if t = q then ring else s.dev.tq t }
      match hcmdEntry with
      | none => return { s with dev := d, ftl := .serve q cnt (j + 1) }
      | some i => do
        let d' ← funcIn K memBase q d i
        return { s with dev := d', ftl := .serve q cnt (j + 1), log := s.log ++ handlerEvents s q d d' i }
    else some (return { s with ftl := .after q })
  | .cqLoop =>
    match s.dev.completeList with
    | [] => some (return { s with ftl := .poll 0, polls := s.polls + 1 })
    | sq :: rest => some do
      let d ← cqRoundIn K s.dev sq rest
      return { s with dev := d, log := s.log ++ [s.event .cq sq.hcmd] }
  | .poll i =>
    if i < MAX_POLLING_NUM then do
      let (r, m) ← shmGetRdyList s.shm
      match r with
      | none => some (return { s with shm := m, ftl := .poll (i + 1) })
      | some (index, scmd) => some (return { s with shm := m, ftl := .got i index scmd })
    else some (return { s with ftl := .stage .checkCache })
  | .free i index => do
    let m ← shmAddFreeList s.shm index
    some (return { s with shm := m, ftl := .poll (i + 1) })
  | .put i index scmd => do
    let m ← shmAddRdyList s.shm index scmd
    some (return { s with shm := m, ftl := .poll (i + 1) })
  | .stage q => some (return { s with ftl := .serve q (s.dev.tq q).cnt.toNat 0 })
  | .cq => some (return { s with ftl := .cqLoop })

end

/-! ## The calls with the results they have -/

/-- `run` forgets what `m` keeps beside the result, and the calls have the
results of the code's own. -/
structure Kit.Faithful {m : Type → Type} [Monad m] (K : Kit m) (run : ∀ α, m α → α) : Prop where
  pure : ∀ {α : Type} (a : α), run α (Pure.pure a) = a
  bind : ∀ {α β : Type} (x : m α) (f : α → m β), run β (x >>= f) = run β (f (run α x))
  sendhcmd : ∀ d i q, run _ (K.sendhcmd d i q) = L4.Pipeline.sendhcmd d i q
  removeHead : ∀ d q, run _ (K.removeHead d q) = L2.TaskQueue.removeHead (d.tq q)
  getFreeSQEntry : ∀ f ch, run _ (K.getFreeSQEntry f ch) = L2.Fcl.getFreeSQEntry f ch
  setSQEntry : ∀ mb d i index op ppa,
    run _ (K.setSQEntry mb d i index op ppa) = L2.Fcl.setSQEntry mb d.fcl i index 0 op ppa HCMD_SPACE

section
variable {m : Type → Type} [Monad m] {K : Kit m} {run : ∀ α, m α → α}

theorem Kit.Faithful.send (h : K.Faithful run) (d : Dev) (i : Nat) (q : Status) :
    run _ (sendIn K d i q) = (L4.Pipeline.sendhcmd d i q).2 := by
  rw [sendIn, h.bind, h.sendhcmd, h.pure]

theorem Kit.Faithful.checkcache (h : K.Faithful run) (d : Dev) (i : Nat) :
    run _ (handleCheckcacheIn K d i) = handleCheckcache d i := by
  unfold handleCheckcacheIn handleCheckcache
  dsimp only
  cases (d.entry i).opCode with
  | write => exact h.send _ _ _
  | read => exact h.send _ _ _
  | unset => exact h.pure _
  | erase => exact h.pure _

theorem Kit.Faithful.tosqLoop (h : K.Faithful run) (mb : BitVec 32) (i : Nat) (op : HcmdOpcode)
    (bufCnt : UInt32) (k : Nat) (c : UInt32) (d : Dev) :
    run _ (tosqLoopIn K mb i op bufCnt k c d) = L4.Pipeline.tosqLoop mb i op bufCnt k c d := by
  induction k generalizing c d with
  | zero => exact h.pure _
  | succ k ih =>
    unfold tosqLoopIn L4.Pipeline.tosqLoop
    dsimp only
    split
    · rw [h.bind, h.getFreeSQEntry]
      rcases L2.Fcl.getFreeSQEntry d.fcl fakePpa.ch.toNat with ⟨_ | t, f⟩
      · dsimp only
        rw [h.bind, h.send, h.pure]
      · dsimp only
        rw [h.bind, h.setSQEntry, ih]
    · exact h.pure _

theorem Kit.Faithful.tosq (h : K.Faithful run) (mb : BitVec 32) (d : Dev) (i : Nat) :
    run _ (handleTosqIn K mb d i) = handleTosq mb d i := by
  unfold handleTosqIn handleTosq
  dsimp only
  rw [h.bind, h.tosqLoop]
  rcases L4.Pipeline.tosqLoop mb i _ _ _ _ _ with ⟨_ | c, d'⟩
  · exact h.pure _
  · exact h.pure _

theorem Kit.Faithful.datamove (h : K.Faithful run) (d : Dev) (i : Nat) :
    run _ (handleDatamoveIn K d i) = handleDatamove d i := by
  unfold handleDatamoveIn handleDatamove
  dsimp only
  split
  · exact h.send _ _ _
  · exact h.send _ _ _

theorem Kit.Faithful.fromcq (h : K.Faithful run) (d : Dev) (i : Nat) :
    run _ (handleFromcqIn K d i) = handleFromcq d i := by
  unfold handleFromcqIn handleFromcq
  split
  · exact h.send _ _ _
  · exact h.send _ _ _

theorem Kit.Faithful.func (h : K.Faithful run) (mb : BitVec 32) (q : Status) (d : Dev) (i : Nat) :
    run _ (funcIn K mb q d i) = L4.Pipeline.func mb q d i := by
  cases q with
  | checkCache => exact h.checkcache d i
  | toSq => exact h.tosq mb d i
  | dataMoved => exact h.datamove d i
  | fromCq => exact h.fromcq d i
  | finish => exact h.pure _
  | waitCq => exact h.pure _

theorem Kit.Faithful.cqRound (h : K.Faithful run) (d : Dev) (sq : EmuSq) (rest : List EmuSq) :
    run _ (cqRoundIn K d sq rest) = L4.Pipeline.cqRound d sq rest := by
  unfold cqRoundIn L4.Pipeline.cqRound
  dsimp only
  split
  · rw [h.bind, h.send, h.pure]
  · rw [h.bind, h.pure, h.pure]

/-- However the calls are made, with their own results the step is the one of
the code. -/
theorem ftlStepIn_eq (h : K.Faithful run) (mb : BitVec 32) (s : Sys) :
    (ftlStepIn K mb s).map (run Sys) = ftlStep mb s := by
  unfold ftlStepIn ftlStep
  cases s.ftl with
  | got i index scmd =>
    dsimp only
    rcases getHostCmdEntry s.dev.hcl with ⟨_ | k, hcl⟩
    · exact congrArg some (h.pure _)
    · refine congrArg some ?_
      rw [acceptIntoIn, h.bind, h.send, h.pure]
      rfl
  | serve q cnt j =>
    dsimp only
    split
    · rw [Option.map_some, h.bind, h.removeHead]
      rcases L2.TaskQueue.removeHead (s.dev.tq q) with ⟨_ | i, ring⟩
      · exact congrArg some (h.pure _)
      · refine congrArg some ?_
        dsimp only
        rw [h.bind, h.func, h.pure]
    · exact congrArg some (h.pure _)
  | cqLoop =>
    dsimp only
    cases s.dev.completeList with
    | nil => exact congrArg some (h.pure _)
    | cons sq rest =>
      refine congrArg some ?_
      rw [h.bind, h.cqRound, h.pure]
  | poll i =>
    dsimp only
    split
    · rcases shmGetRdyList s.shm with _ | ⟨_ | x, m'⟩
      · rfl
      · exact congrArg some (h.pure _)
      · exact congrArg some (h.pure _)
    · exact congrArg some (h.pure _)
  | free i index =>
    dsimp only
    rcases shmAddFreeList s.shm index with _ | m'
    · rfl
    · exact congrArg some (h.pure _)
  | put i index scmd =>
    dsimp only
    rcases shmAddRdyList s.shm index scmd with _ | m'
    · rfl
    · exact congrArg some (h.pure _)
  | stage q => exact congrArg some (h.pure _)
  | cq => exact congrArg some (h.pure _)

end

/-! ## The calls listed -/

/-- A result and the calls made on the way. -/
structure Traced (α : Type) where
  val : α
  calls : List Call

instance : Monad Traced where
  pure a := ⟨a, []⟩
  bind x f := ⟨(f x.val).val, x.calls ++ (f x.val).calls⟩

@[simp] theorem Traced.val_bind {α β : Type} (x : Traced α) (f : α → Traced β) :
    (x >>= f).val = (f x.val).val := rfl

@[simp] theorem Traced.calls_bind {α β : Type} (x : Traced α) (f : α → Traced β) :
    (x >>= f).calls = x.calls ++ (f x.val).calls := rfl

@[simp] theorem Traced.calls_pure {α : Type} (a : α) : (pure a : Traced α).calls = [] := rfl

/-- The code's calls, each listed with its result. -/
def listing : Kit Traced where
  sendhcmd d i q :=
    let r := sendhcmd d i q
    ⟨r, [.sendhcmd q r.1]⟩
  removeHead d q :=
    let r := removeHead (d.tq q)
    ⟨r, [.removeHead q r.1]⟩
  getFreeSQEntry f ch :=
    let r := getFreeSQEntry f ch
    ⟨r, [.getFreeSQEntry r.1]⟩
  setSQEntry memBase d i index opCode ppa :=
    ⟨setSQEntry memBase d.fcl i index 0 opCode ppa HCMD_SPACE, [.setSQEntry d ppa.ch.toNat index]⟩

theorem listing_faithful : listing.Faithful fun _ x => x.val := by
  constructor <;> intros <;> rfl

/-- A step of the FTL thread with its calls. -/
def ftlStepTraced (memBase : BitVec 32) (s : Sys) : Option (Sys × List Call) :=
  (ftlStepIn listing memBase s).map fun t => (t.val, t.calls)

theorem ftlStepTraced_fst (mb : BitVec 32) (s : Sys) :
    (ftlStepTraced mb s).map Prod.fst = ftlStep mb s := by
  rw [ftlStepTraced, Option.map_map]
  exact ftlStepIn_eq listing_faithful mb s

/-- The calls of a step, by where the FTL thread is. -/
inductive StepCalls (mb : BitVec 32) (s : Sys) : List Call → Prop
  | accept {i index k : Nat} {scmd : ShmCmd} {hcl : HcmdPool} {d : Dev} (hp : s.ftl = .got i index scmd)
      (e : getHostCmdEntry s.dev.hcl = (some k, hcl))
      (hd : d = { s.dev with
        hcl := L2.Hcl.setEntry hcl k (fillEntry (hcl.queue k) scmd.toHostCmd index (s.c + 1)) }) :
      StepCalls mb s (sendIn listing d k .checkCache).calls
  | skip {q : Status} {cnt j : Nat} {ring : L2.TaskQueue Nat} (hp : s.ftl = .serve q cnt j) (hj : j < cnt)
      (e : removeHead (s.dev.tq q) = (none, ring)) : StepCalls mb s [.removeHead q none]
  | serve {q : Status} {cnt j i : Nat} {ring : L2.TaskQueue Nat} {d : Dev} (hp : s.ftl = .serve q cnt j)
      (hj : j < cnt) (e : removeHead (s.dev.tq q) = (some i, ring))
      (hd : d = { s.dev with tq := fun t => if t = q then ring else s.dev.tq t }) :
      StepCalls mb s (.removeHead q (some i) :: (funcIn listing mb q d i).calls)
  | round {sq : EmuSq} {rest : List EmuSq} (hp : s.ftl = .cqLoop) (e : s.dev.completeList = sq :: rest) :
      StepCalls mb s (cqRoundIn listing s.dev sq rest).calls
  | none : StepCalls mb s []

theorem stepCalls {mb : BitVec 32} {s s' : Sys} {calls : List Call}
    (hs : ftlStepTraced mb s = some (s', calls)) : StepCalls mb s calls := by
  obtain ⟨t, ht, he⟩ := Option.map_eq_some_iff.mp hs
  obtain rfl : t.calls = calls := congrArg Prod.snd he
  have hpure : ∀ {r : Sys}, some (pure r : Traced Sys) = some t → StepCalls mb s t.calls := fun h =>
    Option.some.inj h ▸ .none
  unfold ftlStepIn at ht
  split at ht
  · rename_i i index scmd hp
    split at ht
    · rename_i k hcl e
      rw [← Option.some.inj ht]
      exact .accept hp e rfl
    · exact hpure ht
  · rename_i q cnt j hp
    split at ht
    · rename_i hj
      rw [← Option.some.inj ht, Traced.calls_bind]
      rcases e : removeHead (s.dev.tq q) with ⟨_ | i, ring⟩
      · simp only [listing, e]
        exact .skip hp hj e
      · simp only [listing, e, Traced.calls_bind, Traced.calls_pure, List.append_nil]
        exact .serve hp hj e rfl
    · exact hpure ht
  · rename_i hp
    split at ht
    · exact hpure ht
    · rename_i sq rest e
      rw [← Option.some.inj ht, Traced.calls_bind, Traced.calls_pure, List.append_nil]
      exact .round hp e
  · split at ht
    · obtain ⟨⟨r, m⟩, -, ht⟩ := Option.bind_eq_some_iff.mp ht
      cases r with
      | none => exact hpure ht
      | some x => exact hpure ht
    · exact hpure ht
  · obtain ⟨m, -, ht⟩ := Option.bind_eq_some_iff.mp ht
    exact hpure ht
  · obtain ⟨m, -, ht⟩ := Option.bind_eq_some_iff.mp ht
    exact hpure ht
  · exact hpure ht
  · exact hpure ht

/-! ## No call fails -/

section
variable {d : Dev} {b : BePc} {f : Place → List Job}

theorem sendIn_listing (d : Dev) (i : Nat) (q : Status) :
    sendIn listing d i q = ⟨(sendhcmd d i q).2, [.sendhcmd q (sendhcmd d i q).1]⟩ := rfl

theorem sendIn_ok {d' : Dev} {q : Status} (h : Places d b f) (ht : d'.tq = d.tq)
    (hroom : (f (.queue q)).length < TASK_QUEUE_MAX) (i : Nat) :
    ∀ c ∈ (sendIn listing d' i q).calls, c.ok = true := by
  intro c hc
  rw [sendIn_listing] at hc
  rw [List.mem_singleton.mp hc, Call.ok, sendhcmd, ht]
  exact (addTail_spec (h.ring q) i (by simpa using hroom)).1

/-- The calls of `FTL_handle_tosq` when an entry is free. -/
theorem handleTosqIn_calls {mb : BitVec 32} {i k : Nat} {g : SqPool}
    (hg : getFreeSQEntry d.fcl fakePpa.ch.toNat = (some k, g)) :
    (handleTosqIn listing mb d i).calls =
      [.getFreeSQEntry (some k),
        .setSQEntry { d.setEntry i { d.entry i with bufCnt := 1 } with fcl := g }
          fakePpa.ch.toNat k] := by
  have h1 : (1 : UInt32).toNat = 1 := by decide
  have h2 : (0 : UInt32) < 1 := by decide
  have hl : listing.getFreeSQEntry d.fcl fakePpa.ch.toNat = ⟨(some k, g), [.getFreeSQEntry (some k)]⟩ := by
    simp only [listing, hg]
  simp only [handleTosqIn, h1, tosqLoopIn, h2, if_true, Dev.setEntry, Traced.calls_bind, Traced.val_bind, hl]
  rfl

/-- While there is room everywhere, every call of a handler succeeds. -/
theorem funcIn_ok (mb : BitVec 32) (q : Status) (i : Nat) (h : Places d b f) (hs : Sqs d b)
    (hroom : ∀ t, (f (.queue t)).length < TASK_QUEUE_MAX)
    (hl : (outstanding d b).length < HW_QUEUE_DEPTH) :
    ∀ c ∈ (funcIn listing mb q d i).calls, c.ok = true := by
  cases q with
  | checkCache =>
    unfold funcIn handleCheckcacheIn
    dsimp only
    cases (d.entry i).opCode with
    | write => exact sendIn_ok h rfl (hroom _) i
    | read => exact sendIn_ok h rfl (hroom _) i
    | unset => exact fun c hc => absurd hc List.not_mem_nil
    | erase => exact fun c hc => absurd hc List.not_mem_nil
  | toSq =>
    obtain ⟨k, g, hg⟩ := hs.free hl
    show ∀ c ∈ (handleTosqIn listing mb d i).calls, c.ok = true
    rw [handleTosqIn_calls hg]
    simp [Call.ok]
  | dataMoved =>
    unfold funcIn handleDatamoveIn
    dsimp only
    split
    · exact sendIn_ok h rfl (hroom _) i
    · exact sendIn_ok h rfl (hroom _) i
  | fromCq =>
    unfold funcIn handleFromcqIn
    dsimp only
    split
    · exact sendIn_ok h rfl (hroom _) i
    · exact sendIn_ok h rfl (hroom _) i
  | finish => exact fun c hc => absurd hc List.not_mem_nil
  | waitCq => exact fun c hc => absurd hc List.not_mem_nil

theorem cqRoundIn_ok (sq : EmuSq) (rest : List EmuSq) (h : Places d b f)
    (hroom : (f (.queue .fromCq)).length < TASK_QUEUE_MAX) :
    ∀ c ∈ (cqRoundIn listing d sq rest).calls, c.ok = true := by
  unfold cqRoundIn
  dsimp only
  split
  · exact sendIn_ok h rfl hroom _
  · exact fun c hc => absurd hc List.not_mem_nil

end

section
variable {mb : BitVec 32} {s s' : Sys} {n : Net}

/-- What a service takes off its queue. -/
theorem Sim.removed {q : Status} {cnt k : Nat} {r : Option Nat} {ring : L2.TaskQueue Nat} (h : Sim s n)
    (hp : s.ftl = .serve q cnt k) (hk : k < cnt) (e : removeHead (s.dev.tq q) = (r, ring)) :
    ∃ j rest, n.jobs (.queue q) = j :: rest ∧ r = some j.idx ∧
      Places { s.dev with tq := fun t => if t = q then ring else s.dev.tq t } s.be (pop n.jobs (.queue q)) := by
  obtain ⟨j, rest, hq⟩ := h.serving hp hk
  obtain ⟨h1, h2⟩ := h.dev.places.removeHead hq
  rw [e] at h1 h2
  exact ⟨j, rest, hq, h1, h2⟩

/-- In every run, of any commands and any interleaving, every task queue the
FTL thread sends to has room, every queue it takes from has a command, and a
submission queue entry is free whenever one is asked for: the branch that
requeues the command is never taken. -/
theorem calls_succeed {calls : List Call} (hr : (sys mb).Reachable s)
    (hs : ftlStepTraced mb s = some (s', calls)) :
    ftlStep mb s = some s' ∧ ∀ c ∈ calls, c.ok = true := by
  refine ⟨by rw [← ftlStepTraced_fst, hs]; rfl, ?_⟩
  obtain ⟨n, hI, h⟩ := reachable_sim hr
  cases stepCalls hs with
  | @accept i index k scmd hcl d hp e hd =>
    obtain ⟨hk, hnew⟩ := h.unused e
    subst hd
    exact sendIn_ok h.dev.places rfl
      (accept_room (j := ⟨s.accs.length, k, scmd.toHostCmd, s.polls⟩) hI.live hk hnew) k
  | skip hp hj e =>
    obtain ⟨j, r, -, hnone, -⟩ := h.removed hp hj e
    cases hnone
  | @serve q cnt k i ring d hp hj e hd =>
    obtain ⟨j, r, hq, -, h2⟩ := h.removed hp hj e
    have hroom := room hI.live hq
    subst hd
    intro c hc
    rcases List.mem_cons.mp hc with rfl | hc
    · rfl
    · exact funcIn_ok mb q i h2 (h.dev.sqs.perm rfl (List.Perm.refl _))
        (fun t => Nat.lt_of_le_of_lt (queue_length_le _ t) hroom)
        (Nat.lt_of_le_of_lt h2.outstanding_le hroom) c hc
  | @round sq rest hp e =>
    obtain ⟨j, r, hq, -⟩ := head_job (e ▸ h.dev.places.cpl)
    have hroom := Nat.lt_of_le_of_lt (queue_length_le _ .fromCq) (room hI.live hq)
    rw [pop_of_ne (by simp)] at hroom
    exact cqRoundIn_ok sq rest h.dev.places hroom
  | none => exact fun c hc => absurd hc List.not_mem_nil

end

/-- A read of one page, about to be sent: three calls. -/
theorem calls_succeed_send : ∃ s s' calls, (sys 0).Reachable s ∧
    ftlStepTraced 0 s = some (s', calls) ∧ calls.length = 3 ∧ ∀ c ∈ calls, c.ok = true := by
  obtain ⟨s, hr, hs⟩ := exists_run 0
    (P := fun s => (ftlStepTraced 0 s).any fun r => r.2.length == 3)
    (submit 0 ⟨SHM_READ_OPS, 20, 16384⟩ ++ List.replicate 15 .ftl) (by decide +kernel)
  obtain ⟨⟨s', calls⟩, he, hl⟩ := (Option.any_eq_true _ _).mp hs
  exact ⟨s, s', calls, hr, he, by simpa using hl, (calls_succeed hr he).2⟩

/-! ## Who holds a submission queue entry -/

/-- What a step does to the submission queue entries: nothing, one request
sent from a free entry, or one completed request taken off. -/
inductive SqStep (mb : BitVec 32) (s s' : Sys) : Prop
  | same (hf : s'.dev.fcl = s.dev.fcl)
      (hp : (outstanding s'.dev s'.be).Perm (outstanding s.dev s.be))
  | send {i k : Nat} {op : HcmdOpcode} {g : SqPool} {sq : EmuSq}
      (hg : getFreeSQEntry s.dev.fcl fakePpa.ch.toNat = (some k, g))
      (hf : s'.dev.fcl = setSQEntry mb g i k 0 op fakePpa HCMD_SPACE)
      (hsq : sq = ⟨fakePpa.ch.toNat, fakePpa.ce.toNat, k, s'.dev.fcl.entry fakePpa.ch.toNat k⟩)
      (hp : (outstanding s'.dev s'.be).Perm (sq :: outstanding s.dev s.be))
  | free {sq : EmuSq} (hf : s'.dev.fcl = freeSQEntry s.dev.fcl sq.ch sq.sqIndex)
      (hp : (sq :: outstanding s'.dev s'.be).Perm (outstanding s.dev s.be))

/-- Only `FTL_handle_tosq` touches the submission queue. -/
theorem func_frame (mb : BitVec 32) {q : Status} (hq : q ≠ .toSq) (d : Dev) (i : Nat) :
    (func mb q d i).fcl = d.fcl ∧ (func mb q d i).registerList = d.registerList ∧
      (func mb q d i).completeList = d.completeList := by
  cases q with
  | checkCache =>
    unfold func handleCheckcache
    dsimp only
    cases (d.entry i).opCode <;> exact ⟨rfl, rfl, rfl⟩
  | toSq => exact absurd rfl hq
  | dataMoved =>
    unfold func handleDatamove
    dsimp only
    split <;> exact ⟨rfl, rfl, rfl⟩
  | fromCq =>
    unfold func handleFromcq
    dsimp only
    split <;> exact ⟨rfl, rfl, rfl⟩
  | finish => exact ⟨rfl, rfl, rfl⟩
  | waitCq => exact ⟨rfl, rfl, rfl⟩

section
variable {mb : BitVec 32} {s s' : Sys} {n : Net}

theorem SqStep.of_lists (h1 : s'.dev.fcl = s.dev.fcl)
    (h2 : s'.dev.registerList = s.dev.registerList) (h3 : s'.dev.completeList = s.dev.completeList)
    (h4 : s'.be = s.be) : SqStep mb s s' := by
  refine .same h1 ?_
  rw [outstanding, h2, h3, h4]
  exact List.Perm.refl _

theorem sq_step_serve {q : Status} {cnt k i : Nat} {ring : L2.TaskQueue Nat} {d : Dev} (hI : Inv n)
    (h : Sim s n) (hp : s.ftl = .serve q cnt k) (hlt : k < cnt)
    (e : removeHead (s.dev.tq q) = (some i, ring))
    (hd : d = { s.dev with tq := fun t => if t = q then ring else s.dev.tq t })
    (hdev : s'.dev = func mb q d i) (hbe : s'.be = s.be) : SqStep mb s s' := by
  obtain ⟨j, r, hq⟩ := h.serving hp hlt
  obtain ⟨h1, h2⟩ := h.dev.places.removeHead hq
  by_cases htq : q = .toSq
  · subst htq
    have hroom := Nat.lt_of_le_of_lt h2.outstanding_le (room hI.live hq)
    obtain ⟨t, g, hg⟩ := h.dev.sqs.free hroom
    have heq := @handleTosq_eq mb d i t g (by rw [hd]; exact hg)
    simp only [func, heq] at hdev
    subst hd
    refine .send hg (by rw [hdev]) rfl ?_
    refine List.perm_iff_count.mpr fun a => ?_
    simp only [outstanding, hdev, hbe, List.count_append, List.count_cons, List.count_nil]
    omega
  · obtain ⟨h3, h4, h5⟩ := func_frame mb htq d i
    subst hd
    exact .of_lists (by rw [hdev, h3]) (by rw [hdev, h4]) (by rw [hdev, h5]) hbe

theorem sq_step_round {sq : EmuSq} {rest : List EmuSq} (e : s.dev.completeList = sq :: rest)
    (hdev : s'.dev = cqRound s.dev sq rest) (hbe : s'.be = s.be) : SqStep mb s s' := by
  have hperm : (sq :: (s.dev.registerList ++ s.be.inHand ++ s.be.executed ++ rest)).Perm
      (outstanding s.dev s.be) := by
    refine List.perm_iff_count.mpr fun a => ?_
    simp only [outstanding, e, List.count_append, List.count_cons]
    omega
  rw [cqRound_eq rfl] at hdev
  split at hdev
  · refine .free (by rw [hdev]; rfl) ?_
    rw [hdev, hbe]
    exact hperm
  · refine .free (by rw [hdev]) ?_
    rw [hdev, hbe]
    exact hperm

theorem sq_step_be (hs : beStep s = some s') : SqStep mb s s' := by
  cases beStep_cases hs with
  | take hb hp e =>
    refine .same rfl (List.perm_iff_count.mpr fun a => ?_)
    simp only [outstanding, hb, e, BePc.inHand, BePc.executed, List.count_append, List.count_cons,
      List.count_nil]
    omega
  | exec hb =>
    refine .same rfl (List.perm_iff_count.mpr fun a => ?_)
    simp only [outstanding, hb, BePc.inHand, BePc.executed, List.count_append, List.count_nil]
    omega
  | post hb hp =>
    refine .same rfl (List.perm_iff_count.mpr fun a => ?_)
    simp only [outstanding, hb, BePc.inHand, BePc.executed, List.count_append, List.count_nil]
    omega

theorem sq_step_ftl (hI : Inv n) (h : Sim s n) (hs : ftlStep mb s = some s') : SqStep mb s s' := by
  cases ftlStep_cases hs with
  | serve hp hj e hd hd' => exact sq_step_serve hI h hp hj e hd hd' rfl
  | round hp e => exact sq_step_round e rfl rfl
  | _ => exact .of_lists rfl rfl rfl rfl

theorem sq_step {l : Lbl} (hr : (sys mb).Reachable s) (hs : step mb s l = some s') :
    SqStep mb s s' := by
  obtain ⟨n, hI, h⟩ := reachable_sim hr
  cases l with
  | host k a =>
    obtain ⟨h1, h2, -⟩ := hostStep_frame hs
    exact .of_lists (by rw [h1]) (by rw [h1]) (by rw [h1]) h2
  | ftl => exact sq_step_ftl hI h hs
  | be => exact sq_step_be hs

/-- Only one channel is used, and an outstanding request finds its entry as
it was copied. -/
structure SqHeld (s : Sys) : Prop where
  other : ∀ ch k, ch ≠ fakePpa.ch.toNat → sqBit s.dev.fcl ch k = false
  content : ∀ sq ∈ outstanding s.dev s.be, s.dev.fcl.entry sq.ch sq.sqIndex = sq.sqEntry

theorem SqHeld.step (hr : (sys mb).Reachable s) (h : SqHeld s) (hs : SqStep mb s s') :
    SqHeld s' := by
  obtain ⟨n, -, hsim⟩ := reachable_sim hr
  cases hs with
  | same hf hp =>
    refine ⟨fun ch k hc => by rw [hf]; exact h.other ch k hc, fun sq hsq => ?_⟩
    rw [hf]
    exact h.content sq (hp.mem_iff.mp hsq)
  | @send i k op g sq hg hf hsq hp =>
    obtain ⟨-, hclear, -, hset⟩ := getFreeSQEntry_some hg
    refine ⟨fun ch c hc => ?_, fun t ht => ?_⟩
    · rw [hf, setSQEntry_sqBit, hset, h.other ch c hc]
      simp [hc]
    · rcases List.mem_cons.mp (hp.mem_iff.mp ht) with rfl | ht
      · rw [hsq]
      · -- the entry was free, so it is not the one of `t`
        have hne : ¬ (t.ch = fakePpa.ch.toNat ∧ t.sqIndex = k) := by
          intro heq
          rw [(hsim.dev.sqs.bit k).mpr (List.mem_map.mpr ⟨t, ht, heq.2⟩)] at hclear
          cases hclear
        rw [hf, setSQEntry_other _ _ _ _ _ _ _ _ hne, getFreeSQEntry_entry hg]
        exact h.content t ht
  | @free sq hf hp =>
    refine ⟨fun ch k hc => ?_, fun t ht => ?_⟩
    · rw [hf, freeSQEntry_sqBit, h.other ch k hc, Bool.and_false]
    · rw [hf]
      exact h.content t (hp.mem_iff.mp (List.mem_cons_of_mem _ ht))

theorem sqHeld_inv (mb : BitVec 32) : (sys mb).InductiveUnder (sys mb).Reachable SqHeld where
  init := by
    intro s hstart
    obtain ⟨m, -, rfl⟩ := hstart
    refine ⟨fun ch k _ => sqBit_init ch k, ?_⟩
    simp [outstanding, Sys.init, Dev.init, BePc.inHand, BePc.executed]
  step := fun s l s' hr h hs => h.step hr (sq_step hr hs)

/-- The outstanding requests that name entry `i` of channel `ch`. -/
def requestsFor (d : Dev) (b : BePc) (ch i : Nat) : Nat :=
  (outstanding d b).countP fun sq => sq.ch = ch ∧ sq.sqIndex = i

theorem Sqs.requestsFor_eq {d : Dev} {b : BePc} (h : Sqs d b) (i : Nat) :
    requestsFor d b fakePpa.ch.toNat i =
      if sqBit d.fcl fakePpa.ch.toNat i = true then 1 else 0 := by
  have hcount : requestsFor d b fakePpa.ch.toNat i = ((outstanding d b).map EmuSq.sqIndex).count i := by
    rw [requestsFor, List.count, List.countP_map]
    refine List.countP_congr fun sq hsq => ?_
    simp [h.ch sq hsq]
  rw [hcount, h.nodup.count]
  simp only [h.bit i]

theorem Sqs.requestsFor_other {d : Dev} {b : BePc} (h : Sqs d b) {ch : Nat}
    (hc : ch ≠ fakePpa.ch.toNat) (i : Nat) : requestsFor d b ch i = 0 := by
  refine List.countP_eq_zero.mpr fun sq hsq => ?_
  rw [h.ch sq hsq]
  simp [hc.symm]

/-- Entries are set by `FTL_handle_tosq` only, and it sets one that was free. -/
theorem funcIn_setSQEntry {q : Status} {d d' : Dev} {b : BePc} {i ch k : Nat}
    (hc : Call.setSQEntry d' ch k ∈ (funcIn listing mb q d i).calls) (h : Sqs d b)
    (hl : (outstanding d b).length < HW_QUEUE_DEPTH) : requestsFor d' b ch k = 0 := by
  have hsend : ∀ e t, Call.setSQEntry d' ch k ∉ (sendIn listing e i t).calls := by
    intro e t hin
    cases List.mem_singleton.mp hin
  cases q with
  | checkCache =>
    unfold funcIn handleCheckcacheIn at hc
    dsimp only at hc
    split at hc
    · exact absurd hc (hsend _ _)
    · exact absurd hc (hsend _ _)
    · exact absurd hc List.not_mem_nil
  | toSq =>
    obtain ⟨t, g, hg⟩ := h.free hl
    obtain ⟨-, hclear, -, -⟩ := getFreeSQEntry_some hg
    rw [show (funcIn listing mb .toSq d i).calls = _ from handleTosqIn_calls hg] at hc
    rcases List.mem_cons.mp hc with hc | hc
    · cases hc
    · cases List.mem_singleton.mp hc
      have hnone := h.requestsFor_eq k
      rw [hclear] at hnone
      exact hnone
  | dataMoved =>
    unfold funcIn handleDatamoveIn at hc
    dsimp only at hc
    split at hc
    · exact absurd hc (hsend _ _)
    · exact absurd hc (hsend _ _)
  | fromCq =>
    unfold funcIn handleFromcqIn at hc
    dsimp only at hc
    split at hc
    · exact absurd hc (hsend _ _)
    · exact absurd hc (hsend _ _)
  | finish => exact absurd hc List.not_mem_nil
  | waitCq => exact absurd hc List.not_mem_nil

theorem cqRoundIn_setSQEntry (d d' : Dev) (sq : EmuSq) (rest : List EmuSq) (ch k : Nat) :
    Call.setSQEntry d' ch k ∉ (cqRoundIn listing d sq rest).calls := by
  unfold cqRoundIn
  dsimp only
  split
  · exact fun hc => by cases List.mem_singleton.mp hc
  · exact List.not_mem_nil

theorem ftlStepTraced_setSQEntry {calls : List Call} {d : Dev} {ch i : Nat} (hI : Inv n)
    (h : Sim s n) (hs : ftlStepTraced mb s = some (s', calls))
    (hc : Call.setSQEntry d ch i ∈ calls) : requestsFor d s.be ch i = 0 := by
  cases stepCalls hs with
  | accept hp e hd => cases List.mem_singleton.mp hc
  | skip hp hj e => cases List.mem_singleton.mp hc
  | @serve q cnt k l ring d' hp hj e hd =>
    obtain ⟨j, r, hq, -, h2⟩ := h.removed hp hj e
    subst hd
    rcases List.mem_cons.mp hc with hc | hc
    · cases hc
    · exact funcIn_setSQEntry hc (h.dev.sqs.perm rfl (List.Perm.refl _))
        (Nat.lt_of_le_of_lt h2.outstanding_le (room hI.live hq))
  | round hp e => exact absurd hc (cqRoundIn_setSQEntry _ _ _ _ _ _)
  | none => exact absurd hc List.not_mem_nil

/-- Submission queue entries are owned by one request at a time. In every
state between two steps the bit of an entry is set exactly while one
outstanding request names it, and a clear bit means there is none: no bit is
leaked, `FCL_set_SQ_entry` is never called on the entry of an outstanding
request, and the entry keeps what was copied to the back end. -/
theorem sq_entries_owned (hr : (sys mb).Reachable s) (ch i : Nat) :
    (sqBit s.dev.fcl ch i = true ↔ requestsFor s.dev s.be ch i = 1) ∧
      (sqBit s.dev.fcl ch i = false → requestsFor s.dev s.be ch i = 0) ∧
      (∀ s' calls d, ftlStepTraced mb s = some (s', calls) → Call.setSQEntry d ch i ∈ calls →
        requestsFor d s.be ch i = 0) ∧
      ∀ sq ∈ outstanding s.dev s.be, s.dev.fcl.entry sq.ch sq.sqIndex = sq.sqEntry := by
  obtain ⟨n, hI, h⟩ := reachable_sim hr
  have hheld := (sqHeld_inv mb).reachable (fun _ hr => hr) s hr
  have hcount : requestsFor s.dev s.be ch i = if sqBit s.dev.fcl ch i = true then 1 else 0 := by
    by_cases hc : ch = fakePpa.ch.toNat
    · rw [hc]
      exact h.dev.sqs.requestsFor_eq i
    · rw [h.dev.sqs.requestsFor_other hc, hheld.other ch i hc]
      rfl
  refine ⟨?_, ?_, fun s' calls d hs hin => ftlStepTraced_setSQEntry hI h hs hin, hheld.content⟩
  · rw [hcount]
    cases sqBit s.dev.fcl ch i <;> simp
  · intro hb
    rw [hcount, hb]
    rfl

end

/-- A read of one page between its submission and its completion. -/
theorem sq_entries_owned_read : ∃ s, (sys 0).Reachable s ∧ sqBit s.dev.fcl 1 0 = true ∧
    requestsFor s.dev s.be 1 0 = 1 ∧ sqBit s.dev.fcl 1 1 = false ∧ requestsFor s.dev s.be 1 1 = 0 := by
  obtain ⟨s, hr, hs⟩ := exists_run 0
    (P := fun s => sqBit s.dev.fcl 1 0 && !sqBit s.dev.fcl 1 1)
    (submit 0 ⟨SHM_READ_OPS, 20, 16384⟩ ++ List.replicate 16 .ftl) (by decide +kernel)
  simp only [Bool.and_eq_true, Bool.not_eq_true'] at hs
  exact ⟨s, hr, hs.1, (sq_entries_owned hr 1 0).1.mp hs.1, hs.2, (sq_entries_owned hr 1 1).2.1 hs.2⟩

end OpenSSDEmu.L4.Pipeline
