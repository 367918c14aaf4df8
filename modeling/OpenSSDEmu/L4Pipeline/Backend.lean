import OpenSSDEmu.Core.LTS
import OpenSSDEmu.L2Machine.List
import OpenSSDEmu.L4Pipeline.Handlers

/-!
# The queue between the FTL and the backend

`register_list` and `complete_list` of `emu/be/be.c` with their nodes: each
request is a `malloc`ed `EMU_sq` whose node `BE_send_sq` links into the first
list, `be` moves to the second, and `FTL_CQ_polling` unlinks and frees.
`L4Pipeline.Handlers` has two lists of requests in their place.

All three work under `fcl_be_mutex`. `BE_send_sq` and the two sections of `be`
are one step each, not enabled while `FTL_CQ_polling` holds the mutex, which it
does for all its rounds. `be` holds a request outside the mutex in between.
Everything else may change at any time: the entries in `FCTL_MEM` that requests
were copied from, and memory that is not part of a live record.

* `Rep.send`, `Rep.take`, `Rep.post`, `Rep.round`: what each section does to
  the two lists.
* `reliable_fifo`: nothing is lost, repeated, reordered or altered, in any
  interleaving, and both lists are circular in every state.
* `never_faults`: no section follows a bad pointer.
* `sendSQEntry_shows`, `beTake_shows`, `bePost_shows`, `cqRound_shows`: the
  sections are the list operations of `L4Pipeline.Handlers`.

Left out: the log lines, the condition variable (a `be` that waits takes no
step), and the failing `malloc`. `none` is a step that is not enabled or one
that follows a null pointer.
-/
namespace OpenSSDEmu.L4.Backend
open L2.Fcl L2.List
open Pipeline (EmuSq Dev)

/-- The address of a list node: the two heads, and the node of the record at `p`. -/
inductive Node | register | complete | sq (p : Nat)
  deriving DecidableEq, Repr

/-- The links, the records and the blocks `malloc` has handed out. -/
structure Mem where
  node : Heap Node
  sq : Nat → EmuSq
  live : Nat → Bool

/-! ## The sections -/

/-- mirrors src/lib/list.h:12-14 -/
def containerOf : Option Node → Option Nat
  | some (.sq p) => some p
  | _ => none

/-- `p` is what `malloc` returns.
mirrors src/emu/be/be.c:99-117 -/
def beSendSq (m : Mem) (p sqIndex : Nat) (sqSet : HwQueueEntry) (ch ce : Nat) : Option Mem := do
  let live := fun q => if q = p then true else m.live q
  let sq := fun q => if q = p then ⟨ch, ce, sqIndex, sqSet⟩ else m.sq q
  let node ← listAddTail m.node (.sq p) .register
  return { node, sq, live }

/-- `none` also while `be` waits for a request.
mirrors src/emu/be/be.c:44-54 -/
def beTake (m : Mem) : Option (Nat × Mem) :=
  if listEmpty m.node .register then none
  else do
    let rSq ← containerOf (m.node .register).next
    let node ← listDeleteHead m.node .register
    return (rSq, { m with node })

/-- mirrors src/emu/be/be.c:92-94 -/
def bePost (m : Mem) (rSq : Nat) : Option Mem := do
  let node ← listAddTail m.node (.sq rSq) .complete
  return { m with node }

/-- One round of the loop, with the record it works on; the inner `none` is the
end of the loop. What the round does with the record is `Pipeline.cqRound`.
mirrors src/ftl/ftl_core1.c:79-93 -/
def cqPollingRound (m : Mem) : Option (Option EmuSq × Mem) :=
  if (m.node .complete).next = some .complete then some (none, m)
  else do
    let sq ← containerOf (m.node .complete).next
    let r := m.sq sq
    let node ← listDeleteHead m.node .complete
    return (some r, { m with node, live := fun q => if q = sq then false else m.live q })

/-! ## The two lists -/

/-- `register_list` holds the records `reg`, `complete_list` the records `cpl`, the
backend has `hand`, and these are all the live records. -/
structure Rep (m : Mem) (reg hand cpl : List Nat) : Prop where
  register : IsList m.node .register (reg.map .sq)
  complete : IsList m.node .complete (cpl.map .sq)
  nodup : (reg ++ hand ++ cpl).Nodup
  live : ∀ p, m.live p = true ↔ p ∈ reg ++ hand ++ cpl

theorem sq_injective : Function.Injective Node.sq := fun _ _ h => Node.sq.inj h

section
variable {m : Mem} {reg hand cpl xs ys : List Nat} {p : Nat} {a : Node}

theorem sq_mem_map : Node.sq p ∈ xs.map .sq ↔ p ∈ xs := List.mem_map_of_injective sq_injective

/-- The nodes of the two lists are different ones. -/
theorem apart_register (hd : ∀ q ∈ xs, q ∉ ys) (ha : a ∈ Node.complete :: xs.map .sq) :
    a ∉ Node.register :: ys.map .sq := by
  rcases List.mem_cons.mp ha with rfl | ha
  · simp
  · obtain ⟨q, hq, rfl⟩ := List.mem_map.mp ha
    simpa [sq_mem_map] using hd q hq

theorem apart_complete (hd : ∀ q ∈ xs, q ∉ ys) (ha : a ∈ Node.register :: xs.map .sq) :
    a ∉ Node.complete :: ys.map .sq := by
  rcases List.mem_cons.mp ha with rfl | ha
  · simp
  · obtain ⟨q, hq, rfl⟩ := List.mem_map.mp ha
    simpa [sq_mem_map] using hd q hq

theorem Rep.apart (h : Rep m reg hand cpl) : (∀ q ∈ cpl, q ∉ reg) ∧ ∀ q ∈ reg, q ∉ cpl := by
  have hn := h.nodup
  rw [List.append_assoc, List.nodup_append] at hn
  exact ⟨fun q hq hr => hn.2.2 q hr q (List.mem_append_right _ hq) rfl,
    fun q hr hq => hn.2.2 q hr q (List.mem_append_right _ hq) rfl⟩

/-- `BE_send_sq`: a new record at the end of `register_list`. -/
theorem Rep.send (h : Rep m reg hand cpl) (hp : m.live p = false) (sqIndex : Nat)
    (sqSet : HwQueueEntry) (ch ce : Nat) :
    ∃ m', beSendSq m p sqIndex sqSet ch ce = some m' ∧ Rep m' (reg ++ [p]) hand cpl ∧
      m'.sq p = ⟨ch, ce, sqIndex, sqSet⟩ ∧ ∀ q, q ≠ p → m'.sq q = m.sq q := by
  have hnew : p ∉ reg ++ hand ++ cpl := fun hin => by
    rw [(h.live p).mpr hin] at hp
    cases hp
  have hnew' : p ∉ reg ∧ p ∉ hand ∧ p ∉ cpl := by simpa [not_or, and_assoc] using hnew
  obtain ⟨node, e, hl, f⟩ := listAddTail_spec (n := .sq p) h.register
    (by simpa [sq_mem_map] using hnew'.1)
  refine ⟨_, by simp only [beSendSq, e]; rfl, ⟨?_, ?_, ?_, fun q => ?_⟩, by simp, fun q hq => by simp [hq]⟩
  · simpa using hl
  · refine f.isList h.complete fun a ha hin => ?_
    have hd : ∀ q ∈ cpl, q ∉ p :: reg := fun q hq => by
      rw [List.mem_cons, not_or]
      exact ⟨fun e => hnew'.2.2 (e ▸ hq), h.apart.1 q hq⟩
    refine apart_register hd ha ?_
    rw [List.map_cons]
    exact (List.Perm.swap _ _ _).mem_iff.mp hin
  · have hperm : (reg ++ [p] ++ hand ++ cpl).Perm (p :: (reg ++ hand ++ cpl)) := by simp
    exact hperm.nodup_iff.mpr (List.nodup_cons.mpr ⟨hnew, h.nodup⟩)
  · by_cases hq : q = p
    · simp [hq]
    · simpa [hq] using h.live q

/-- The first section of `be`: the head of `register_list` is in its hands. -/
theorem Rep.take (h : Rep m (p :: reg) [] cpl) :
    ∃ m', beTake m = some (p, m') ∧ Rep m' reg [p] cpl ∧ m'.sq = m.sq := by
  have hfirst : (m.node .register).next = some (.sq p) := Links.Circ.first h.register
  have he : listEmpty m.node .register = false := by
    rw [Bool.eq_false_iff]
    intro he
    have := h.register.empty_iff.mp he
    cases this
  obtain ⟨node, e, hl, -, f⟩ := listDeleteHead_spec h.register
  refine ⟨{ m with node }, ?_, ⟨hl, ?_, ?_, fun q => ?_⟩, rfl⟩
  · simp [beTake, he, hfirst, containerOf, e]
  · exact f.isList h.complete fun a ha => apart_register h.apart.1 ha
  · have hn := h.nodup
    have hperm : (reg ++ [p] ++ cpl).Perm (p :: reg ++ [] ++ cpl) := by simp
    exact hperm.nodup_iff.mpr hn
  · rw [h.live q]
    simp only [List.append_nil, List.cons_append, List.mem_cons, List.mem_append, List.not_mem_nil,
      or_false]
    tauto

/-- The second section of `be`: the request is at the end of `complete_list`. -/
theorem Rep.post (h : Rep m reg [p] cpl) :
    ∃ m', bePost m p = some m' ∧ Rep m' reg [] (cpl ++ [p]) ∧ m'.sq = m.sq := by
  have hn := h.nodup
  have hperm : (reg ++ [] ++ (cpl ++ [p])).Perm (reg ++ [p] ++ cpl) := by
    have hswap : (cpl ++ [p]).Perm ([p] ++ cpl) := List.perm_append_comm
    simpa using hswap.append_left reg
  have hnew : p ∉ reg ∧ p ∉ cpl := by
    simp only [List.append_assoc, List.singleton_append, List.nodup_append, List.nodup_cons] at hn
    exact ⟨fun hr => hn.2.2 p hr p List.mem_cons_self rfl, hn.2.1.1⟩
  obtain ⟨node, e, hl, f⟩ := listAddTail_spec (n := .sq p) h.complete
    (by simpa [sq_mem_map] using hnew.2)
  refine ⟨{ m with node }, by simp [bePost, e], ⟨?_, ?_, hperm.nodup_iff.mpr hn, fun q => ?_⟩, rfl⟩
  · refine f.isList h.register fun a ha hin => ?_
    have hd : ∀ q ∈ reg, q ∉ p :: cpl := fun q hq => by
      rw [List.mem_cons, not_or]
      exact ⟨fun e => hnew.1 (e ▸ hq), h.apart.2 q hq⟩
    refine apart_complete hd ha ?_
    rw [List.map_cons]
    exact (List.Perm.swap _ _ _).mem_iff.mp hin
  · simpa using hl
  · exact (h.live q).trans hperm.mem_iff.symm

/-- A round of `FTL_CQ_polling`: the head of `complete_list` is unlinked and freed. -/
theorem Rep.round (h : Rep m reg hand (p :: cpl)) :
    ∃ m', cqPollingRound m = some (some (m.sq p), m') ∧ Rep m' reg hand cpl ∧ m'.sq = m.sq := by
  have hfirst : (m.node .complete).next = some (.sq p) := Links.Circ.first h.complete
  have hn := h.nodup
  have hperm : (p :: (reg ++ hand ++ cpl)).Perm (reg ++ hand ++ p :: cpl) := List.perm_middle.symm
  have hn' := hperm.nodup_iff.mpr hn
  rw [List.nodup_cons] at hn'
  obtain ⟨node, e, hl, -, f⟩ := listDeleteHead_spec h.complete
  refine ⟨⟨node, m.sq, fun q => if q = p then false else m.live q⟩, ?_, ⟨?_, hl, hn'.2, fun q => ?_⟩, rfl⟩
  · simp [cqPollingRound, hfirst, containerOf, e]
  · exact f.isList h.register fun a ha => apart_complete h.apart.2 ha
  · by_cases hq : q = p
    · subst hq
      simp only [if_true, Bool.false_eq_true, false_iff]
      exact hn'.1
    · simp only [hq, if_false, h.live q]
      rw [← hperm.mem_iff, List.mem_cons, or_iff_right hq]

theorem cqPollingRound_nil (h : Rep m reg hand []) : cqPollingRound m = some (none, m) := by
  have hfirst : (m.node .complete).next = some .complete := Links.Circ.first h.complete
  simp [cqPollingRound, hfirst]

end

/-! ## The threads -/

/-- `polling`: inside `FTL_CQ_polling`, with the mutex. -/
inductive FtlPc | run | polling
  deriving DecidableEq, Repr

/-- Before the mutex, on the way to it with a request, or holding one still to
be executed. -/
inductive BePc | idle | hand (rSq : Nat) | done (rSq : Nat)
  deriving DecidableEq, Repr

def BePc.held : BePc → List Nat
  | .idle => []
  | .hand p | .done p => [p]

/-- `hw ch i` is entry `i` of `hw_SQ[ch]`. `sent` has each request as it was when
`BE_send_sq` was called, `consumed` each as `FTL_CQ_polling` read it. -/
structure Chan where
  mem : Mem
  hw : Nat → Nat → HwQueueEntry
  ftl : FtlPc
  be : BePc
  sent : List EmuSq
  consumed : List EmuSq

/-- `write`: the FTL rewrites an entry in `FCTL_MEM`. `send`: `FCL_send_SQ_entry`,
`malloc` returning `p`. `ftl`: enter `FTL_CQ_polling`, a round of it, or leave it.
`other`: memory at `p`, which is no live record, is written. -/
inductive Lbl
  | write (ch i : Nat) (e : HwQueueEntry)
  | send (p index ch ce : Nat)
  | ftl
  | be
  | other (p : Nat) (n : ListNode Node) (sq : EmuSq)

def Mem.scribble (m : Mem) (p : Nat) (n : ListNode Node) (sq : EmuSq) : Mem :=
  { m with node := fun a => if a = .sq p then n else m.node a,
           sq := fun q => if q = p then sq else m.sq q }

/-- mirrors src/fcl/fcl.c:234-239, src/emu/be/be.c:42-117 and src/ftl/ftl_core1.c:75-95 -/
def step (s : Chan) : Lbl → Option Chan
  | .write ch i e => some { s with hw := fun c k => if c = ch ∧ k = i then e else s.hw c k }
  | .send p index ch ce =>
    if s.ftl = .run ∧ s.mem.live p = false then do
      let m ← beSendSq s.mem p index (s.hw ch index) ch ce
      return { s with mem := m, sent := s.sent ++ [⟨ch, ce, index, s.hw ch index⟩] }
    else none
  | .ftl =>
    match s.ftl with
    | .run => some { s with ftl := .polling }
    | .polling => do
      let (r, m) ← cqPollingRound s.mem
      match r with
      | none => return { s with ftl := .run }
      | some sq => return { s with mem := m, consumed := s.consumed ++ [sq] }
  | .be =>
    match s.be with
    | .idle =>
      if s.ftl = .run then do
        let (rSq, m) ← beTake s.mem
        return { s with mem := m, be := .hand rSq }
      else none
    | .hand rSq => some { s with be := .done rSq }
    | .done rSq =>
      if s.ftl = .run then do
        let m ← bePost s.mem rSq
        return { s with mem := m, be := .idle }
      else none
  | .other p n sq => if s.mem.live p = false then some { s with mem := s.mem.scribble p n sq } else none

/-- mirrors src/emu/be/be.c:19-20 -/
def chan : LTS Chan Lbl where
  init s := s.mem.node .register = ⟨some .register, some .register⟩ ∧
    s.mem.node .complete = ⟨some .complete, some .complete⟩ ∧ (∀ p, s.mem.live p = false) ∧
    s.ftl = .run ∧ s.be = .idle ∧ s.sent = [] ∧ s.consumed = []
  step s l s' := step s l = some s'

/-! ## Every interleaving -/

/-- The lists hold `reg` and `cpl`, and the requests are all there, in order. -/
structure Holds (s : Chan) (reg cpl : List Nat) : Prop where
  rep : Rep s.mem reg s.be.held cpl
  fifo : s.consumed ++ cpl.map s.mem.sq ++ s.be.held.map s.mem.sq ++ reg.map s.mem.sq = s.sent

section
variable {m m' : Mem} {s s' : Chan} {reg hand cpl : List Nat} {p : Nat}

/-- Live records keep their content if nothing but a dead one is written. -/
theorem Rep.map_sq (h : Rep m reg hand cpl) (hp : m.live p = false)
    (hold : ∀ q, q ≠ p → m'.sq q = m.sq q) (xs : List Nat) (hin : ∀ q ∈ xs, q ∈ reg ++ hand ++ cpl) :
    xs.map m'.sq = xs.map m.sq := by
  refine List.map_congr_left fun q hq => hold q ?_
  intro heq
  subst heq
  rw [(h.live q).mpr (hin q hq)] at hp
  cases hp

/-- Dead memory is nobody's business. -/
theorem Rep.scribble (h : Rep m reg hand cpl) (hp : m.live p = false) (n : ListNode Node) (sq : EmuSq) :
    Rep (m.scribble p n sq) reg hand cpl := by
  have hnew : p ∉ reg ++ hand ++ cpl := fun hin => by
    rw [(h.live p).mpr hin] at hp
    cases hp
  have hnew' : p ∉ reg ∧ p ∉ hand ∧ p ∉ cpl := by simpa [not_or, and_assoc] using hnew
  have hkeep : ∀ xs : List Nat, p ∉ xs → ∀ a : Node, a = .register ∨ a = .complete ∨ a ∈ xs.map .sq →
      (m.scribble p n sq).node a = m.node a := by
    intro xs hx a ha
    have hne : a ≠ .sq p := by
      rintro rfl
      simp [sq_mem_map, hx] at ha
    simp [Mem.scribble, hne]
  refine ⟨h.register.congr fun a ha => ?_, h.complete.congr fun a ha => ?_, h.nodup, h.live⟩
  · exact hkeep reg hnew'.1 a ((List.mem_cons.mp ha).imp_right .inr)
  · exact hkeep cpl hnew'.2.2 a (.inr (List.mem_cons.mp ha))

/-- Writing to a dead record leaves every request as it was sent. -/
theorem Holds.fifo_frame (h : Holds s reg cpl) (hp : s.mem.live p = false)
    (hold : ∀ q, q ≠ p → m'.sq q = s.mem.sq q) :
    s.consumed ++ cpl.map m'.sq ++ s.be.held.map m'.sq ++ reg.map m'.sq = s.sent := by
  have hsame := h.rep.map_sq hp hold
  rw [hsame reg fun q hq => by simp [hq], hsame cpl fun q hq => by simp [hq],
    hsame s.be.held fun q hq => by simp [hq]]
  exact h.fifo

theorem Holds.send {index ch ce : Nat} (h : Holds s reg cpl)
    (hs : step s (.send p index ch ce) = some s') : Holds s' (reg ++ [p]) cpl := by
  simp only [Backend.step] at hs
  split at hs
  · rename_i hx
    obtain ⟨m, e, hrep, hnew, hold⟩ := h.rep.send hx.2 index (s.hw ch index) ch ce
    simp only [e, Option.bind_eq_bind, Option.bind_some, Option.pure_def, Option.some.injEq] at hs
    subst hs
    refine ⟨hrep, ?_⟩
    show s.consumed ++ cpl.map m.sq ++ s.be.held.map m.sq ++ (reg ++ [p]).map m.sq = s.sent ++ [_]
    rw [List.map_append, ← List.append_assoc, h.fifo_frame hx.2 hold, List.map_singleton, hnew]
  · cases hs

/-- The FTL enters `FTL_CQ_polling`, leaves it, or reads the oldest completion. -/
theorem Holds.ftl (h : Holds s reg cpl) (hs : step s .ftl = some s') :
    ∃ reg' cpl', Holds s' reg' cpl' := by
  simp only [Backend.step] at hs
  split at hs
  · cases hs
    exact ⟨reg, cpl, h.rep, h.fifo⟩
  · match cpl, h with
    | [], h =>
      simp only [cqPollingRound_nil h.rep, Option.bind_eq_bind, Option.bind_some, Option.pure_def,
        Option.some.injEq] at hs
      subst hs
      exact ⟨reg, [], h.rep, h.fifo⟩
    | p :: cpl, h =>
      obtain ⟨m, e, hrep, hsq⟩ := h.rep.round
      simp only [e, Option.bind_eq_bind, Option.bind_some, Option.pure_def, Option.some.injEq] at hs
      subst hs
      have hfifo := h.fifo
      refine ⟨reg, cpl, hrep, ?_⟩
      rw [hsq]
      simpa using hfifo

/-- `be` takes the oldest request, executes it, or appends it to `complete_list`. -/
theorem Holds.be (h : Holds s reg cpl) (hs : step s .be = some s') :
    ∃ reg' cpl', Holds s' reg' cpl' := by
  have hrep := h.rep
  have hfifo := h.fifo
  simp only [Backend.step] at hs
  split at hs
  · rename_i hb
    rw [hb] at hrep hfifo
    split at hs
    · match reg, hrep, hfifo with
      | [], hrep, hfifo =>
        have he := hrep.register.empty_iff.mpr rfl
        simp [beTake, he] at hs
      | p :: reg, hrep, hfifo =>
        obtain ⟨m, e, hrep', hsq⟩ := hrep.take
        simp only [e, Option.bind_eq_bind, Option.bind_some, Option.pure_def, Option.some.injEq] at hs
        subst hs
        refine ⟨reg, cpl, hrep', ?_⟩
        rw [hsq]
        simpa [BePc.held] using hfifo
    · cases hs
  · rename_i rSq hb
    rw [hb] at hrep hfifo
    cases hs
    exact ⟨reg, cpl, hrep, hfifo⟩
  · rename_i rSq hb
    rw [hb] at hrep hfifo
    split at hs
    · obtain ⟨m, e, hrep', hsq⟩ := hrep.post
      simp only [e, Option.bind_eq_bind, Option.bind_some, Option.pure_def, Option.some.injEq] at hs
      subst hs
      refine ⟨reg, cpl ++ [rSq], hrep', ?_⟩
      rw [hsq]
      simpa [BePc.held] using hfifo
    · cases hs

theorem Holds.other {n : ListNode Node} {sq : EmuSq} (h : Holds s reg cpl)
    (hs : step s (.other p n sq) = some s') : Holds s' reg cpl := by
  simp only [Backend.step] at hs
  split at hs
  · rename_i hp
    cases hs
    exact ⟨h.rep.scribble hp n sq, h.fifo_frame hp fun q hq => by simp [Mem.scribble, hq]⟩
  · cases hs

theorem Holds.step {l : Lbl} (h : Holds s reg cpl) (hs : step s l = some s') :
    ∃ reg' cpl', Holds s' reg' cpl' := by
  cases l with
  | write ch i e =>
    cases hs
    exact ⟨reg, cpl, h.rep, h.fifo⟩
  | send p index ch ce => exact ⟨_, _, h.send hs⟩
  | ftl => exact h.ftl hs
  | be => exact h.be hs
  | other p n sq => exact ⟨_, _, h.other hs⟩

end

theorem holds_inv : chan.Inductive fun s => ∃ reg cpl, Holds s reg cpl where
  init := by
    intro s hstart
    obtain ⟨hr, hc, hl, -, hb, hsent, hcons⟩ := hstart
    refine ⟨[], [], ⟨?_, ?_, ?_, fun p => ?_⟩, ?_⟩
    · exact Links.Circ.nil (by rw [hr]) (by rw [hr])
    · exact Links.Circ.nil (by rw [hc]) (by rw [hc])
    · simp [hb, BePc.held]
    · simp [hb, BePc.held, hl]
    · simp [hb, BePc.held, hsent, hcons]
  step := by
    intro s l s' hx hs
    obtain ⟨reg, cpl, h⟩ := hx
    exact h.step hs

section
variable {s : Chan}

/-- **The backend queue is a reliable FIFO channel.** -/
theorem reliable_fifo (hr : chan.Reachable s) :
    ∃ reg cpl : List Nat, IsList s.mem.node .register (reg.map .sq) ∧
      IsList s.mem.node .complete (cpl.map .sq) ∧
      s.consumed ++ cpl.map s.mem.sq ++ s.be.held.map s.mem.sq ++ reg.map s.mem.sq = s.sent := by
  obtain ⟨reg, cpl, h⟩ := holds_inv.reachable s hr
  exact ⟨reg, cpl, h.rep.register, h.rep.complete, h.fifo⟩

/-- No section follows a bad pointer: the FTL always has a next step, and so
has `be` unless it waits for a request. -/
theorem never_faults (hr : chan.Reachable s) :
    (∃ s', step s .ftl = some s') ∧
      (∀ p index ch ce, s.ftl = .run → s.mem.live p = false → ∃ s',
        step s (.send p index ch ce) = some s') ∧
      (s.ftl = .run → listEmpty s.mem.node .register = false → ∃ s', step s .be = some s') := by
  obtain ⟨reg, cpl, h⟩ := holds_inv.reachable s hr
  have hrep := h.rep
  refine ⟨?_, fun p index ch ce hf hp => ?_, fun hf he => ?_⟩
  · cases hf : s.ftl with
    | run => exact ⟨_, by simp only [step, hf]; rfl⟩
    | polling =>
      match cpl, hrep with
      | [], hrep =>
        exact ⟨_, by simp only [step, hf, cqPollingRound_nil hrep, Option.bind_eq_bind,
          Option.bind_some]; rfl⟩
      | p :: cpl, hrep =>
        obtain ⟨m, e, -⟩ := hrep.round
        exact ⟨_, by simp only [step, hf, e, Option.bind_eq_bind, Option.bind_some]; rfl⟩
  · obtain ⟨m, e, -⟩ := hrep.send hp index (s.hw ch index) ch ce
    exact ⟨_, by simp only [step, hf, hp, and_self, if_true, e, Option.bind_eq_bind, Option.bind_some]; rfl⟩
  · cases hb : s.be with
    | idle =>
      rw [hb] at hrep
      match reg, hrep with
      | [], hrep =>
        rw [hrep.register.empty_iff.mpr rfl] at he
        cases he
      | p :: reg, hrep =>
        obtain ⟨m, e, -⟩ := hrep.take
        exact ⟨_, by simp only [step, hb, hf, if_true, e, Option.bind_eq_bind, Option.bind_some]; rfl⟩
    | hand p => exact ⟨_, by simp only [step, hb]; rfl⟩
    | done p =>
      rw [hb] at hrep
      obtain ⟨m, e, -⟩ := hrep.post
      exact ⟨_, by simp only [step, hb, hf, if_true, e, Option.bind_eq_bind, Option.bind_some]; rfl⟩

end

/-- Two requests copied from one entry, which is rewritten in between. -/
theorem reliable_fifo_rewritten : ∃ s, chan.Reachable s ∧ s.consumed.length = 1 ∧ s.sent.length = 2 ∧
    ∃ reg cpl : List Nat, IsList s.mem.node .register (reg.map .sq) ∧
      IsList s.mem.node .complete (cpl.map .sq) ∧
      s.consumed ++ cpl.map s.mem.sq ++ s.be.held.map s.mem.sq ++ reg.map s.mem.sq = s.sent := by
  let start : Chan :=
    { mem := { node := fun a => if a = .register then ⟨some .register, some .register⟩
                                else ⟨some .complete, some .complete⟩
               sq := fun _ => ⟨0, 0, 0, initHwQueue.entry 0 0⟩
               live := fun _ => false }
      hw := initHwQueue.entry, ftl := .run, be := .idle, sent := [], consumed := [] }
  have hrun : (LTS.exec step start [.send 0 3 1 0, .write 1 3 (initHwQueue.entry 1 7), .send 1 3 1 0,
      .be, .be, .be, .be, .ftl, .ftl]).any
      (fun s => decide (s.consumed.length = 1) && decide (s.sent.length = 2)) = true := by decide +kernel
  obtain ⟨s, he, hs⟩ := (Option.any_eq_true _ _).mp hrun
  simp only [Bool.and_eq_true, decide_eq_true_eq] at hs
  have h0 : chan.Reachable start := .start ⟨rfl, rfl, fun _ => rfl, rfl, rfl, rfl, rfl⟩
  have hr := LTS.Reachable.exec (fun _ _ _ h => h) h0 he
  exact ⟨s, hr, hs.1, hs.2, reliable_fifo hr⟩

/-! ## The lists of requests -/

/-- The memory shows the two lists of a device state, the backend holding `hand`. -/
def Shows (m : Mem) (hand : List Nat) (d : Dev) : Prop :=
  ∃ reg cpl, Rep m reg hand cpl ∧ d.registerList = reg.map m.sq ∧ d.completeList = cpl.map m.sq

section
variable {m : Mem} {d : Dev} {hand : List Nat} {p : Nat} {sq : EmuSq} {rest : List EmuSq}

theorem sendSQEntry_shows (h : Shows m hand d) (hp : m.live p = false) (index ch ce : Nat) :
    ∃ m', beSendSq m p index (d.fcl.entry ch index) ch ce = some m' ∧
      Shows m' hand (Pipeline.sendSQEntry d index ch ce) := by
  obtain ⟨reg, cpl, hrep, hreg, hcpl⟩ := h
  obtain ⟨m', e, hrep', hnew, hold⟩ := hrep.send hp index (d.fcl.entry ch index) ch ce
  have hsame := hrep.map_sq hp hold
  refine ⟨m', e, reg ++ [p], cpl, hrep', ?_, ?_⟩
  · rw [List.map_append, hsame reg fun q hq => by simp [hq], ← hreg]
    simp [Pipeline.sendSQEntry, hnew]
  · rw [hsame cpl fun q hq => by simp [hq], ← hcpl]
    rfl

theorem beTake_shows (h : Shows m [] d) (hl : d.registerList = sq :: rest) :
    ∃ p m', beTake m = some (p, m') ∧ m'.sq p = sq ∧ Shows m' [p] { d with registerList := rest } := by
  obtain ⟨reg, cpl, hrep, hreg, hcpl⟩ := h
  rw [hl] at hreg
  match reg, hrep, hreg with
  | p :: reg, hrep, hreg =>
    rw [List.map_cons, List.cons.injEq] at hreg
    obtain ⟨m', e, hrep', hsq⟩ := hrep.take
    exact ⟨p, m', e, by rw [hsq, hreg.1], reg, cpl, hrep', by rw [hsq]; exact hreg.2,
      by rw [hsq]; exact hcpl⟩

theorem bePost_shows (h : Shows m [p] d) :
    ∃ m', bePost m p = some m' ∧ Shows m' [] { d with completeList := d.completeList ++ [m.sq p] } := by
  obtain ⟨reg, cpl, hrep, hreg, hcpl⟩ := h
  obtain ⟨m', e, hrep', hsq⟩ := hrep.post
  refine ⟨m', e, reg, cpl ++ [p], hrep', by rw [hsq]; exact hreg, ?_⟩
  rw [hsq]
  simp [hcpl]

theorem cqRound_shows (h : Shows m hand d) (hl : d.completeList = sq :: rest) :
    ∃ m', cqPollingRound m = some (some sq, m') ∧ Shows m' hand (Pipeline.cqRound d sq rest) := by
  obtain ⟨reg, cpl, hrep, hreg, hcpl⟩ := h
  rw [hl] at hcpl
  match cpl, hrep, hcpl with
  | p :: cpl, hrep, hcpl =>
    rw [List.map_cons, List.cons.injEq] at hcpl
    obtain ⟨m', e, hrep', hsq⟩ := hrep.round
    refine ⟨m', by rw [e, hcpl.1], reg, cpl, hrep', ?_, ?_⟩
    · rw [hsq, ← hreg]
      unfold Pipeline.cqRound
      dsimp only
      split <;> rfl
    · rw [hsq, ← hcpl.2]
      rfl

end

end OpenSSDEmu.L4.Backend
