import OpenSSDEmu.Core.Atomic
import OpenSSDEmu.Core.Lock

/-!
# The spin locks of the two cores

`lib/lock.c` without `EMU`: a lock is a word, taken with the `ldrex`/`strex`
loop of `get_spin_lock` and given back by storing 0. Any number of processors
run the loop and the body of a call between the two, an instruction or an
access at a time, in any order (a sequentially consistent memory).

A processor's monitor is set by its `ldrex` and cleared by every store to the
lock; `Lbl.lose` clears it for any other reason, such as a store to a word
nearby. A `strex` without it fails.

* `Ok`: a processor whose monitor is set holds in `temp` what the lock holds,
  so a `strex` that succeeds finds 0.
* `spin_refines`: a body between `get_spin_lock` and `release_spin_lock` is a
  call that acts at once, when the lock is taken.
-/
namespace OpenSSDEmu.L2.SpinLock
open Atomic hiding Lbl step sys
open Lock (Guarded Use)

variable {P M O C R G : Type}

/-- The place of a processor: before an instruction of the loop, in the body,
before the store of 0, or out of both. `temp` is the loop's register.
mirrors src/lib/lock.c:31-47 -/
inductive Pc (O C R : Type)
  | out
  | ldrex (o : O)
  | teq (o : O) (temp : UInt32)
  | strexeq (o : O)
  | inside (c : C)
  | release (r : R)
  | done (r : R)
  deriving DecidableEq, Repr

def Pc.holds : Pc O C R → Bool
  | .inside _ | .release _ => true
  | _ => false

structure Smp (P M O C R G : Type) where
  lock : UInt32
  monitor : P → Bool
  pc : P → Pc O C R
  mem : M
  client : G

inductive Lbl (P O : Type)
  | call (p : P) (o : O)
  | run (p : P)
  | lose (p : P)
  | ret (p : P)
  deriving DecidableEq, Repr

variable [DecidableEq P]

/-- The next instruction or access. `strexeq` and `teqeq` are skipped when
`temp` is not 0, and `strexeq` leaves 0 in it if it has stored; with anything
else in it `bne` goes back to `ldrex`.
mirrors src/lib/lock.c:17-21,31-74 -/
def run (b : Body M O C R) (x : Smp P M O C R G) (p : P) : Option (Smp P M O C R G) :=
  match x.pc p with
  | .out | .done _ => none
  | .ldrex o =>
    some { x with monitor := Function.update x.monitor p true, pc := Function.update x.pc p (.teq o x.lock) }
  | .teq o temp => some { x with pc := Function.update x.pc p (if temp = 0 then .strexeq o else .ldrex o) }
  | .strexeq o =>
    if x.monitor p then
      some { x with lock := 1, monitor := fun _ => false, pc := Function.update x.pc p (.inside (b.start o)) }
    else some { x with pc := Function.update x.pc p (.ldrex o) }
  | .inside c =>
    match b.access c x.mem with
    | (.inl c', m) => some { x with mem := m, pc := Function.update x.pc p (.inside c') }
    | (.inr r, m) => some { x with mem := m, pc := Function.update x.pc p (.release r) }
  | .release r =>
    some { x with lock := 0, monitor := fun _ => false, pc := Function.update x.pc p (.done r) }

def step (b : Body M O C R) (k : Client P O R G) (x : Smp P M O C R G) : Lbl P O → Option (Smp P M O C R G)
  | .call p o =>
    match x.pc p with
    | .out =>
      if k.may x.client p o then
        some { x with pc := Function.update x.pc p (.ldrex o), client := k.call x.client p o }
      else none
    | _ => none
  | .run p => run b x p
  | .lose p => some { x with monitor := Function.update x.monitor p false }
  | .ret p =>
    match x.pc p with
    | .done r => some { x with pc := Function.update x.pc p .out, client := k.ret x.client p r }
    | _ => none

/-- `init_spin_lock` has stored 0. -/
def sys (b : Body M O C R) (k : Client P O R G) (m₀ : M) : LTS (Smp P M O C R G) (Lbl P O) :=
  .ofFn ⟨0, fun _ => false, fun _ => .out, m₀, k.init⟩ (step b k)

/-- What an instruction or an access does. -/
inductive Instr (b : Body M O C R) (x : Smp P M O C R G) (p : P) : Smp P M O C R G → Prop
  | ldrex (o : O) (h : x.pc p = .ldrex o) :
    Instr b x p
      { x with monitor := Function.update x.monitor p true, pc := Function.update x.pc p (.teq o x.lock) }
  | bne (o : O) (temp : UInt32) (h : x.pc p = .teq o temp) (ht : temp ≠ 0) :
    Instr b x p { x with pc := Function.update x.pc p (.ldrex o) }
  | teq (o : O) (h : x.pc p = .teq o 0) : Instr b x p { x with pc := Function.update x.pc p (.strexeq o) }
  | fails (o : O) (h : x.pc p = .strexeq o) (hm : x.monitor p = false) :
    Instr b x p { x with pc := Function.update x.pc p (.ldrex o) }
  | enters (o : O) (h : x.pc p = .strexeq o) (hm : x.monitor p = true) :
    Instr b x p
      { x with lock := 1, monitor := fun _ => false, pc := Function.update x.pc p (.inside (b.start o)) }
  | access (c c' : C) (m : M) (h : x.pc p = .inside c) (e : b.access c x.mem = (.inl c', m)) :
    Instr b x p { x with mem := m, pc := Function.update x.pc p (.inside c') }
  | last (c : C) (r : R) (m : M) (h : x.pc p = .inside c) (e : b.access c x.mem = (.inr r, m)) :
    Instr b x p { x with mem := m, pc := Function.update x.pc p (.release r) }
  | release (r : R) (h : x.pc p = .release r) :
    Instr b x p { x with lock := 0, monitor := fun _ => false, pc := Function.update x.pc p (.done r) }

theorem run_instr {b : Body M O C R} {x x' : Smp P M O C R G} {p : P} (hs : run b x p = some x') :
    Instr b x p x' := by
  unfold run at hs
  cases hpc : x.pc p with
  | out | done =>
    rw [hpc] at hs
    cases hs
  | ldrex o =>
    rw [hpc] at hs
    cases hs
    exact .ldrex o hpc
  | teq o temp =>
    rw [hpc] at hs
    cases hs
    by_cases ht : temp = 0
    · subst ht
      rw [if_pos rfl]
      exact .teq o hpc
    · rw [if_neg ht]
      exact .bne o temp hpc ht
  | strexeq o =>
    rw [hpc] at hs
    dsimp only at hs
    split at hs
    · rename_i hm
      cases hs
      exact .enters o hpc hm
    · rename_i hm
      cases hs
      exact .fails o hpc (Bool.eq_false_iff.mpr hm)
  | inside c =>
    rw [hpc] at hs
    dsimp only at hs
    split at hs
    · rename_i c' m e
      cases hs
      exact .access c c' m hpc e
    · rename_i r m e
      cases hs
      exact .last c r m hpc e
  | release r =>
    rw [hpc] at hs
    cases hs
    exact .release r hpc

/-- A monitor that is set speaks for the value in `temp`. -/
def Pc.linked (lock : UInt32) : Pc O C R → Prop
  | .teq _ temp => temp = lock
  | .strexeq _ => lock = 0
  | _ => True

/-- The stage of the call a processor is in. While it is in the body, the
atomic memory `am` is already what the body will make of `m`. -/
inductive Agrees (b : Body M O C R) (m am : M) : Pc O C R → Stage O R → Prop
  | out : Agrees b m am .out .out
  | ldrex (o : O) : Agrees b m am (.ldrex o) (.called o)
  | teq (o : O) (temp : UInt32) : Agrees b m am (.teq o temp) (.called o)
  | strexeq (o : O) : Agrees b m am (.strexeq o) (.called o)
  | inside {c : C} {r : R} (h : Runs b c m r am) : Agrees b m am (.inside c) (.done r)
  | release (r : R) (h : m = am) : Agrees b m am (.release r) (.done r)
  | done (r : R) : Agrees b m am (.done r) (.done r)

structure Ok (b : Body M O C R) (x : Smp P M O C R G) (a : State P M O R G) : Prop where
  guarded : Guarded (x.lock != 0) fun p => (x.pc p).holds
  linked : ∀ p, x.monitor p = true → (x.pc p).linked x.lock
  agrees : ∀ p, Agrees b x.mem a.mem (x.pc p) (a.stage p)
  mem : (∀ p, (x.pc p).holds = false) → x.mem = a.mem
  client : x.client = a.client

section
variable {b : Body M O C R} {k : Client P O R G} {call : O → M → R × M} {m₀ : M}
variable {x x' : Smp P M O C R G} {a : State P M O R G} {m am m' am' : M} {pc : Pc O C R} {st : Stage O R} {p : P}

/-- Outside the lock the memory is not looked at. -/
theorem Agrees.of_out (h : Agrees b m am pc st) (hpc : pc.holds = false) : Agrees b m' am' pc st := by
  cases h with
  | inside | release => cases hpc
  | out => exact .out
  | ldrex o => exact .ldrex o
  | teq o temp => exact .teq o temp
  | strexeq o => exact .strexeq o
  | done r => exact .done r

/-- One processor moves, and what it did to the lock, to the monitors and to the
two memories is in order. -/
theorem Ok.move (h : Ok b x a) {lock : UInt32} {monitor : P → Bool} (g : G)
    (hu : Use (x.lock != 0) (x.pc p).holds (lock != 0) pc.holds)
    (hmon : ∀ q, monitor q = true → (Function.update x.pc p pc q).linked lock)
    (hp : Agrees b m am pc st) (hq : ∀ q, q ≠ p → Agrees b m am (x.pc q) (a.stage q))
    (hm : (∀ q, (Function.update x.pc p pc q).holds = false) → m = am) :
    Ok b ⟨lock, monitor, Function.update x.pc p pc, m, g⟩ ⟨am, Function.update a.stage p st, g⟩ where
  guarded := by
    refine Guarded.use (p := p) (fun q hne => ?_) h.guarded ?_
    · dsimp only
      rw [Function.update_of_ne hne]
    · dsimp only
      rw [Function.update_self]
      exact hu
  linked := hmon
  agrees q := by
    dsimp only
    by_cases e : q = p
    · subst e
      rw [Function.update_self, Function.update_self]
      exact hp
    · rw [Function.update_of_ne e, Function.update_of_ne e]
      exact hq q e
  mem := hm
  client := rfl

theorem Ok.linked_update (h : Ok b x a) (hpc : pc.linked x.lock) (q : P) (hq : x.monitor q = true) :
    (Function.update x.pc p pc q).linked x.lock := by
  by_cases e : q = p
  · subst e
    rwa [Function.update_self]
  · rw [Function.update_of_ne e]
    exact h.linked q hq

/-- A step outside the lock. -/
theorem Ok.outside (h : Ok b x a) {monitor : P → Bool} (g : G) (ho : (x.pc p).holds = false)
    (hpc : pc.holds = false) (hmon : ∀ q, q ≠ p → monitor q = true → x.monitor q = true)
    (hlink : monitor p = true → pc.linked x.lock) (hp : Agrees b x.mem a.mem pc st) :
    Ok b ⟨x.lock, monitor, Function.update x.pc p pc, x.mem, g⟩ ⟨a.mem, Function.update a.stage p st, g⟩ := by
  refine h.move g ?_ (fun q hq => ?_) hp (fun q _ => h.agrees q) fun hall => h.mem fun q => ?_
  · rw [ho, hpc]
    exact .stay
  · by_cases e : q = p
    · subst e
      rw [Function.update_self]
      exact hlink hq
    · rw [Function.update_of_ne e]
      exact h.linked q (hmon q e hq)
  · by_cases e : q = p
    · subst e
      exact ho
    · have := hall q
      rwa [Function.update_of_ne e] at this

/-- A step of the loop that does not take the lock. -/
theorem Ok.loop (h : Ok b x a) {monitor : P → Bool} (ho : (x.pc p).holds = false) (hpc : pc.holds = false)
    (hmon : ∀ q, q ≠ p → monitor q = true → x.monitor q = true)
    (hlink : monitor p = true → pc.linked x.lock) (hp : Agrees b x.mem a.mem pc (a.stage p)) :
    Ok b { x with monitor, pc := Function.update x.pc p pc } a := by
  have hmove := h.outside x.client ho hpc hmon hlink hp
  rw [Function.update_eq_self] at hmove
  exact { hmove with client := h.client }

/-- A step of the body, with the lock taken: nobody else is in a body. -/
theorem Ok.body (h : Ok b x a) (hin : (x.pc p).holds = true) {lock : UInt32} {monitor : P → Bool}
    (hu : Use (x.lock != 0) true (lock != 0) pc.holds)
    (hmon : ∀ q, monitor q = true → (Function.update x.pc p pc q).linked lock)
    (hp : Agrees b m a.mem pc (a.stage p)) (hm : pc.holds = false → m = a.mem) :
    Ok b ⟨lock, monitor, Function.update x.pc p pc, m, x.client⟩ a := by
  have hmove := h.move x.client (by rw [hin]; exact hu) hmon hp
    (fun q hne => (h.agrees q).of_out (h.guarded.alone hin hne)) fun hall => hm (by
      have := hall p
      rwa [Function.update_self] at this)
  rw [Function.update_eq_self] at hmove
  exact { hmove with client := h.client }

/-- An instruction is a step of nobody in the atomic system, but for the store
that takes the lock. -/
theorem Ok.run (hb : b.Does call) (h : Ok b x a) (hi : Instr b x p x') :
    Ok b x' a ∨ ∃ l a', Atomic.step call k a l = some a' ∧ Ok b x' a' := by
  have hp := h.agrees p
  have hlinked := h.linked p
  generalize hst : a.stage p = st at hp
  cases hi with
  | ldrex o hpc =>
    rw [hpc] at hp
    cases hp
    refine .inl (h.loop (by rw [hpc]; rfl) rfl (fun q hne hq => ?_) (fun _ => rfl) ?_)
    · rwa [Function.update_of_ne hne] at hq
    · rw [hst]
      exact .teq o x.lock
  | bne o temp hpc =>
    rw [hpc] at hp
    cases hp
    refine .inl (h.loop (by rw [hpc]; rfl) rfl (fun _ _ => id) (fun _ => trivial) ?_)
    rw [hst]
    exact .ldrex o
  | teq o hpc =>
    rw [hpc] at hp hlinked
    cases hp
    refine .inl (h.loop (by rw [hpc]; rfl) rfl (fun _ _ => id) (fun hm => (hlinked hm).symm) ?_)
    rw [hst]
    exact .strexeq o
  | fails o hpc =>
    rw [hpc] at hp
    cases hp
    refine .inl (h.loop (by rw [hpc]; rfl) rfl (fun _ _ => id) (fun _ => trivial) ?_)
    rw [hst]
    exact .ldrex o
  | enters o hpc hm =>
    -- The store finds the lock free, and that is when the call acts.
    rw [hpc] at hp hlinked
    cases hp
    have hfree : (x.lock != 0) = false := by
      rw [hlinked hm]
      rfl
    have hempty := h.guarded.empty hfree
    refine .inr ⟨.act p, _, by unfold Atomic.step; dsimp only; rw [hst], ?_⟩
    rw [← h.client]
    refine h.move x.client ?_ (fun _ => Bool.noConfusion) (.inside ?_) (fun q _ => (h.agrees q).of_out (hempty q))
      fun hall => ?_
    · rw [hfree, hempty p]
      exact .enter rfl
    · rw [h.mem hempty]
      exact hb o a.mem
    · have := hall p
      rw [Function.update_self] at this
      cases this
  | access c c' m hpc e =>
    rw [hpc] at hp
    cases hp with
    | inside hruns =>
      refine .inl (h.body (by rw [hpc]; rfl) .stay (h.linked_update trivial) ?_ fun hf => by cases hf)
      rw [hst]
      exact .inside (hruns.of_inl e)
  | last c r m hpc e =>
    rw [hpc] at hp
    cases hp with
    | inside hruns =>
      obtain ⟨rfl, rfl⟩ := hruns.of_inr e
      refine .inl (h.body (by rw [hpc]; rfl) .stay (h.linked_update trivial) ?_ fun _ => rfl)
      rw [hst]
      exact .release r rfl
  | release r hpc =>
    rw [hpc] at hp
    cases hp with
    | release _ hmem =>
      refine .inl (h.body (by rw [hpc]; rfl) (.leave rfl) (fun _ => Bool.noConfusion) ?_ fun _ => hmem)
      rw [hst]
      exact .done r

theorem Ok.step {l : Lbl P O} (hb : b.Does call) (h : Ok b x a) (hs : step b k x l = some x') :
    Ok b x' a ∨ ∃ l a', Atomic.step call k a l = some a' ∧ Ok b x' a' := by
  cases l with
  | run p => exact h.run hb (run_instr hs)
  | lose p =>
    cases hs
    refine .inl { h with linked := fun q hq => h.linked q ?_ }
    dsimp only at hq
    by_cases e : q = p
    · subst e
      rw [Function.update_self] at hq
      cases hq
    · rwa [Function.update_of_ne e] at hq
  | call p o =>
    have hp := h.agrees p
    unfold SpinLock.step at hs
    dsimp only at hs
    split at hs
    · rename_i hpc
      split at hs
      · rename_i hmay
        cases hs
        rw [hpc] at hp
        generalize hst : a.stage p = st at hp
        cases hp
        refine .inr ⟨.call p o, _, by unfold Atomic.step; dsimp only; rw [hst]; exact if_pos (h.client ▸ hmay), ?_⟩
        rw [← h.client]
        exact h.outside _ (by rw [hpc]; rfl) rfl (fun _ _ => id) (fun _ => trivial) (.ldrex o)
      · cases hs
    · cases hs
  | ret p =>
    have hp := h.agrees p
    unfold SpinLock.step at hs
    dsimp only at hs
    split at hs
    · rename_i r hpc
      cases hs
      rw [hpc] at hp
      generalize hst : a.stage p = st at hp
      cases hp
      refine .inr ⟨.ret p, _, by unfold Atomic.step; dsimp only; rw [hst], ?_⟩
      rw [← h.client]
      exact h.outside _ (by rw [hpc]; rfl) rfl (fun _ _ => id) (fun _ => trivial) .out
    · cases hs

/-- A body between `get_spin_lock` and `release_spin_lock` acts at once. -/
theorem spin_refines (hb : b.Does call) : (sys b k m₀).Simulation (Atomic.sys call k m₀) (Ok b) where
  init x hx := by
    cases hx
    refine ⟨_, rfl, ⟨?_, ?_⟩, fun _ => Bool.noConfusion, fun _ => .out, fun _ => rfl, rfl⟩
    · simp [Pc.holds]
    · simp [Pc.holds]
  step x a l x' _ h hs := h.step hb hs

theorem exists_atomic (hb : b.Does call) (hr : (sys b k m₀).Reachable x) :
    ∃ a, (Atomic.sys call k m₀).Reachable a ∧ Ok b x a :=
  (spin_refines hb).reachable x hr

end
end OpenSSDEmu.L2.SpinLock
