import OpenSSDEmu.Core.LTS
import Mathlib.Logic.Function.Basic

/-!
# Calls that act at once

Parties that share a memory and make calls. A call is written down twice: as a
`Body`, which touches the memory one access at a time, and as a function of the
whole memory. Nothing here is about the emulator.

* `Runs`: a body that is not disturbed; `Body.Does`: what it then amounts to.
* `sys`: every call acts in one step, somewhere between its start and its end.
  `Client` is the program that makes the calls, as far as it decides which call
  comes next; a closed system is one with a client.
* `Client.Keeps.reachable`: an invariant of the calls and the client, from one
  condition for each of the three kinds of step.
-/
namespace OpenSSDEmu.Atomic
variable {P M O C R G : Type}

/-- `C` is the place in the body of a call. -/
structure Body (M O C R : Type) where
  start : O → C
  access : C → M → (C ⊕ R) × M

inductive Runs (b : Body M O C R) : C → M → R → M → Prop
  | last {c : C} {m m' : M} {r : R} (h : b.access c m = (.inr r, m')) : Runs b c m r m'
  | next {c c' : C} {m m₁ m' : M} {r : R} (h : b.access c m = (.inl c', m₁)) (hr : Runs b c' m₁ r m') :
    Runs b c m r m'

def Body.Does (b : Body M O C R) (call : O → M → R × M) : Prop :=
  ∀ o m, Runs b (b.start o) m (call o m).1 (call o m).2

section
variable {b : Body M O C R} {c c' : C} {m m₁ m' : M} {r r' : R}

theorem Runs.of_inl (h : Runs b c m r m') (e : b.access c m = (.inl c', m₁)) : Runs b c' m₁ r m' := by
  cases h with
  | last h =>
    rw [e] at h
    cases h
  | next h hr =>
    rw [e] at h
    cases h
    exact hr

theorem Runs.of_inr (h : Runs b c m r m') (e : b.access c m = (.inr r', m₁)) : r' = r ∧ m₁ = m' := by
  cases h with
  | last h =>
    rw [e] at h
    cases h
    exact ⟨rfl, rfl⟩
  | next h =>
    rw [e] at h
    cases h

end

/-- Which calls a party may make, and what the program notes of calls and results. -/
structure Client (P O R G : Type) where
  init : G
  may : G → P → O → Bool
  call : G → P → O → G
  ret : G → P → R → G

inductive Stage (O R : Type)
  | out
  | called (o : O)
  | done (r : R)
  deriving DecidableEq, Repr

structure State (P M O R G : Type) where
  mem : M
  stage : P → Stage O R
  client : G

inductive Lbl (P O : Type)
  | call (p : P) (o : O)
  | act (p : P)
  | ret (p : P)

variable [DecidableEq P]

def step (call : O → M → R × M) (k : Client P O R G) (s : State P M O R G) : Lbl P O → Option (State P M O R G)
  | .call p o =>
    match s.stage p with
    | .out =>
      if k.may s.client p o then
        some { s with stage := Function.update s.stage p (.called o), client := k.call s.client p o }
      else none
    | _ => none
  | .act p =>
    match s.stage p with
    | .called o =>
      some { s with mem := (call o s.mem).2, stage := Function.update s.stage p (.done (call o s.mem).1) }
    | _ => none
  | .ret p =>
    match s.stage p with
    | .done r => some { s with stage := Function.update s.stage p .out, client := k.ret s.client p r }
    | _ => none

def sys (call : O → M → R × M) (k : Client P O R G) (m₀ : M) : LTS (State P M O R G) (Lbl P O) :=
  .ofFn ⟨m₀, fun _ => .out, k.init⟩ (step call k)

/-- `I` holds at the start and is kept by each of the three kinds of step. -/
structure Client.Keeps (k : Client P O R G) (call : O → M → R × M) (m₀ : M)
    (I : M → (P → Stage O R) → G → Prop) : Prop where
  init : I m₀ (fun _ => .out) k.init
  called : ∀ m st g p o, I m st g → st p = .out → k.may g p o = true →
    I m (Function.update st p (.called o)) (k.call g p o)
  acted : ∀ m st g p o, I m st g → st p = .called o →
    I (call o m).2 (Function.update st p (.done (call o m).1)) g
  returned : ∀ m st g p r, I m st g → st p = .done r → I m (Function.update st p .out) (k.ret g p r)

theorem Client.Keeps.reachable {k : Client P O R G} {call : O → M → R × M} {m₀ : M}
    {I : M → (P → Stage O R) → G → Prop} (h : k.Keeps call m₀ I) {s : State P M O R G}
    (hr : (sys call k m₀).Reachable s) : I s.mem s.stage s.client := by
  refine LTS.Inductive.reachable (I := fun s => I s.mem s.stage s.client) ⟨fun s e => ?_, fun s l s' hI hs => ?_⟩ s hr
  · cases e
    exact h.init
  · change step call k s l = some s' at hs
    cases l with
    | call p o =>
      simp only [step] at hs
      split at hs
      · rename_i hp
        split at hs
        · rename_i hm
          cases hs
          exact h.called _ _ _ p o hI hp hm
        · cases hs
      · cases hs
    | act p =>
      simp only [step] at hs
      split at hs
      · rename_i o hp
        cases hs
        exact h.acted _ _ _ p o hI hp
      · cases hs
    | ret p =>
      simp only [step] at hs
      split at hs
      · rename_i r hp
        cases hs
        exact h.returned _ _ _ p r hI hp
      · cases hs

end OpenSSDEmu.Atomic
