/-!
# Labelled transition systems

Runs, reachability, inductive invariants and forward simulation with
stuttering. Nothing here is about the emulator: a component is modelled as
a step function `S → L → Option S` (`none` = the step is not enabled) and
turned into a system with `LTS.ofFn`.

* `Inductive.reachable`: an inductive invariant holds in every reachable
  state; `InductiveUnder.reachable` is the same when the step case may
  also use a fact already known of every reachable state.
* `Simulation.reachable`: every state reached by the concrete system is
  related to a state reached by the abstract one.
* `restrict`: the runs all of whose steps meet a condition on the state
  before the step and its label.
* `serve`: a component that answers calls; `serve_refines` is data
  refinement, the same calls are answered the same way.
-/
namespace OpenSSDEmu

structure LTS (S L : Type) where
  init : S → Prop
  step : S → L → S → Prop

namespace LTS
variable {S L A M : Type}

/-- The system of a start state and a partial step function. -/
def ofFn (s₀ : S) (f : S → L → Option S) : LTS S L where
  init s := s = s₀
  step s l s' := f s l = some s'

inductive Reachable (T : LTS S L) : S → Prop
  | start {s : S} (h : T.init s) : Reachable T s
  | next {s s' : S} {l : L} (hr : Reachable T s) (h : T.step s l s') : Reachable T s'

/-- Run a list of labels; `none` as soon as one is not enabled. -/
def exec (f : S → L → Option S) : S → List L → Option S
  | s, [] => some s
  | s, l :: ls => (f s l).bind fun s' => exec f s' ls

theorem exec_append (f : S → L → Option S) (s : S) (ls ls' : List L) :
    exec f s (ls ++ ls') = (exec f s ls).bind fun s' => exec f s' ls' := by
  induction ls generalizing s with
  | nil => rfl
  | cons l ls ih =>
    simp only [List.cons_append, exec]
    cases f s l with
    | none => rfl
    | some t => exact ih t

theorem Reachable.exec {T : LTS S L} {f : S → L → Option S} {s s' : S} {ls : List L}
    (hf : ∀ s l s', f s l = some s' → T.step s l s') (hr : T.Reachable s)
    (h : LTS.exec f s ls = some s') : T.Reachable s' := by
  induction ls generalizing s with
  | nil => cases h; exact hr
  | cons l ls ih =>
    simp only [LTS.exec, Option.bind_eq_some_iff] at h
    obtain ⟨t, ht, h⟩ := h
    exact ih (hr.next (hf _ _ _ ht)) h

/-- `I` holds initially and every step keeps it. -/
structure Inductive (T : LTS S L) (I : S → Prop) : Prop where
  init : ∀ s, T.init s → I s
  step : ∀ s l s', I s → T.step s l s' → I s'

/-- `I` is inductive once `J` is known of the state before the step. -/
structure InductiveUnder (T : LTS S L) (J I : S → Prop) : Prop where
  init : ∀ s, T.init s → I s
  step : ∀ s l s', J s → I s → T.step s l s' → I s'

theorem InductiveUnder.reachable {T : LTS S L} {J I : S → Prop} (h : T.InductiveUnder J I)
    (hJ : ∀ s, T.Reachable s → J s) : ∀ s, T.Reachable s → I s := by
  intro s hr
  induction hr with
  | start h0 => exact h.init _ h0
  | next hr hs ih => exact h.step _ _ _ (hJ _ hr) ih hs

theorem Inductive.reachable {T : LTS S L} {I : S → Prop} (h : T.Inductive I) :
    ∀ s, T.Reachable s → I s :=
  InductiveUnder.reachable (J := fun _ => True)
    ⟨h.init, fun s l s' _ hi hs => h.step s l s' hi hs⟩ fun _ _ => trivial

/-- The runs of `T` whose every step `s, l` meets `P s l`. -/
def restrict (T : LTS S L) (P : S → L → Prop) : LTS S L where
  init := T.init
  step s l s' := P s l ∧ T.step s l s'

theorem Reachable.of_restrict {T : LTS S L} {P : S → L → Prop} {s : S}
    (h : (T.restrict P).Reachable s) : T.Reachable s := by
  induction h with
  | start h0 => exact .start h0
  | next _ hs ih => exact ih.next hs.2

/-- A list of labels that also passes a test for the condition at each step. -/
theorem Reachable.exec_restrict {T : LTS S L} {P : S → L → Prop} {f : S → L → Option S}
    {ok : S → L → Bool} {s s' : S} {ls : List L} (hf : ∀ s l s', f s l = some s' → T.step s l s')
    (hok : ∀ s l, ok s l = true → P s l) (hr : (T.restrict P).Reachable s)
    (h : LTS.exec (fun s l => if ok s l then f s l else none) s ls = some s') :
    (T.restrict P).Reachable s' := by
  refine Reachable.exec (fun s l s' hs => ?_) hr h
  split at hs
  · rename_i hl
    exact ⟨hok s l hl, hf s l s' hs⟩
  · cases hs

/-- Forward simulation: each step of `T` is matched by one step of `B`, or
by none. The step case may assume that the abstract state is reachable. -/
structure Simulation (T : LTS S L) (B : LTS A M) (R : S → A → Prop) : Prop where
  init : ∀ s, T.init s → ∃ a, B.init a ∧ R s a
  step : ∀ s a l s', B.Reachable a → R s a → T.step s l s' →
    R s' a ∨ ∃ m a', B.step a m a' ∧ R s' a'

theorem Simulation.reachable {T : LTS S L} {B : LTS A M} {R : S → A → Prop}
    (h : T.Simulation B R) : ∀ s, T.Reachable s → ∃ a, B.Reachable a ∧ R s a := by
  intro s hr
  induction hr with
  | start h0 =>
    obtain ⟨a, ha, hR⟩ := h.init _ h0
    exact ⟨a, .start ha, hR⟩
  | next _ hs ih =>
    obtain ⟨a, ha, hR⟩ := ih
    rcases h.step _ _ _ _ ha hR hs with hR' | ⟨m, a', hb, hR'⟩
    · exact ⟨a, ha, hR'⟩
    · exact ⟨a', ha.next hb, hR'⟩

end LTS

/-! ## Components that answer calls -/

section Serve
variable {S A O R : Type}

/-- The answers to a list of calls and the state after them. -/
def serve (f : S → O → R × S) : S → List O → List R × S
  | s, [] => ([], s)
  | s, o :: os => ((f s o).1 :: (serve f (f s o).2 os).1, (serve f (f s o).2 os).2)

/-- Each call of the list meets `p` in the state it is made in. -/
def Allowed (p : S → O → Prop) (f : S → O → R × S) : S → List O → Prop
  | _, [] => True
  | s, o :: os => p s o ∧ Allowed p f (f s o).2 os

theorem allowed_of_forall {p : S → O → Prop} {f : S → O → R × S} (h : ∀ s o, p s o) (s : S) (os : List O) :
    Allowed p f s os := by
  induction os generalizing s with
  | nil => trivial
  | cons o os ih => exact ⟨h s o, ih _⟩

/-- Answering each call as the abstract component does, from related states to
related states, is answering every list of calls as it does. `p` is what the
abstract component asks of the caller. -/
theorem serve_refines {f : S → O → R × S} {g : A → O → R × A} {p : A → O → Prop} {I : S → A → Prop}
    (h : ∀ s a o, I s a → p a o → (f s o).1 = (g a o).1 ∧ I (f s o).2 (g a o).2)
    {s : S} {a : A} (hi : I s a) {os : List O} (hok : Allowed p g a os) :
    (serve f s os).1 = (serve g a os).1 ∧ I (serve f s os).2 (serve g a os).2 := by
  induction os generalizing s a with
  | nil => exact ⟨rfl, hi⟩
  | cons o os ih =>
    obtain ⟨h1, h2⟩ := h s a o hi hok.1
    obtain ⟨h3, h4⟩ := ih h2 hok.2
    exact ⟨by simp only [serve, h1, h3], h4⟩

end Serve
end OpenSSDEmu
