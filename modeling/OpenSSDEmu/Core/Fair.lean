import OpenSSDEmu.Core.LTS
import Mathlib.Tactic.Choose
import Mathlib.Data.List.Induction

/-!
# Infinite runs, fairness and what they lead to

Liveness of a labelled transition system. A run goes on for ever, and at a
time without a label nothing happens. A property is a predicate on times, so
that it can speak of more than one run at once.

* `Run.Strong`, `Run.Weak`: a thread that could take a step again and again, or
  from some time on, does.
* `LeadsTo.descend`: a measure no step raises, and some step lowers again and
  again, runs out.
* `Simulation.run`: a run of the concrete system is followed by a run of the
  abstract one.
* `Run.ofSched`: the run a schedule gives, where a step that is not enabled is
  left out; `Run.exists_for_ever`, when it ends with one step for ever.
-/
namespace OpenSSDEmu.LTS
variable {S L A M : Type}

/-- Whenever `P` holds, `Q` holds then or later. -/
def LeadsTo (P Q : Nat → Prop) : Prop := ∀ t, P t → ∃ u, t ≤ u ∧ Q u

/-- Again and again. -/
def Often (P : Nat → Prop) : Prop := ∀ t, ∃ u, t ≤ u ∧ P u

structure Run (T : LTS S L) where
  state : Nat → S
  label : Nat → Option L
  init : T.init (state 0)
  step : ∀ t l, label t = some l → T.step (state t) l (state (t + 1))
  stay : ∀ t, label t = none → state (t + 1) = state t

/-! ## Leads to -/

section
variable {P Q R : Nat → Prop}

theorem LeadsTo.of_imp (h : ∀ t, P t → Q t) : LeadsTo P Q := fun t hp => ⟨t, Nat.le_refl t, h t hp⟩

theorem LeadsTo.trans (h : LeadsTo P Q) (h' : LeadsTo Q R) : LeadsTo P R := by
  intro t hp
  obtain ⟨u, htu, hq⟩ := h t hp
  obtain ⟨v, huv, hr⟩ := h' u hq
  exact ⟨v, Nat.le_trans htu huv, hr⟩

/-- What holds again and again and leads to something brings that about again
and again. -/
theorem Often.leadsTo (h : Often P) (h' : LeadsTo P Q) : Often Q := by
  intro t
  obtain ⟨u, htu, hp⟩ := h t
  obtain ⟨v, huv, hq⟩ := h' u hp
  exact ⟨v, Nat.le_trans htu huv, hq⟩

theorem Often.mono (h : Often P) (hpq : ∀ t, P t → Q t) : Often Q := h.leadsTo (.of_imp hpq)

/-- What holds and later does not stops at some time. -/
theorem exists_last {t u : Nat} (htu : t ≤ u) (hp : P t) (hn : ¬ P u) :
    ∃ v, t ≤ v ∧ v < u ∧ P v ∧ ¬ P (v + 1) := by
  induction htu with
  | refl => exact absurd hp hn
  | @step u htu ih =>
    by_cases hu : P u
    · exact ⟨u, htu, Nat.lt_succ_self u, hu, hn⟩
    · obtain ⟨v, htv, hvu, hv⟩ := ih hu
      exact ⟨v, htv, Nat.lt_succ_of_lt hvu, hv⟩

/-- A bounded measure that never shrinks grows no more from some time on. -/
theorem exists_settled {m : Nat → Nat} {b : Nat} (hm : ∀ t u, t ≤ u → m t ≤ m u) (t : Nat)
    (hb : ∀ u, t ≤ u → m u < b) : ∃ u, t ≤ u ∧ ∀ v, u ≤ v → m v = m u := by
  generalize hk : b - m t = k
  induction k using Nat.strongRecOn generalizing t with
  | ind k ih =>
    by_cases hc : ∀ v, t ≤ v → m v = m t
    · exact ⟨t, Nat.le_refl t, hc⟩
    · obtain ⟨v, hv⟩ := Classical.not_forall.mp hc
      obtain ⟨htv, hne⟩ := Classical.not_imp.mp hv
      have h1 := hm t v htv
      have h2 := hb v htv
      obtain ⟨u, hvu, hu⟩ := ih (b - m v) (by omega) v (fun u hu => hb u (Nat.le_trans htv hu)) rfl
      exact ⟨u, Nat.le_trans htv hvu, hu⟩

/-- `P` lasts until `Q`, its measure never grows on the way, and with each `A`
it shrinks. -/
theorem LeadsTo.descend {B : Nat → Prop} (m : Nat → Nat)
    (stay : ∀ t, P t → Q (t + 1) ∨ (P (t + 1) ∧ m (t + 1) ≤ m t))
    (act : ∀ t, P t → B t → Q (t + 1) ∨ (P (t + 1) ∧ m (t + 1) < m t))
    (often : ∀ t, (∀ u, t ≤ u → P u) → ∃ u, t ≤ u ∧ B u) : LeadsTo P Q := by
  intro t
  generalize hk : m t = k
  induction k using Nat.strongRecOn generalizing t with
  | ind k ih =>
    intro hp
    refine Classical.byContradiction fun hno => ?_
    have hnot : ∀ u, t ≤ u → ¬ Q u := fun u hu hq => hno ⟨u, hu, hq⟩
    have hlast : ∀ d, P (t + d) ∧ m (t + d) ≤ m t := by
      intro d
      induction d with
      | zero => exact ⟨hp, Nat.le_refl _⟩
      | succ d ihd =>
        rcases stay (t + d) ihd.1 with hq | ⟨hp', hm⟩
        · exact absurd hq (hnot _ (by omega))
        · exact ⟨hp', Nat.le_trans hm ihd.2⟩
    have hall : ∀ u, t ≤ u → P u ∧ m u ≤ m t := fun u hu => by
      have := hlast (u - t)
      rwa [Nat.add_sub_cancel' hu] at this
    obtain ⟨u, hu, hb⟩ := often t fun u hu => (hall u hu).1
    rcases act u (hall u hu).1 hb with hq | ⟨hp', hm⟩
    · exact hnot _ (by omega) hq
    · have hle := (hall u hu).2
      obtain ⟨v, hv, hq⟩ := ih (m (u + 1)) (by omega) (u + 1) rfl hp'
      exact hnot v (by omega) hq

/-- Without a measure: `P` lasts until `Q`, and `B` brings `Q` about. -/
theorem LeadsTo.ensure {B : Nat → Prop} (stay : ∀ t, P t → Q (t + 1) ∨ P (t + 1))
    (act : ∀ t, P t → B t → Q (t + 1))
    (often : ∀ t, (∀ u, t ≤ u → P u) → ∃ u, t ≤ u ∧ B u) : LeadsTo P Q :=
  LeadsTo.descend (fun _ => 0) (fun t hp => (stay t hp).imp_right fun h => ⟨h, Nat.le_refl _⟩)
    (fun t hp hb => .inl (act t hp hb)) often

end

/-! ## Runs -/

namespace Run
variable {T : LTS S L} (ρ : T.Run)

theorem reachable (t : Nat) : T.Reachable (ρ.state t) := by
  induction t with
  | zero => exact .start ρ.init
  | succ t ih =>
    cases h : ρ.label t with
    | none => rw [ρ.stay t h]; exact ih
    | some l => exact ih.next (ρ.step t l h)

/-- Nothing happens, or one step. -/
theorem cases (t : Nat) :
    ρ.state (t + 1) = ρ.state t ∨ ∃ l, ρ.label t = some l ∧ T.step (ρ.state t) l (ρ.state (t + 1)) := by
  cases h : ρ.label t with
  | none => exact .inl (ρ.stay t h)
  | some l => exact .inr ⟨l, rfl, ρ.step t l h⟩

/-- Some step with a label in `K` is possible. -/
def Enabled (K : L → Prop) (t : Nat) : Prop := ∃ l s', K l ∧ T.step (ρ.state t) l s'

/-- Such a step is taken. -/
def Takes (K : L → Prop) (t : Nat) : Prop := ∃ l, K l ∧ ρ.label t = some l

/-- Possible again and again, so taken again and again. -/
def Strong (K : L → Prop) : Prop := Often (ρ.Enabled K) → Often (ρ.Takes K)

/-- Possible from some time on, so taken again and again. -/
def Weak (K : L → Prop) : Prop := (∃ t, ∀ u, t ≤ u → ρ.Enabled K u) → Often (ρ.Takes K)

/-- What the steps never undo lasts. -/
theorem lasts {P : S → Prop} (h : ∀ s l s', P s → T.step s l s' → P s') {t u : Nat} (htu : t ≤ u)
    (hp : P (ρ.state t)) : P (ρ.state u) := by
  induction htu with
  | refl => exact hp
  | @step u _ ih =>
    rcases ρ.cases u with e | ⟨l, -, hs⟩
    · rw [e]; exact ih
    · exact h _ _ _ ih hs

/-- A thread that is not kept out for ever goes from `P` to `Q` in steps that
lower a measure, and the other threads do not raise it. -/
theorem Strong.descends {ρ : T.Run} {K : L → Prop} (hK : ρ.Strong K) {P Q : S → Prop} (m : S → Nat)
    (other : ∀ s l s', T.Reachable s → P s → T.step s l s' → ¬ K l → Q s' ∨ (P s' ∧ m s' ≤ m s))
    (act : ∀ s l s', T.Reachable s → P s → T.step s l s' → K l → Q s' ∨ (P s' ∧ m s' < m s))
    (often : ∀ t, (∀ u, t ≤ u → P (ρ.state u)) → Often (ρ.Enabled K)) :
    LeadsTo (fun t => P (ρ.state t)) fun t => Q (ρ.state t) := by
  refine LeadsTo.descend (fun t => m (ρ.state t)) (B := ρ.Takes K) (fun t hp => ?_) (fun t hp hB => ?_)
    fun t ht => hK (often t ht) t
  · rcases ρ.cases t with e | ⟨l, -, hs⟩
    · exact .inr ⟨show P (ρ.state (t + 1)) from e ▸ hp, Nat.le_of_eq (by rw [e])⟩
    · by_cases hl : K l
      · exact (act _ _ _ (ρ.reachable t) hp hs hl).imp_right fun h => ⟨h.1, Nat.le_of_lt h.2⟩
      · exact other _ _ _ (ρ.reachable t) hp hs hl
  · obtain ⟨l, hl, e⟩ := hB
    exact act _ _ _ (ρ.reachable t) hp (ρ.step t l e) hl

end Run

/-- An abstract run in step with a concrete one. -/
theorem Simulation.run {T : LTS S L} {B : LTS A M} {R : S → A → Prop} (h : T.Simulation B R)
    (ρ : T.Run) : ∃ α : B.Run, ∀ t, R (ρ.state t) (α.state t) := by
  obtain ⟨a₀, hinit, hR₀⟩ := h.init _ ρ.init
  -- a state that is related, with the step that leads on from it
  have hnext : ∀ t a, B.Reachable a → R (ρ.state t) a → ∃ (m : Option M) (a' : A),
      R (ρ.state (t + 1)) a' ∧ (∀ l, m = some l → B.step a l a') ∧ (m = none → a' = a) := by
    intro t a ha hR
    rcases ρ.cases t with e | ⟨l, -, hs⟩
    · exact ⟨none, a, e ▸ hR, by simp, fun _ => rfl⟩
    · rcases h.step _ _ _ _ ha hR hs with hR' | ⟨m, a', hb, hR'⟩
      · exact ⟨none, a, hR', by simp, fun _ => rfl⟩
      · exact ⟨some m, a', hR', by simpa using hb, by simp⟩
  choose f g hg using hnext
  let good (t : Nat) : Type := { a : A // B.Reachable a ∧ R (ρ.state t) a }
  have hreach : ∀ t (x : good t), B.Reachable (g t x.1 x.2.1 x.2.2) := fun t x => by
    obtain ⟨-, hstep, hstay⟩ := hg t x.1 x.2.1 x.2.2
    cases hm : f t x.1 x.2.1 x.2.2 with
    | none => rw [hstay hm]; exact x.2.1
    | some l => exact x.2.1.next (hstep l hm)
  let α : (t : Nat) → good t :=
    Nat.rec ⟨a₀, .start hinit, hR₀⟩ fun t x => ⟨_, hreach t x, (hg t x.1 x.2.1 x.2.2).1⟩
  refine ⟨⟨fun t => (α t).1, fun t => f t (α t).1 (α t).2.1 (α t).2.2, hinit, fun t l hl => ?_,
    fun t hl => ?_⟩, fun t => (α t).2.2⟩
  · exact (hg t (α t).1 (α t).2.1 (α t).2.2).2.1 l hl
  · exact (hg t (α t).1 (α t).2.1 (α t).2.2).2.2 hl

/-! ## The run of a schedule -/

section
variable {T : LTS S L} (f : S → L → Option S) (s₀ : S) (sched : Nat → L)

/-- The state at time `t`. -/
def stateAt : Nat → S
  | 0 => s₀
  | t + 1 => (f (stateAt t) (sched t)).getD (stateAt t)

def Run.ofSched (h₀ : T.init s₀) (hf : ∀ s l s', f s l = some s' ↔ T.step s l s') : T.Run where
  state := stateAt f s₀ sched
  label t := if (f (stateAt f s₀ sched t) (sched t)).isSome then some (sched t) else none
  init := h₀
  step t l hl := by
    split at hl
    · rename_i hs
      obtain ⟨s', hs'⟩ := Option.isSome_iff_exists.mp hs
      cases hl
      rw [stateAt, hs', Option.getD_some]
      exact (hf _ _ _).mp hs'
    · cases hl
  stay t hl := by
    split at hl
    · cases hl
    · rename_i hs
      rw [stateAt, Option.not_isSome_iff_eq_none.mp hs, Option.getD_none]

/-- A finite schedule of enabled steps, followed by others. -/
theorem stateAt_append {f : S → L → Option S} {s₀ s : S} {sched : Nat → L} {ls : List L}
    (hs : ∀ t (h : t < ls.length), sched t = ls[t]) (he : exec f s₀ ls = some s) (t : Nat) :
    stateAt f s₀ sched (ls.length + t) = stateAt f s (fun k => sched (ls.length + k)) t := by
  induction t with
  | succ t ih => rw [← Nat.add_assoc, stateAt, ih, stateAt]
  | zero =>
    rw [Nat.add_zero, stateAt]
    induction ls using List.reverseRecOn generalizing s with
    | nil => cases he; rfl
    | append_singleton ls l ihl =>
      rw [exec_append, Option.bind_eq_some_iff] at he
      obtain ⟨s', he', hl⟩ := he
      have hs' : ∀ t (h : t < ls.length), sched t = ls[t] := fun t h => by
        rw [hs t (by simp; omega), List.getElem_append_left h]
      rw [List.length_append, List.length_singleton, stateAt, ihl hs' he',
        hs ls.length (by simp)]
      simp only [exec, Option.bind_fun_some] at hl
      simp only [List.getElem_concat_length]
      cases hf : f s' l with
      | none => rw [hf] at hl; cases hl
      | some x => rw [hf] at hl; simpa using hl

/-- A finite schedule, and one step for ever after. -/
theorem Run.exists_for_ever {T : LTS S L} {f : S → L → Option S} {s₀ s : S} {ls : List L} {i : L}
    {P : S → Prop} (h₀ : T.init s₀) (hf : ∀ s l s', f s l = some s' ↔ T.step s l s')
    (he : exec f s₀ ls = some s) (hs : P s) (hP : ∀ s, P s → ∃ s', f s i = some s' ∧ P s') :
    ∃ ρ : T.Run, ρ.state ls.length = s ∧ ∀ t, ls.length ≤ t → P (ρ.state t) ∧ ρ.label t = some i := by
  let sched : Nat → L := fun t => (ls[t]?).getD i
  have hafter : ∀ t, sched (ls.length + t) = i := fun t => by simp [sched]
  have hstate : ∀ t, stateAt f s₀ sched (ls.length + t) = stateAt f s (fun _ => i) t := fun t => by
    have hpre : ∀ t (h : t < ls.length), sched t = ls[t] := fun t h => by simp [sched, h]
    have h := stateAt_append hpre he t
    simp only [hafter] at h
    exact h
  have hall : ∀ t, P (stateAt f s (fun _ => i) t) := fun t => by
    induction t with
    | zero => exact hs
    | succ t ih =>
      obtain ⟨s', e, hP'⟩ := hP _ ih
      rw [stateAt, e]
      exact hP'
  refine ⟨.ofSched f s₀ sched h₀ hf, hstate 0, fun t ht => ?_⟩
  obtain ⟨k, rfl⟩ := Nat.exists_eq_add_of_le ht
  refine ⟨show P (stateAt f s₀ sched _) from (hstate k).symm ▸ hall k, ?_⟩
  obtain ⟨s', e, -⟩ := hP _ (hall k)
  simp only [ofSched, hafter, hstate, e, Option.isSome_some, if_true]

end

end OpenSSDEmu.LTS
