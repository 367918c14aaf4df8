import Mathlib.Data.List.Basic
import Mathlib.Logic.Function.Iterate

/-!
# Loops that return early

`forEach xs body` runs `body` for the elements of `xs`, handing a state from
round to round, until a round returns from the function. Nested loops are one
loop over the concatenation of the inner ranges (`forEach_flatMap`).

A counting search skips what fails a test, counts what passes and returns at
a given count: it finds the element with that index among those that pass
(`forEach_countTo`). Where the ranges are uniform the index splits into a
quotient and a remainder (`getElem?_flatMap_uniform`).
-/
namespace OpenSSDEmu.Loops

variable {α β ρ σ : Type}

inductive Outcome (ρ σ : Type)
  | returned (r : ρ)
  | done (s : σ)

/-- `for (a in xs) body` -/
def forEach : List α → (α → σ → Outcome ρ σ) → σ → Outcome ρ σ
  | [], _, s => .done s
  | a :: as, body, s =>
    match body a s with
    | .returned r => .returned r
    | .done s => forEach as body s

section
variable {body : α → σ → Outcome ρ σ} {s : σ}

theorem forEach_append (xs ys : List α) :
    forEach (xs ++ ys) body s =
      match forEach xs body s with
      | .returned r => .returned r
      | .done s => forEach ys body s := by
  induction xs generalizing s with
  | nil => rfl
  | cons a xs ih =>
    simp only [List.cons_append, forEach]
    cases body a s with
    | returned r => rfl
    | done s => exact ih

theorem forEach_map (f : β → α) (xs : List β) :
    forEach (xs.map f) body = forEach xs fun b => body (f b) := by
  induction xs with
  | nil => rfl
  | cons b xs ih =>
    funext s
    simp only [List.map_cons, forEach, ih]

/-- A loop within a loop. -/
theorem forEach_flatMap (f : β → List α) (xs : List β) :
    forEach (xs.flatMap f) body = forEach xs fun b => forEach (f b) body := by
  induction xs with
  | nil => rfl
  | cons b xs ih =>
    funext s
    rw [List.flatMap_cons, forEach_append, forEach, ih]

end

/-- A loop within a loop, where a round may fail to end. -/
theorem foldlM_flatMap (f : β → List α) (g : σ → α → Option σ) (xs : List β) (s : σ) :
    (xs.flatMap f).foldlM g s = xs.foldlM (fun s b => (f b).foldlM g s) s := by
  induction xs generalizing s with
  | nil => rfl
  | cons b xs ih => simp only [List.flatMap_cons, List.foldlM_append, List.foldlM_cons, ih]

/-- Rounds that change nothing. -/
theorem foldlM_fixed {g : σ → α → Option σ} {s : σ} (h : ∀ a, g s a = some s) (xs : List α) :
    xs.foldlM g s = some s := by
  induction xs with
  | nil => rfl
  | cons a xs ih => rw [List.foldlM_cons, h a]; exact ih

/-- One round of a counting search. -/
def countTo (p : α → Bool) (hit : σ → Bool) (next : σ → σ) (ret : α → ρ) (a : α) (c : σ) : Outcome ρ σ :=
  if p a then if hit c then .returned (ret a) else .done (next c) else .done c

/-- The search returns the element whose index among those that pass is the
distance to the count looked for. `v` is the value of the counter, which counts
correctly below `B`. -/
theorem forEach_countTo {p : α → Bool} {hit : σ → Bool} {next : σ → σ} {ret : α → ρ} {v : σ → Nat}
    {n B : Nat}
    (hhit : ∀ c, hit c = true ↔ v c = n) (hnext : ∀ c, v c < B → v (next c) = v c + 1)
    (xs : List α) {c : σ} (hc : v c ≤ n) (hB : v c + (xs.filter p).length ≤ B) :
    forEach xs (countTo p hit next ret) c =
      ((xs.filter p)[n - v c]?).elim (.done (next^[(xs.filter p).length] c)) fun a =>
        .returned (ret a) := by
  induction xs generalizing c with
  | nil => rfl
  | cons a xs ih =>
    rw [forEach, countTo]
    by_cases hp : p a = true
    · rw [List.filter_cons_of_pos hp, List.length_cons] at hB
      rw [if_pos hp, List.filter_cons_of_pos hp]
      by_cases hh : hit c = true
      · have h0 : n - v c = 0 := by rw [(hhit c).mp hh, Nat.sub_self]
        rw [if_pos hh, h0]
        rfl
      · have hlt : v c < n := Nat.lt_of_le_of_ne hc fun e => hh ((hhit c).mpr e)
        have hv : v (next c) = v c + 1 := hnext c (by omega)
        have hsub : n - v c = n - v (next c) + 1 := by omega
        rw [if_neg hh, hsub, List.getElem?_cons_succ, List.length_cons, Function.iterate_succ_apply]
        exact ih (by omega) (by omega)
    · rw [List.filter_cons_of_neg hp] at hB
      rw [if_neg hp, List.filter_cons_of_neg hp]
      exact ih hc hB

/-! ## Enumerations with uniform blocks -/

theorem length_flatMap_uniform {f : β → List α} {k : Nat} (hf : ∀ b, (f b).length = k) (xs : List β) :
    (xs.flatMap f).length = xs.length * k := by
  simp [List.length_flatMap, hf]

/-- The `n`-th element is in block `n / k`, at place `n % k`. -/
theorem getElem?_flatMap_uniform {f : β → List α} {k : Nat} (hk : 0 < k) (hf : ∀ b, (f b).length = k)
    (xs : List β) (n : Nat) : (xs.flatMap f)[n]? = (xs[n / k]?).bind fun b => (f b)[n % k]? := by
  induction xs generalizing n with
  | nil => rfl
  | cons b xs ih =>
    rw [List.flatMap_cons]
    rcases Nat.lt_or_ge n k with hlt | hge
    · rw [List.getElem?_append_left (by rw [hf]; exact hlt), Nat.div_eq_of_lt hlt, Nat.mod_eq_of_lt hlt]
      rfl
    · obtain ⟨m, rfl⟩ := Nat.exists_eq_add_of_le hge
      rw [List.getElem?_append_right (by rw [hf]; exact hge), hf, Nat.add_sub_cancel_left, ih,
        Nat.add_div_left m hk, Nat.add_mod_left]
      rfl

end OpenSSDEmu.Loops
