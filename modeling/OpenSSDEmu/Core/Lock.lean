/-!
# Who is inside a lock

A lock is one bit, taken and released by hand. `inside p` says that party
`p` is between its acquisition and its release. Nothing here is about the
emulator: a program says of each of its steps which party took it and what
that party did to the lock (`Use`).

* `Guarded.use`: with every party that leaves releasing the lock, the bit says
  that somebody is inside, and only one is.
* `Guarded.abandon`, `Orphaned.use`: a party that leaves without releasing
  orphans the lock, and no step of any party undoes that.
-/
namespace OpenSSDEmu.Lock
variable {P : Type}

/-- The bit is set exactly if somebody is inside, and only one is. -/
structure Guarded (held : Bool) (inside : P → Bool) : Prop where
  held_iff : held = true ↔ ∃ p, inside p = true
  unique : ∀ p q, inside p = true → inside q = true → p = q

/-- The bit is set and nobody is inside to clear it. -/
structure Orphaned (held : Bool) (inside : P → Bool) : Prop where
  held : held = true
  empty : ∀ p, inside p = false

/-- What one step of a party does to a lock; `after` is its place after the
step, the other parties stay where they are. -/
inductive Use (held : Bool) (before : Bool) : (held' after : Bool) → Prop
  | stay : Use held before held before
  | enter (h : held = false) : Use held before true true
  | leave (h : before = true) : Use held before false false

/-- A party that is inside leaves, and the bit stays as it is. -/
structure Abandon (held before held' after : Bool) : Prop where
  inside : before = true
  same : held' = held
  out : after = false

section
variable {held held' : Bool} {inside inside' : P → Bool} {p : P}

theorem Guarded.init : Guarded false fun _ : P => false := ⟨by simp, by simp⟩

theorem Orphaned.nobody (h : Orphaned held inside) : ¬ ∃ p, inside p = true := by
  rintro ⟨p, hp⟩
  rw [h.empty p] at hp
  cases hp

/-- With the bit clear nobody is inside. -/
theorem Guarded.empty (h : Guarded held inside) (hf : held = false) (q : P) : inside q = false := by
  rw [Bool.eq_false_iff]
  intro hq
  have := h.held_iff.mpr ⟨q, hq⟩
  rw [hf] at this
  cases this

/-- Nobody but a party inside is inside. -/
theorem Guarded.alone (h : Guarded held inside) (hp : inside p = true) {q : P} (hq : q ≠ p) :
    inside q = false := by
  rw [Bool.eq_false_iff]
  intro hin
  exact hq (h.unique q p hin hp)

variable (hother : ∀ q, q ≠ p → inside' q = inside q)
include hother

theorem Guarded.use (h : Guarded held inside) (hu : Use held (inside p) held' (inside' p)) :
    Guarded held' inside' := by
  generalize ha : inside' p = after at hu
  cases hu with
  | stay =>
    have hsame : inside' = inside := by
      funext q
      by_cases e : q = p
      · rw [e, ha]
      · exact hother q e
    rw [hsame]
    exact h
  | enter hf =>
    have honly : ∀ q, inside' q = true → q = p := fun q hq => by
      refine Classical.byContradiction fun e => ?_
      rw [hother q e, h.empty hf q] at hq
      cases hq
    exact ⟨⟨fun _ => ⟨p, ha⟩, fun _ => rfl⟩, fun q r hq hr => (honly q hq).trans (honly r hr).symm⟩
  | leave hp =>
    have hnone : ∀ q, inside' q = false := fun q => by
      by_cases e : q = p
      · rw [e, ha]
      · rw [hother q e, h.alone hp e]
    exact ⟨by simp [hnone], by simp [hnone]⟩

theorem Guarded.abandon (h : Guarded held inside) (hu : Abandon held (inside p) held' (inside' p)) :
    Orphaned held' inside' := by
  refine ⟨?_, fun q => ?_⟩
  · rw [hu.same]
    exact h.held_iff.mpr ⟨p, hu.inside⟩
  · by_cases e : q = p
    · rw [e, hu.out]
    · rw [hother q e, h.alone hu.inside e]

theorem Orphaned.use (h : Orphaned held inside)
    (hu : Use held (inside p) held' (inside' p) ∨ Abandon held (inside p) held' (inside' p)) :
    Orphaned held' inside' := by
  have hp := h.empty p
  rcases hu with hu | hu
  · generalize ha : inside' p = after at hu
    cases hu with
    | stay =>
      refine ⟨h.held, fun q => ?_⟩
      by_cases e : q = p
      · rw [e, ha, hp]
      · rw [hother q e]
        exact h.empty q
    | enter hf =>
      have := h.held
      rw [hf] at this
      cases this
    | leave hin =>
      rw [hp] at hin
      cases hin
  · have hin := hu.inside
    rw [hp] at hin
    cases hin

end

end OpenSSDEmu.Lock
