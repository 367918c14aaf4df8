import OpenSSDEmu.Core.Fair
import OpenSSDEmu.L2Machine.TwoCores
import Mathlib.Data.Nat.Find

/-!
# The spin lock is always taken again

`get_spin_lock` keeps no order among the processors, and an exclusive store can
fail. If every processor goes on and monitors are lost without a reason only
finitely often, a lock that somebody tries to take is taken by somebody.

* `body_ends`: a processor that is inside comes to the end of its body, which
  ends when it runs alone, and the lock keeps the others out.
* `rank`: while nobody is inside, each instruction of a processor in the loop
  brings it nearer to the store.
* `lock_taken`: the two together.
-/
namespace OpenSSDEmu.L2.SpinLock
open LTS
open Atomic hiding Lbl step sys
open Lock (Guarded)

variable {P M O C R G : Type} [DecidableEq P]
variable {b : Body M O C R} {k : Client P O R G} {call : O → M → R × M} {m₀ m m' : M}
variable {x x' : Smp P M O C R G} {l : Lbl P O} {p q : P} {c c' : C} {r : R}

/-- In the loop of `get_spin_lock`. -/
def Pc.tries : Pc O C R → Bool
  | .ldrex _ | .teq _ _ | .strexeq _ => true
  | _ => false

/-- What a step does to a processor that is in a call and does not move. -/
structure Frame (x x' : Smp P M O C R G) (p : P) : Prop where
  pc : x'.pc p = x.pc p
  mem : (∀ q, q ≠ p → (x.pc q).holds = false) → x'.mem = x.mem

theorem Instr.frame (h : Instr b x q x') (hq : q ≠ p) : Frame x x' p := by
  cases h with
  | access c c' m hpc | last c r m hpc =>
    refine ⟨Function.update_of_ne hq.symm _ _, fun hout => ?_⟩
    have := hout q hq
    rw [hpc] at this
    cases this
  | _ => exact ⟨Function.update_of_ne hq.symm _ _, fun _ => rfl⟩

theorem step_frame (hs : step b k x l = some x') (hp : ((x.pc p).tries || (x.pc p).holds) = true) (hl : l ≠ .run p) :
    Frame x x' p := by
  cases l with
  | run q => exact (run_instr hs).frame fun e => hl (e ▸ rfl)
  | lose q =>
    cases hs
    exact ⟨rfl, fun _ => rfl⟩
  | call q o =>
    unfold step at hs
    dsimp only at hs
    split at hs
    · rename_i hq
      split at hs
      · cases hs
        refine ⟨Function.update_of_ne ?_ _ _, fun _ => rfl⟩
        rintro rfl
        rw [hq] at hp
        cases hp
      · cases hs
    · cases hs
  | ret q =>
    unfold step at hs
    dsimp only at hs
    split at hs
    · rename_i r hq
      cases hs
      refine ⟨Function.update_of_ne ?_ _ _, fun _ => rfl⟩
      rintro rfl
      rw [hq] at hp
      cases hp
    · cases hs

theorem exists_run (hp : ((x.pc p).tries || (x.pc p).holds) = true) : ∃ x', step b k x (.run p) = some x' := by
  change ∃ x', run b x p = some x'
  unfold run
  cases hpc : x.pc p with
  | out | done =>
    rw [hpc] at hp
    cases hp
  | ldrex | teq | release => exact ⟨_, rfl⟩
  | strexeq =>
    dsimp only
    split
    · exact ⟨_, rfl⟩
    · exact ⟨_, rfl⟩
  | inside c =>
    dsimp only
    split
    · exact ⟨_, rfl⟩
    · exact ⟨_, rfl⟩

/-- Every processor in a call goes on, and from some time on no monitor is lost
without a store to the lock. -/
structure Fair (ρ : (sys b k m₀).Run) : Prop where
  run : ∀ p, ρ.Weak (· = .run p)
  lose : ∃ t, ∀ u, t ≤ u → ∀ p, ρ.label u ≠ some (.lose p)

section
variable {ρ : (sys b k m₀).Run} {t u : Nat}

/-- The place of a processor, and the memory while it is inside. -/
structure Waits (ρ : (sys b k m₀).Run) (p : P) (t u : Nat) : Prop where
  pc : (ρ.state u).pc p = (ρ.state t).pc p
  mem : ((ρ.state t).pc p).holds = true → (ρ.state u).mem = (ρ.state t).mem

theorem Waits.succ (hb : b.Does call) (hp : (((ρ.state t).pc p).tries || ((ρ.state t).pc p).holds) = true)
    (h : Waits ρ p t u) (hl : ρ.label u ≠ some (.run p)) : Waits ρ p t (u + 1) := by
  cases e : ρ.label u with
  | none =>
    have hstay := ρ.stay u e
    exact ⟨by rw [hstay]; exact h.pc, fun hin => by rw [hstay]; exact h.mem hin⟩
  | some l =>
    rw [← h.pc] at hp
    have hframe := step_frame (ρ.step u l e) hp fun e' => hl (e' ▸ e)
    refine ⟨hframe.pc.trans h.pc, fun hin => ?_⟩
    obtain ⟨a, -, hok⟩ := exists_atomic hb (ρ.reachable u)
    rw [← h.pc] at hin
    rw [hframe.mem fun q hq => hok.guarded.alone hin hq]
    rw [h.pc] at hin
    exact h.mem hin

/-- A processor in a call waits until its next instruction, and that comes. -/
theorem next_instr (hb : b.Does call) (hf : Fair ρ)
    (hp : (((ρ.state t).pc p).tries || ((ρ.state t).pc p).holds) = true) :
    ∃ u, t ≤ u ∧ Waits ρ p t u ∧ Instr b (ρ.state u) p (ρ.state (u + 1)) := by
  classical
  have hwaits : ∀ d, (∀ e, e < d → ρ.label (t + e) ≠ some (.run p)) → Waits ρ p t (t + d) := fun d => by
    induction d with
    | zero => exact fun _ => ⟨rfl, fun _ => rfl⟩
    | succ d ih => exact fun hno => (ih fun e he => hno e (Nat.lt_succ_of_lt he)).succ hb hp (hno d (Nat.lt_succ_self d))
  have hruns : ∃ d, ρ.label (t + d) = some (.run p) := Classical.byContradiction fun hno => by
    obtain ⟨u, htu, _, rfl, hu⟩ := hf.run p ⟨t, fun u htu => by
      obtain ⟨d, rfl⟩ := Nat.exists_eq_add_of_le htu
      have hw := hwaits d fun e _ he => hno ⟨e, he⟩
      rw [← hw.pc] at hp
      obtain ⟨x', hx'⟩ := exists_run (b := b) (k := k) hp
      exact ⟨_, x', rfl, hx'⟩⟩ t
    exact hno ⟨u - t, by rw [Nat.add_sub_cancel' htu]; exact hu⟩
  refine ⟨t + Nat.find hruns, Nat.le_add_right _ _, hwaits _ fun e he => Nat.find_min hruns he, ?_⟩
  exact run_instr (ρ.step _ _ (Nat.find_spec hruns))

/-! ## Inside -/

theorem Instr.inside (h : Instr b x p x') (hp : x.pc p = .inside c) :
    (∃ c' m, b.access c x.mem = (.inl c', m) ∧ x'.pc p = .inside c' ∧ x'.mem = m) ∨
      ∃ r m, b.access c x.mem = (.inr r, m) ∧ x'.pc p = .release r := by
  cases h with
  | access c₁ c' m hpc e =>
    cases hp.symm.trans hpc
    exact .inl ⟨c', m, e, Function.update_self _ _ _, rfl⟩
  | last c₁ r m hpc e =>
    cases hp.symm.trans hpc
    exact .inr ⟨r, m, e, Function.update_self _ _ _⟩
  | ldrex _ hpc | bne _ _ hpc | teq _ hpc | fails _ hpc | enters _ hpc | release _ hpc => cases hp.symm.trans hpc

/-- The body comes to its end, whatever the others do. -/
theorem body_ends (hb : b.Does call) (hf : Fair ρ) (hr : Runs b c m r m') (hp : (ρ.state t).pc p = .inside c)
    (hm : (ρ.state t).mem = m) : ∃ u, t ≤ u ∧ (ρ.state u).pc p = .release r := by
  induction hr generalizing t with
  | last h =>
    obtain ⟨u, htu, hw, hi⟩ := next_instr hb hf (p := p) (by rw [hp]; rfl)
    have hmem := (hw.mem (by rw [hp]; rfl)).trans hm
    rcases hi.inside (hw.pc.trans hp) with ⟨c', m', e, -⟩ | ⟨r', m', e, hpc⟩
    · rw [hmem, h] at e
      cases e
    · rw [hmem, h] at e
      cases e
      exact ⟨u + 1, Nat.le_succ_of_le htu, hpc⟩
  | next h hr ih =>
    obtain ⟨u, htu, hw, hi⟩ := next_instr hb hf (p := p) (by rw [hp]; rfl)
    have hmem := (hw.mem (by rw [hp]; rfl)).trans hm
    rcases hi.inside (hw.pc.trans hp) with ⟨c', m', e, hpc, hm'⟩ | ⟨r', m', e, -⟩
    · rw [hmem, h] at e
      cases e
      obtain ⟨v, huv, hv⟩ := ih hpc hm'
      exact ⟨v, by omega, hv⟩
    · rw [hmem, h] at e
      cases e

/-- Nobody is inside. -/
def Free (x : Smp P M O C R G) : Prop := ∀ p, (x.pc p).holds = false

theorem free_iff (hb : b.Does call) (hr : (sys b k m₀).Reachable x) : Free x ↔ x.lock = 0 := by
  obtain ⟨a, -, h⟩ := exists_atomic hb hr
  refine ⟨fun hfree => ?_, fun hl => h.guarded.empty (by rw [hl]; rfl)⟩
  refine Classical.byContradiction fun hl => ?_
  obtain ⟨p, hp⟩ := h.guarded.held_iff.mp (by simpa using hl)
  rw [hfree p] at hp
  cases hp

theorem Instr.released (h : Instr b x p x') (hp : x.pc p = .release r) : x'.lock = 0 := by
  cases h with
  | release => rfl
  | ldrex _ hpc | bne _ _ hpc | teq _ hpc | fails _ hpc | enters _ hpc | access _ _ _ hpc | last _ _ _ hpc =>
    cases hp.symm.trans hpc

/-- Whoever is inside gives the lock back. -/
theorem lock_freed (hb : b.Does call) (hf : Fair ρ) (t : Nat) : ∃ u, t ≤ u ∧ Free (ρ.state u) := by
  by_cases hfree : Free (ρ.state t)
  · exact ⟨t, Nat.le_refl t, hfree⟩
  obtain ⟨p, hp⟩ := Classical.not_forall.mp hfree
  have hrelease : ∃ v r, t ≤ v ∧ (ρ.state v).pc p = .release r := by
    cases hpc : (ρ.state t).pc p with
    | inside c =>
      obtain ⟨a, -, hok⟩ := exists_atomic hb (ρ.reachable t)
      have hag := hok.agrees p
      rw [hpc] at hag
      generalize a.stage p = st at hag
      cases hag with
      | inside hruns =>
        obtain ⟨v, htv, hv⟩ := body_ends hb hf hruns hpc rfl
        exact ⟨v, _, htv, hv⟩
    | release r => exact ⟨t, r, Nat.le_refl t, hpc⟩
    | out | ldrex | teq | strexeq | done =>
      rw [hpc] at hp
      exact absurd rfl hp
  obtain ⟨v, r, htv, hv⟩ := hrelease
  obtain ⟨u, hvu, hw, hi⟩ := next_instr hb hf (p := p) (by rw [hv]; rfl)
  exact ⟨u + 1, by omega, (free_iff hb (ρ.reachable _)).mpr (hi.released (hw.pc.trans hv))⟩

/-! ## In the loop -/

/-- The instructions left to the store that takes the lock, if nobody is inside. -/
def Pc.rank (monitor : Bool) : Pc O C R → Nat
  | .teq _ temp => if temp = 0 then cond monitor 2 5 else 4
  | .strexeq _ => cond monitor 1 4
  | .ldrex _ => 3
  | _ => 0

/-- A processor that was not inside and is has stored. -/
def Takes (b : Body M O C R) (x x' : Smp P M O C R G) : Prop :=
  ∃ p o, x.pc p = .strexeq o ∧ x'.pc p = .inside (b.start o)

theorem Free.update {pc : Pc O C R} (hfree : Free x) (hpc : pc.holds = false)
    (e : x'.pc = Function.update x.pc q pc) : Free x' := fun p => by
  rw [e]
  by_cases hp : p = q
  · subst hp
    rwa [Function.update_self]
  · rw [Function.update_of_ne hp]
    exact hfree p

theorem step_free (hs : step b k x l = some x') (hfree : Free x) (hno : ¬ Takes b x x') : Free x' := by
  cases l with
  | run q =>
    cases run_instr hs with
    | ldrex | bne | teq | fails | release => exact hfree.update rfl rfl
    | enters o hq => exact absurd ⟨q, o, hq, Function.update_self _ _ _⟩ hno
    | access c c' m hq | last c r m hq =>
      have := hfree q
      rw [hq] at this
      cases this
  | lose q =>
    cases hs
    exact hfree
  | call q o =>
    unfold step at hs
    dsimp only at hs
    split at hs
    · split at hs
      · cases hs
        exact hfree.update rfl rfl
      · cases hs
    · cases hs
  | ret q =>
    unfold step at hs
    dsimp only at hs
    split at hs
    · cases hs
      exact hfree.update rfl rfl
    · cases hs

/-- While nobody is inside or gets inside, no store clears a monitor. -/
theorem monitor_frame (hs : step b k x l = some x') (hfree : Free x) (hno : ¬ Takes b x x') (hl : l ≠ .run p)
    (hlose : l ≠ .lose p) : x'.monitor p = x.monitor p := by
  cases l with
  | lose q =>
    cases hs
    refine Function.update_of_ne ?_ _ _
    rintro rfl
    exact hlose rfl
  | run q =>
    have hq : p ≠ q := fun e => hl (e ▸ rfl)
    cases run_instr hs with
    | ldrex => exact Function.update_of_ne hq _ _
    | bne | teq | fails | access | last => rfl
    | enters o hpc => exact absurd ⟨q, o, hpc, Function.update_self _ _ _⟩ hno
    | release r hpc =>
      have := hfree q
      rw [hpc] at this
      cases this
  | call q o =>
    unfold step at hs
    dsimp only at hs
    split at hs
    · split at hs <;> cases hs
      rfl
    · cases hs
  | ret q =>
    unfold step at hs
    dsimp only at hs
    split at hs <;> cases hs
    rfl

theorem tries_step (hs : step b k x l = some x') (hno : ¬ Takes b x x') (hp : (x.pc p).tries = true) :
    (x'.pc p).tries = true := by
  by_cases hl : l = .run p
  · subst hl
    cases run_instr hs with
    | ldrex | bne | teq | fails =>
      dsimp only
      rw [Function.update_self]
      rfl
    | enters o hpc => exact absurd ⟨p, o, hpc, Function.update_self _ _ _⟩ hno
    | access _ _ _ hpc | last _ _ _ hpc | release _ hpc =>
      rw [hpc] at hp
      cases hp
  · rw [(step_frame hs (by rw [hp]; rfl) hl).pc]
    exact hp

theorem rank_own (hi : Instr b x p x') (hl : x.lock = 0) (hno : ¬ Takes b x x') (hp : (x.pc p).tries = true) :
    (x'.pc p).rank (x'.monitor p) < (x.pc p).rank (x.monitor p) := by
  cases hi with
  | ldrex o hpc =>
    dsimp only
    rw [hpc, Function.update_self, Function.update_self, hl]
    exact Nat.lt_succ_self 2
  | bne o temp hpc ht =>
    dsimp only
    rw [hpc, Function.update_self, Pc.rank, Pc.rank, if_neg ht]
    exact Nat.lt_succ_self 3
  | teq o hpc =>
    dsimp only
    rw [hpc, Function.update_self, Pc.rank, Pc.rank, if_pos rfl]
    cases x.monitor p with
    | true => exact Nat.lt_succ_self 1
    | false => exact Nat.lt_succ_self 4
  | fails o hpc hm =>
    dsimp only
    rw [hpc, Function.update_self, hm]
    exact Nat.lt_succ_self 3
  | enters o hpc => exact absurd ⟨p, o, hpc, Function.update_self _ _ _⟩ hno
  | access _ _ _ hpc | last _ _ _ hpc | release _ hpc =>
    rw [hpc] at hp
    cases hp

/-- In the loop while nobody is inside. -/
structure Spins (x : Smp P M O C R G) (p : P) : Prop where
  tries : (x.pc p).tries = true
  free : Free x

theorem Spins.step (h : Spins x p) (hs : step b k x l = some x') (hno : ¬ Takes b x x') : Spins x' p :=
  ⟨tries_step hs hno h.tries, step_free hs h.free hno⟩

/-- A step lowers the rank of the processor whose step it is, and keeps that of the others. -/
theorem Spins.rank (hb : b.Does call) (hr : (sys b k m₀).Reachable x) (h : Spins x p)
    (hs : SpinLock.step b k x l = some x') (hno : ¬ Takes b x x') (hlose : l ≠ .lose p) :
    (x'.pc p).rank (x'.monitor p) ≤ (x.pc p).rank (x.monitor p) ∧
      (l = .run p → (x'.pc p).rank (x'.monitor p) < (x.pc p).rank (x.monitor p)) := by
  by_cases hl : l = .run p
  · subst hl
    have hlt := rank_own (run_instr hs) ((free_iff hb hr).mp h.free) hno h.tries
    exact ⟨Nat.le_of_lt hlt, fun _ => hlt⟩
  · rw [(step_frame hs (by rw [h.tries]; rfl) hl).pc, monitor_frame hs h.free hno hl hlose]
    exact ⟨Nat.le_refl _, fun e => absurd e hl⟩

/-- A lock that somebody tries to take is taken, by somebody. -/
theorem lock_taken (hb : b.Does call) (hf : Fair ρ) (hp : ((ρ.state t).pc p).tries = true) :
    ∃ u, t ≤ u ∧ Takes b (ρ.state u) (ρ.state (u + 1)) := by
  refine Classical.byContradiction fun hnone => ?_
  have hno : ∀ u, t ≤ u → ¬ Takes b (ρ.state u) (ρ.state (u + 1)) := fun u hu h => hnone ⟨u, hu, h⟩
  obtain ⟨n, hlose⟩ := hf.lose
  -- From some time on nobody is inside and no monitor is lost,
  obtain ⟨w, hw, hfree⟩ := lock_freed hb hf (max t n)
  have htw : t ≤ w := Nat.le_trans (Nat.le_max_left t n) hw
  have hnw : n ≤ w := Nat.le_trans (Nat.le_max_right t n) hw
  have htries : ∀ u, t ≤ u → ((ρ.state u).pc p).tries = true := fun u htu => by
    induction htu with
    | refl => exact hp
    | @step u htu ih =>
      rcases ρ.cases u with e | ⟨l, -, hs⟩
      · rw [e]
        exact ih
      · exact tries_step hs (hno u htu) ih
  have hspins : ∀ u, w ≤ u → Spins (ρ.state u) p := fun u hwu => by
    induction hwu with
    | refl => exact ⟨htries w htw, hfree⟩
    | @step u hwu ih =>
      rcases ρ.cases u with e | ⟨l, -, hs⟩
      · rw [e]
        exact ih
      · exact ih.step hs (hno u (Nat.le_trans htw hwu))
  -- and then each instruction of `p` lowers its rank.
  have hrank : ∀ u, w ≤ u → ∀ l, ρ.label u = some l → _ := fun u hwu l e =>
    (hspins u hwu).rank hb (ρ.reachable u) (ρ.step u l e) (hno u (Nat.le_trans htw hwu))
      fun e' => hlose u (Nat.le_trans hnw hwu) p (e' ▸ e)
  have hleads : LeadsTo (w ≤ ·) fun _ => False :=
    .descend (fun u => ((ρ.state u).pc p).rank ((ρ.state u).monitor p)) (B := fun u => ρ.label u = some (.run p))
      (fun u hwu => .inr ⟨Nat.le_succ_of_le hwu, by
        cases e : ρ.label u with
        | none =>
          rw [ρ.stay u e]
        | some l => exact (hrank u hwu l e).1⟩)
      (fun u hwu hB => .inr ⟨Nat.le_succ_of_le hwu, (hrank u hwu _ hB).2 rfl⟩)
      fun u hall => by
        obtain ⟨v, huv, _, rfl, hv⟩ := hf.run p ⟨w, fun v hwv => by
          obtain ⟨x', hx'⟩ := exists_run (b := b) (k := k) (p := p) (x := ρ.state v)
            (by rw [(hspins v hwv).tries]; rfl)
          exact ⟨_, x', rfl, hx'⟩⟩ u
        exact ⟨v, huv, hv⟩
  obtain ⟨_, -, h⟩ := hleads w (Nat.le_refl w)
  exact h
end

/-! ## Two cores at once -/

section
open TwoCores

/-- Both cores allocate. The store of one clears the monitor of the other, whose
store fails and which then waits. -/
def contention : List (Lbl Bool SqOp) :=
  [.call false .get, .call true .get, .run false, .run true, .run false, .run true, .run false, .run true] ++
    List.replicate 4 (.run false) ++ [.ret false] ++ List.replicate 8 (.run true) ++ [.ret true]

def contentionSched (t : Nat) : Lbl Bool SqOp := (contention[t]?).getD (.ret false)

def contentionAt (t : Nat) : Smp Bool Bitmap.Words SqOp SqAt SqReply (Nat → Bool) :=
  stateAt (step sqBody owners) ⟨0, fun _ => false, fun _ => .out, fun _ => 0#32, fun _ => false⟩ contentionSched t

theorem contentionSched_over (n : Nat) : contentionSched (22 + n) = .ret false := by
  unfold contentionSched
  rw [List.getElem?_eq_none (show contention.length ≤ 22 + n from Nat.le_add_right 22 n), Option.getD_none]

theorem contention_over (n : Nat) (p : Bool) : (contentionAt (22 + n)).pc p = .out := by
  induction n generalizing p with
  | zero => cases p <;> rfl
  | succ n ih =>
    have hnone : step sqBody owners (contentionAt (22 + n)) (contentionSched (22 + n)) = none := by
      rw [contentionSched_over]
      unfold step
      dsimp only
      rw [ih false]
    have hstay : contentionAt (22 + (n + 1)) = contentionAt (22 + n) := by
      change (step sqBody owners (contentionAt (22 + n)) (contentionSched (22 + n))).getD (contentionAt (22 + n)) = _
      rw [hnone, Option.getD_none]
    rw [hstay]
    exact ih p

theorem lock_taken_contention : ∃ ρ : (sys sqBody owners fun _ => 0#32).Run, Fair ρ ∧
    ((ρ.state 8).pc true).tries = true ∧ (ρ.state 8).lock = 1 ∧
      ∃ u, 8 ≤ u ∧ Takes sqBody (ρ.state u) (ρ.state (u + 1)) := by
  let ρ : (sys sqBody owners fun _ => 0#32).Run :=
    .ofSched (step sqBody owners) _ contentionSched rfl fun _ _ _ => Iff.rfl
  have hover : ∀ n p, (ρ.state (22 + n)).pc p = .out := contention_over
  have hfair : Fair ρ :=
    { run := fun p ⟨t, ht⟩ => by
        obtain ⟨_, x', rfl, hx⟩ := ht (22 + t) (Nat.le_add_left t 22)
        have hx : run sqBody (ρ.state (22 + t)) p = some x' := hx
        unfold run at hx
        rw [hover t p] at hx
        cases hx
      lose := ⟨22, fun u hu p e => by
        obtain ⟨n, rfl⟩ := Nat.exists_eq_add_of_le hu
        change (if _ then some (contentionSched (22 + n)) else none) = some (.lose p) at e
        rw [contentionSched_over] at e
        split at e <;> cases e⟩ }
  exact ⟨ρ, hfair, rfl, rfl, lock_taken sq_does hfair (p := true) rfl⟩

end
end OpenSSDEmu.L2.SpinLock
