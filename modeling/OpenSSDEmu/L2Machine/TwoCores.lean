import OpenSSDEmu.L2Machine.Fcl
import OpenSSDEmu.L2Machine.SpinLock
import OpenSSDEmu.L2Machine.TaskQueue

/-!
# What the two cores share

The firmware without `EMU` has two cores (`FTL_setup_core1`). Core 0 allocates
submission queue entries that the polling of completions frees, and takes
commands from the `HCE_FROM_CQ` queue that the polling fills; a spin lock for
each channel and one for the queue stand around the accesses.

* `sq_does`, `queue_does`: the bodies of these calls, a load or a store at a
  time, are `FCL_get_free_SQ_entry`, `FCL_free_SQ_entry` and the calls of the
  task queue.
* `entries_exclusive`: if only entries that were handed out are freed, by
  whichever core, no entry is handed out twice and none is lost.
* `from_cq_polled`: core 0 polls as many commands as it has counted, and gets
  them in the order in which core 1 has sent them.
-/
namespace OpenSSDEmu.L2.TwoCores
open Atomic hiding Lbl step sys
open SpinLock hiding Lbl step sys run

/-! ## The entries of a channel -/

inductive SqOp
  | get
  | free (index : Nat)
  deriving DecidableEq, Repr

inductive SqReply
  | entry (index : Option Nat)
  | freed
  deriving DecidableEq, Repr

/-- `FCL_get_free_SQ_entry` on the bitmap of one channel.
mirrors src/fcl/fcl.c:114-143 -/
def sqGet (m : Bitmap.Words) : Option Nat × Bitmap.Words :=
  match Bitmap.findClear m (Fcl.HW_QUEUE_DEPTH / 32) with
  | some (i, j) => (some (32 * i + j), Bitmap.setBit m i j)
  | none => (none, m)

/-- mirrors src/fcl/fcl.c:114-143,267-278 -/
def sqCall : SqOp → Bitmap.Words → SqReply × Bitmap.Words
  | .get, m => (.entry (sqGet m).1, (sqGet m).2)
  | .free index, m => (.freed, Bitmap.clearBit m (index / 32) (index % 32))

theorem sqGet_some {m : Bitmap.Words} {i j : Nat}
    (h : Bitmap.findClear m (Fcl.HW_QUEUE_DEPTH / 32) = some (i, j)) :
    sqGet m = (some (32 * i + j), Bitmap.setBit m i j) := by
  unfold sqGet
  rw [h]

theorem sqGet_none {m : Bitmap.Words} (h : Bitmap.findClear m (Fcl.HW_QUEUE_DEPTH / 32) = none) :
    sqGet m = (none, m) := by
  unfold sqGet
  rw [h]

/-- The allocator of `Fcl`, channel by channel. -/
theorem getFreeSQEntry_eq (f : Fcl.SqPool) (ch : Nat) :
    (Fcl.getFreeSQEntry f ch).1 = (sqGet (f.bitmap ch)).1 ∧
      (Fcl.getFreeSQEntry f ch).2.bitmap ch = (sqGet (f.bitmap ch)).2 := by
  unfold Fcl.getFreeSQEntry
  cases h : Bitmap.findClear (f.bitmap ch) (Fcl.HW_QUEUE_DEPTH / 32) with
  | none =>
    rw [sqGet_none h]
    exact ⟨rfl, rfl⟩
  | some ij =>
    rw [sqGet_some h]
    exact ⟨rfl, if_pos rfl⟩

theorem freeSQEntry_eq (f : Fcl.SqPool) (ch index : Nat) :
    (Fcl.freeSQEntry f ch index).bitmap ch = (sqCall (.free index) (f.bitmap ch)).2 :=
  if_pos rfl

/-- Before the test of a bit, and before the load and the store of
`hw_sq_bitmap[i] |= (1 << j)` and `hw_sq_bitmap[index / 32] &= tmp_bit_val`. -/
inductive SqAt
  | test (i j : Nat)
  | orLoad (i j : Nat)
  | orStore (i j : Nat) (w : BitVec 32)
  | andLoad (index : Nat)
  | andStore (index : Nat) (w : BitVec 32)
  deriving DecidableEq, Repr

/-- The next bit to test. -/
def nextTest (i j : Nat) : SqAt ⊕ SqReply :=
  if j + 1 < 32 then .inl (.test i (j + 1))
  else if i + 1 < Fcl.HW_QUEUE_DEPTH / 32 then .inl (.test (i + 1) 0)
  else .inr (.entry none)

/-- mirrors src/fcl/fcl.c:122-134,274-275 -/
def sqBody : Body Bitmap.Words SqOp SqAt SqReply where
  start
    | .get => .test 0 0
    | .free index => .andLoad index
  access
    | .test i j, m => (if Bitmap.bitClear (m i) j then .inl (.orLoad i j) else nextTest i j, m)
    | .orLoad i j, m => (.inl (.orStore i j (m i)), m)
    | .orStore i j w, m => (.inr (.entry (some (32 * i + j))), Function.update m i (w ||| (1#32 <<< j)))
    | .andLoad index, m => (.inl (.andStore index (m (index / 32))), m)
    | .andStore index w, m => (.inr .freed, Function.update m (index / 32) (w &&& ~~~(1#32 <<< (index % 32))))

theorem update_setBit (m : Bitmap.Words) (i j : Nat) :
    Function.update m i (m i ||| (1#32 <<< j)) = Bitmap.setBit m i j := by
  funext k
  unfold Bitmap.setBit
  rw [Function.update_apply]

theorem update_clearBit (m : Bitmap.Words) (i j : Nat) :
    Function.update m i (m i &&& ~~~(1#32 <<< j)) = Bitmap.clearBit m i j := by
  funext k
  unfold Bitmap.clearBit
  rw [Function.update_apply]

/-- The scan has come to a clear bit. -/
theorem findClear_at {m : Bitmap.Words} {n i j : Nat} (hi : i < n) (hj : j < 32)
    (hall : ∀ k, k < 32 * i + j → Bitmap.get m k = true) (hc : Bitmap.get m (32 * i + j) = false) :
    Bitmap.findClear m n = some (i, j) := by
  cases hf : Bitmap.findClear m n with
  | none =>
    have := Bitmap.findClear_none hf (32 * i + j) (by omega)
    rw [hc] at this
    cases this
  | some ij =>
    obtain ⟨i', j'⟩ := ij
    obtain ⟨hi', hj', hc', hall'⟩ := Bitmap.findClear_some hf
    have hle : 32 * i + j ≤ 32 * i' + j' := Nat.le_of_not_lt fun hlt => by
      have := hall _ hlt
      rw [hc'] at this
      cases this
    have hge : 32 * i' + j' ≤ 32 * i + j := Nat.le_of_not_lt fun hlt => by
      have := hall' _ hlt
      rw [hc] at this
      cases this
    rw [show i' = i by omega, show j' = j by omega]

/-- The scan has come to the end. -/
theorem findClear_end {m : Bitmap.Words} {n : Nat} (hall : ∀ k, k < 32 * n → Bitmap.get m k = true) :
    Bitmap.findClear m n = none := by
  cases hf : Bitmap.findClear m n with
  | none => rfl
  | some ij =>
    obtain ⟨i, j⟩ := ij
    obtain ⟨hi, hj, hc, -⟩ := Bitmap.findClear_some hf
    have := hall (32 * i + j) (by omega)
    rw [hc] at this
    cases this

/-- The loops of `FCL_get_free_SQ_entry`, by the number of bits left. -/
theorem test_runs {m : Bitmap.Words} {i j : Nat} (hi : i < Fcl.HW_QUEUE_DEPTH / 32) (hj : j < 32)
    (hall : ∀ k, k < 32 * i + j → Bitmap.get m k = true) :
    Runs sqBody (.test i j) m (.entry (sqGet m).1) (sqGet m).2 := by
  generalize hn : Fcl.HW_QUEUE_DEPTH - (32 * i + j) = n
  induction n using Nat.strongRecOn generalizing i j with
  | ind n ih =>
    have hdepth : Fcl.HW_QUEUE_DEPTH = 256 := rfl
    have hclear : Bitmap.bitClear (m i) j = !Bitmap.get m (32 * i + j) := by
      rw [Bitmap.bitClear_eq _ _ hj, Bitmap.get_word _ _ _ hj]
    have htest : sqBody.access (.test i j) m =
        (if Bitmap.bitClear (m i) j then .inl (.orLoad i j) else nextTest i j, m) := rfl
    cases hc : Bitmap.get m (32 * i + j) with
    | false =>
      rw [hc] at hclear
      rw [hclear] at htest
      rw [sqGet_some (findClear_at hi hj hall hc)]
      refine .next htest (.next rfl (.last ?_))
      rw [← update_setBit]
      rfl
    | true =>
      rw [hc] at hclear
      rw [hclear, Bool.not_true, if_neg Bool.false_ne_true, nextTest] at htest
      have hall' : ∀ k, k < 32 * i + j + 1 → Bitmap.get m k = true := fun k hk => by
        rcases Nat.lt_or_eq_of_le (Nat.le_of_lt_succ hk) with hlt | rfl
        · exact hall k hlt
        · exact hc
      split at htest
      · rename_i hj'
        exact .next htest (ih _ (by omega) hi hj' hall' rfl)
      split at htest
      · rename_i hj' hi'
        exact .next htest (ih _ (by omega) hi' (by omega) (fun k hk => hall' k (by omega)) rfl)
      · rw [sqGet_none (findClear_end fun k hk => hall' k (by omega))]
        exact .last htest

theorem sq_does : sqBody.Does sqCall := by
  intro o m
  cases o with
  | get => exact test_runs (by decide) (by decide) fun k hk => absurd hk (Nat.not_lt_zero k)
  | free index =>
    refine .next rfl (.last ?_)
    change _ = (Sum.inr SqReply.freed, Bitmap.clearBit m (index / 32) (index % 32))
    rw [← update_clearBit]
    rfl

theorem sqGet_spec (m : Bitmap.Words) : sqGet m = (none, m) ∨ ∃ k, (sqGet m).1 = some k ∧ k < Fcl.HW_QUEUE_DEPTH ∧
    Bitmap.get m k = false ∧ ∀ i, Bitmap.get (sqGet m).2 i = (decide (i = k) || Bitmap.get m i) := by
  cases h : Bitmap.findClear m (Fcl.HW_QUEUE_DEPTH / 32) with
  | none => exact .inl (sqGet_none h)
  | some ij =>
    obtain ⟨hi, hj, hc, -⟩ := Bitmap.findClear_some h
    rw [sqGet_some h]
    exact .inr ⟨_, rfl, by unfold Fcl.HW_QUEUE_DEPTH at *; omega, hc, fun k => Bitmap.get_setBit m _ _ k hj⟩

theorem get_free (m : Bitmap.Words) (index i : Nat) :
    Bitmap.get (sqCall (.free index) m).2 i = (!decide (i = index) && Bitmap.get m i) := by
  have := Bitmap.get_clearBit m (index / 32) (index % 32) i (Nat.mod_lt _ (by decide))
  rwa [Nat.div_add_mod] at this

variable {P : Type} [DecidableEq P]

/-- Only an entry that was handed out is freed, and by one call. -/
def owners : Client P SqOp SqReply (Nat → Bool) where
  init _ := false
  may g _ o := match o with
    | .get => true
    | .free i => g i
  call g _ o := match o with
    | .get => g
    | .free i => Function.update g i false
  ret g _ r := match r with
    | .entry (some i) => Function.update g i true
    | _ => g

/-- The entry a call is about: one it will free, or one it has got. -/
def token : Stage SqOp SqReply → Option Nat
  | .called (.free i) => some i
  | .done (.entry (some i)) => some i
  | _ => none

/-- The bits are the entries in use, and each of those is in one place: with the
program, or in a call. -/
structure Owned (m : Bitmap.Words) (st : P → Stage SqOp SqReply) (g : Nat → Bool) : Prop where
  held : ∀ i, g i = true → i < Fcl.HW_QUEUE_DEPTH ∧ Bitmap.get m i = true
  moved : ∀ p i, token (st p) = some i → i < Fcl.HW_QUEUE_DEPTH ∧ Bitmap.get m i = true ∧ g i = false
  unique : ∀ p q i, token (st p) = some i → token (st q) = some i → p = q
  used : ∀ i, i < Fcl.HW_QUEUE_DEPTH → Bitmap.get m i = true → g i = true ∨ ∃ p, token (st p) = some i

section
variable {m m' : Bitmap.Words} {st : P → Stage SqOp SqReply} {g g' : Nat → Bool} {p q : P} {s t : Stage SqOp SqReply}

theorem token_update (q : P) : token (Function.update st p s q) = if q = p then token s else token (st q) := by
  split
  · rename_i e
    rw [e, Function.update_self]
  · rename_i e
    rw [Function.update_of_ne e]

/-- A step of a call that is about no entry, before and after. -/
theorem Owned.idle (h : Owned m st g) (hp : st p = t) (ht : token t = none) (hs : token s = none) :
    Owned m (Function.update st p s) g := by
  have htok : ∀ q, token (Function.update st p s q) = token (st q) := fun q => by
    rw [token_update]
    split
    · rename_i e
      rw [hs, e, hp, ht]
    · rfl
  refine ⟨h.held, fun q i e => ?_, fun q r i e e' => ?_, fun i hi hm => ?_⟩
  · rw [htok] at e
    exact h.moved q i e
  · rw [htok] at e e'
    exact h.unique q r i e e'
  · rcases h.used i hi hm with hg | ⟨q, e⟩
    · exact .inl hg
    · exact .inr ⟨q, by rw [htok]; exact e⟩

/-- A call gets or takes over an entry that no other is about. -/
theorem Owned.take (h : Owned m st g) (hp : st p = t) (ht : token t = none) {i : Nat}
    (hi : i < Fcl.HW_QUEUE_DEPTH) (hs : token s = some i) (hno : ∀ q, token (st q) ≠ some i)
    (hm : ∀ k, Bitmap.get m' k = (decide (k = i) || Bitmap.get m k))
    (hg : ∀ k, g' k = (!decide (k = i) && g k)) : Owned m' (Function.update st p s) g' := by
  refine ⟨fun k hk => ?_, fun q k e => ?_, fun q r k e e' => ?_, fun k hk hmk => ?_⟩
  · rw [hg, Bool.and_eq_true] at hk
    obtain ⟨hlt, hget⟩ := h.held k hk.2
    rw [hm, hget, Bool.or_true]
    exact ⟨hlt, rfl⟩
  · rw [token_update] at e
    rw [hm, hg]
    split at e
    · cases hs.symm.trans e
      simp [hi]
    · obtain ⟨hlt, hget, hgk⟩ := h.moved q k e
      simp [hlt, hget, hgk]
  · rw [token_update] at e e'
    split at e <;> split at e'
    · rename_i e₁ e₂
      rw [e₁, e₂]
    · cases hs.symm.trans e
      exact absurd e' (hno r)
    · cases hs.symm.trans e'
      exact absurd e (hno q)
    · exact h.unique q r k e e'
  · by_cases e : k = i
    · subst e
      exact .inr ⟨p, by rw [token_update, if_pos rfl, hs]⟩
    · have hget : Bitmap.get m k = true := by simpa [hm, e] using hmk
      rcases h.used k hk hget with hgk | ⟨q, hq⟩
      · exact .inl (by rw [hg, hgk]; simp [e])
      · refine .inr ⟨q, ?_⟩
        rw [token_update, if_neg]
        · exact hq
        · rintro rfl
          rw [hp, ht] at hq
          cases hq

/-- A call is done with its entry. -/
theorem Owned.drop (h : Owned m st g) (hst : st p = t) {i : Nat} (ht : token t = some i) (hs : token s = none)
    (b : Bool) (hm : ∀ k, Bitmap.get m' k = if k = i then b else Bitmap.get m k) (hg : ∀ k, g' k = if k = i then b else g k) :
    Owned m' (Function.update st p s) g' := by
  have hp : token (st p) = some i := by rw [hst, ht]
  obtain ⟨hlt, -, -⟩ := h.moved p i hp
  refine ⟨fun k hk => ?_, fun q k e => ?_, fun q r k e e' => ?_, fun k hk hmk => ?_⟩
  · rw [hg] at hk
    rw [hm]
    split
    · rename_i e
      rw [if_pos e] at hk
      exact ⟨e ▸ hlt, hk⟩
    · rename_i e
      rw [if_neg e] at hk
      exact h.held k hk
  · rw [token_update] at e
    split at e
    · rw [hs] at e
      cases e
    · rename_i hne
      have hki : k ≠ i := by
        rintro rfl
        exact hne (h.unique q p k e hp)
      rw [hm, hg, if_neg hki, if_neg hki]
      exact h.moved q k e
  · rw [token_update] at e e'
    split at e
    · rw [hs] at e
      cases e
    split at e'
    · rw [hs] at e'
      cases e'
    exact h.unique q r k e e'
  · rw [hm] at hmk
    rw [hg]
    by_cases e : k = i
    · rw [if_pos e] at hmk
      exact .inl (by rw [if_pos e]; exact hmk)
    · rw [if_neg e] at hmk
      rw [if_neg e]
      rcases h.used k hk hmk with hgk | ⟨q, hq⟩
      · exact .inl hgk
      · refine .inr ⟨q, ?_⟩
        rw [token_update, if_neg]
        · exact hq
        · rintro rfl
          exact e (Option.some.inj (hq.symm.trans hp))

/-- Only an entry that the program has is freed. -/
theorem Owned.called (h : Owned m st g) (hp : st p = .out) {o : SqOp} (hmay : (owners (P := P)).may g p o = true) :
    Owned m (Function.update st p (.called o)) ((owners (P := P)).call g p o) := by
  cases o with
  | get => exact h.idle hp rfl rfl
  | free i =>
    obtain ⟨hlt, hget⟩ := h.held i hmay
    refine h.take hp rfl hlt rfl (fun q e => ?_) (fun k => ?_) fun k => ?_
    · obtain ⟨-, -, hg⟩ := h.moved q i e
      exact Bool.noConfusion (hg.symm.trans hmay)
    · by_cases e : k = i
      · simp [e, hget]
      · simp [e]
    · dsimp only [owners]
      rw [Function.update_apply]
      by_cases e : k = i
      · simp [e]
      · simp [e]

/-- An entry whose bit is clear is nobody's. -/
theorem Owned.acted (h : Owned m st g) {o : SqOp} (hp : st p = .called o) :
    Owned (sqCall o m).2 (Function.update st p (.done (sqCall o m).1)) g := by
  cases o with
  | get =>
    change Owned (sqGet m).2 (Function.update st p (.done (.entry (sqGet m).1))) g
    rcases sqGet_spec m with e | ⟨k, hk, hlt, hclear, hset⟩
    · rw [e]
      exact h.idle hp rfl rfl
    · rw [hk]
      refine h.take hp rfl hlt rfl (fun q e => ?_) hset fun i => ?_
      · obtain ⟨-, hget, -⟩ := h.moved q k e
        exact Bool.noConfusion (hclear.symm.trans hget)
      · by_cases e : i = k
        · have hg : g k = false := by
            cases hgk : g k with
            | false => rfl
            | true => exact Bool.noConfusion (hclear.symm.trans (h.held k hgk).2)
          simp [e, hg]
        · simp [e]
  | free i =>
    obtain ⟨-, -, hg⟩ := h.moved p i (by rw [hp]; rfl)
    refine h.drop hp (i := i) rfl rfl false (fun k => ?_) fun k => ?_
    · rw [get_free]
      by_cases e : k = i
      · simp [e]
      · simp [e]
    · split
      · rename_i e
        rw [e]
        exact hg
      · rfl

theorem Owned.returned (h : Owned m st g) {r : SqReply} (hp : st p = .done r) :
    Owned m (Function.update st p .out) ((owners (P := P)).ret g p r) := by
  rcases r with (_ | i) | _
  · exact h.idle hp rfl rfl
  · obtain ⟨hlt, hget, -⟩ := h.moved p i (by rw [hp]; rfl)
    refine h.drop hp (i := i) rfl rfl true (fun k => ?_) fun k => ?_
    · split
      · rename_i e
        rw [e, hget]
      · rfl
    · dsimp only [owners]
      rw [Function.update_apply]
  · exact h.idle hp rfl rfl

theorem owned_keeps : (owners (P := P)).Keeps sqCall (fun _ => 0#32) Owned where
  init := by
    refine ⟨fun _ => Bool.noConfusion, fun p i e => ?_, fun p q i e => ?_, fun i _ hm => ?_⟩
    · cases e
    · cases e
    · rw [Bitmap.get_zero] at hm
      cases hm
  called _ _ _ _ _ h hp hmay := h.called hp hmay
  acted _ _ _ _ _ h hp := h.acted hp
  returned _ _ _ _ _ h hp := h.returned hp

end

/-- `token` of a processor that is not in a body. -/
def pcToken : Pc SqOp SqAt SqReply → Option Nat
  | .ldrex (.free i) | .teq (.free i) _ | .strexeq (.free i) => some i
  | .done (.entry (some i)) => some i
  | _ => none

theorem pcToken_eq {m am : Bitmap.Words} {pc : Pc SqOp SqAt SqReply} {st : Stage SqOp SqReply}
    (h : Agrees sqBody m am pc st) (hpc : pc.holds = false) : pcToken pc = token st := by
  cases h with
  | out => rfl
  | ldrex o | teq o _ | strexeq o => cases o <;> rfl
  | inside | release => cases hpc
  | done r =>
    rcases r with (_ | i) | _ <;> rfl

theorem pcToken_out {pc : Pc SqOp SqAt SqReply} {i : Nat} (h : pcToken pc = some i) : pc.holds = false := by
  cases pc with
  | inside | release => cases h
  | _ => rfl

/-- The entries of a channel, with any number of cores that allocate and free: no
two are in the bodies at once, an entry that a call is about is with nobody else,
and whenever nobody is in a body the bits that are set are the entries in use. -/
theorem entries_exclusive {x : Smp P Bitmap.Words SqOp SqAt SqReply (Nat → Bool)}
    (hr : (SpinLock.sys sqBody owners fun _ => 0#32).Reachable x) :
    (∀ p q, (x.pc p).holds = true → (x.pc q).holds = true → p = q) ∧
      (∀ p i, pcToken (x.pc p) = some i →
        i < Fcl.HW_QUEUE_DEPTH ∧ x.client i = false ∧ ∀ q, pcToken (x.pc q) = some i → q = p) ∧
      ((∀ p, (x.pc p).holds = false) → ∀ i, i < Fcl.HW_QUEUE_DEPTH →
        (Bitmap.get x.mem i = true ↔ x.client i = true ∨ ∃ p, pcToken (x.pc p) = some i)) := by
  obtain ⟨a, ha, h⟩ := exists_atomic sq_does hr
  have hown := owned_keeps.reachable ha
  have htok : ∀ p, (x.pc p).holds = false → pcToken (x.pc p) = token (a.stage p) := fun p hp =>
    pcToken_eq (h.agrees p) hp
  refine ⟨h.guarded.unique, fun p i e => ?_, fun hfree i hi => ?_⟩
  · have htp := htok p (pcToken_out e)
    obtain ⟨hlt, -, hg⟩ := hown.moved p i (htp.symm.trans e)
    refine ⟨hlt, by rw [h.client]; exact hg, fun q e' => ?_⟩
    exact hown.unique q p i ((htok q (pcToken_out e')).symm.trans e') (htp.symm.trans e)
  · rw [h.mem hfree, h.client]
    refine ⟨fun hget => (hown.used i hi hget).imp_right fun ⟨p, e⟩ => ⟨p, (htok p (hfree p)).trans e⟩, ?_⟩
    rintro (hg | ⟨p, e⟩)
    · exact (hown.held i hg).2
    · exact (hown.moved p i ((htok p (hfree p)).symm.trans e)).2.1

/-- A call of a core, with its loop and its body undisturbed. -/
def calls {O : Type} (p : Bool) (o : O) (n : Nat) : List (SpinLock.Lbl Bool O) :=
  .call p o :: List.replicate n (.run p) ++ [.ret p]

/-- One core has got the entries 0 and 1, and the other one is about to free entry 0. -/
theorem entries_exclusive_two : ∃ x : Smp Bool Bitmap.Words SqOp SqAt SqReply (Nat → Bool),
    (SpinLock.sys sqBody owners fun _ => 0#32).Reachable x ∧ pcToken (x.pc true) = some 0 ∧
      x.client 1 = true ∧ x.client 0 = false := by
  have hs : LTS.exec (SpinLock.step sqBody owners)
      (⟨0, fun _ => false, fun _ => .out, fun _ => 0#32, fun _ => false⟩ : Smp Bool _ _ _ _ _)
      (calls false .get 7 ++ calls false .get 8 ++ [.call true (.free 0), .run true, .run true]) = some _ := rfl
  have hr := LTS.Reachable.exec (T := SpinLock.sys sqBody owners fun _ => 0#32) (fun _ _ _ => id) (.start rfl) hs
  exact ⟨_, hr, rfl, rfl, ((entries_exclusive hr).2.1 true 0 rfl).2.1⟩

/-! ## The `HCE_FROM_CQ` queue -/

section
open TaskQueue

inductive QueueOp (α : Type)
  | cnt
  | removeHead
  | addTail (x : α)
  deriving DecidableEq, Repr

inductive QueueReply (α : Type)
  | cnt (n : UInt16)
  | removed (x : Option α)
  | added (ok : Bool)
  deriving DecidableEq, Repr

variable {α : Type}

/-- mirrors src/ftl/ftl_taskqueue.c:92-139,161-166,191-196 -/
def queueCall : QueueOp α → TaskQueue α → QueueReply α × TaskQueue α
  | .cnt, q => (.cnt q.cnt, q)
  | .removeHead, q => (.removed (removeHead q).1, (removeHead q).2)
  | .addTail x, q => (.added (addTail q x).1, (addTail q x).2)

/-- Before a load or a store of the queue; what was loaded is an argument. -/
inductive QueueAt (α : Type)
  | cnt
  | removeIsEmpty
  | removeCnt
  | removeCntStore (cnt : UInt16)
  | removeHead
  | removeHeadStore (oldHead : UInt8)
  | removeItem (oldHead : UInt8)
  | addIsFull (x : α)
  | addCnt (x : α)
  | addCntStore (x : α) (cnt : UInt16)
  | addTail (x : α)
  | addTailStore (x : α) (oldTail : UInt8)
  | addItem (x : α) (oldTail : UInt8)
  deriving DecidableEq, Repr

/-- mirrors src/ftl/ftl_taskqueue.c:92-139,161-166,191-196 -/
def queueBody : Body (TaskQueue α) (QueueOp α) (QueueAt α) (QueueReply α) where
  start
    | .cnt => .cnt
    | .removeHead => .removeIsEmpty
    | .addTail x => .addIsFull x
  access
    | .cnt, q => (.inr (.cnt q.cnt), q)
    | .removeIsEmpty, q => (if isEmpty q then .inr (.removed none) else .inl .removeCnt, q)
    | .removeCnt, q => (.inl (.removeCntStore q.cnt), q)
    | .removeCntStore cnt, q => (.inl .removeHead, { q with cnt := cnt - 1 })
    | .removeHead, q => (.inl (.removeHeadStore q.head), q)
    | .removeHeadStore oldHead, q =>
      (.inl (.removeItem oldHead), { q with head := UInt8.ofNat ((oldHead.toNat + 1) % TASK_QUEUE_MAX) })
    | .removeItem oldHead, q => (.inr (.removed (q.queue oldHead.toNat)), q)
    | .addIsFull x, q => (if isFull q then .inr (.added false) else .inl (.addCnt x), q)
    | .addCnt x, q => (.inl (.addCntStore x q.cnt), q)
    | .addCntStore x cnt, q => (.inl (.addTail x), { q with cnt := cnt + 1 })
    | .addTail x, q => (.inl (.addTailStore x q.tail), q)
    | .addTailStore x oldTail, q =>
      (.inl (.addItem x oldTail), { q with tail := UInt8.ofNat ((oldTail.toNat + 1) % TASK_QUEUE_MAX) })
    | .addItem x oldTail, q =>
      (.inr (.added true), { q with queue := fun j => if j = oldTail.toNat then some x else q.queue j })

theorem queue_does : (queueBody (α := α)).Does queueCall := by
  intro o q
  cases o with
  | cnt => exact .last rfl
  | removeHead =>
    have htest : queueBody.access .removeIsEmpty q =
        (if isEmpty q then .inr (.removed none) else .inl .removeCnt, q) := rfl
    unfold queueCall removeHead
    dsimp only
    split
    · rename_i he
      rw [if_pos he] at htest
      exact .last htest
    · rename_i he
      rw [if_neg he] at htest
      exact .next htest (.next rfl (.next rfl (.next rfl (.next rfl (.last rfl)))))
  | addTail x =>
    have htest : queueBody.access (.addIsFull x) q =
        (if isFull q then .inr (.added false) else .inl (.addCnt x), q) := rfl
    unfold queueCall addTail
    dsimp only
    split
    · rename_i hf
      rw [if_pos hf] at htest
      exact .last htest
    · rename_i hf
      rw [if_neg hf] at htest
      exact .next htest (.next rfl (.next rfl (.next rfl (.next rfl (.last rfl)))))

/-- What the program knows of the queue: how many commands core 0 has still to
poll in this round, those it has got, and for each core the one it is sending and
those it has sent. -/
structure Polling (P α : Type) where
  left : Nat
  got : List α
  cur : P → Option α
  sent : P → List α

/-- `FTL_core0task_polling` on core 0, and `FTL_sendhcmd` on any core.
mirrors src/ftl/ftl_taskqueue.c:159-217 -/
def polling (core0 : P) : Client P (QueueOp α) (QueueReply α) (Polling P α) where
  init := ⟨0, [], fun _ => none, fun _ => []⟩
  may g p o := match o with
    | .cnt => p = core0 ∧ g.left = 0
    | .removeHead => p = core0 ∧ 0 < g.left
    | .addTail _ => true
  call g p o := match o with
    | .cnt => g
    | .removeHead => { g with left := g.left - 1 }
    | .addTail x => { g with cur := Function.update g.cur p (some x) }
  ret g p r := match r with
    | .cnt n => { g with left := n.toNat }
    | .removed x => { g with got := g.got ++ x.toList }
    | .added ok =>
      { g with cur := Function.update g.cur p none,
               sent := Function.update g.sent p (g.sent p ++ if ok then (g.cur p).toList else []) }

/-- The commands a call has taken out of the queue. -/
def taken : Stage (QueueOp α) (QueueReply α) → List α
  | .done (.removed x) => x.toList
  | _ => []

/-- The commands a call has put into the queue. -/
def added (cur : Option α) : Stage (QueueOp α) (QueueReply α) → List α
  | .done (.added true) => cur.toList
  | _ => []

/-- The polls a call of core 0 stands for. -/
def polls : Stage (QueueOp α) (QueueReply α) → Nat
  | .called .removeHead => 1
  | .done (.cnt n) => n.toNat
  | _ => 0

/-- What the stage of a call says of the program. -/
def Fits (core0 : P) (g : Polling P α) (p : P) : Stage (QueueOp α) (QueueReply α) → Prop
  | .called .cnt | .done (.cnt _) => p = core0 ∧ g.left = 0
  | .called .removeHead => p = core0
  | .done (.removed x) => p = core0 ∧ x ≠ none
  | .called (.addTail x) => g.cur p = some x
  | _ => True

/-- `log` is what was put into the queue, by which core, and `xs` is what is in it. -/
structure Polled (core0 : P) (log : List (P × α)) (xs : List α) (q : TaskQueue α)
    (st : P → Stage (QueueOp α) (QueueReply α)) (g : Polling P α) : Prop where
  rep : Rep q xs
  got : log.map Prod.snd = g.got ++ taken (st core0) ++ xs
  sent : ∀ p, (log.filter fun e => e.1 = p).map Prod.snd = g.sent p ++ added (g.cur p) (st p)
  left : g.left + polls (st core0) ≤ xs.length
  fits : ∀ p, Fits core0 g p (st p)

section
variable {core0 p : P} {log : List (P × α)} {xs xs' : List α} {q q' : TaskQueue α}
variable {st : P → Stage (QueueOp α) (QueueReply α)} {g g' : Polling P α} {s t : Stage (QueueOp α) (QueueReply α)}

/-- A step of core 0 that polls. -/
theorem Polled.poll (h : Polled core0 log xs q st g) (hp : st core0 = t) (hrep : Rep q' xs')
    (hgot : g'.got ++ taken s ++ xs' = g.got ++ taken t ++ xs)
    (hold : added (g.cur core0) t = []) (hnew : added (g.cur core0) s = [])
    (hcur : g'.cur = g.cur) (hsent : g'.sent = g.sent) (hleft : g'.left + polls s ≤ xs'.length)
    (hfits : Fits core0 g' core0 s) : Polled core0 log xs' q' (Function.update st core0 s) g' where
  rep := hrep
  got := by
    rw [Function.update_self, hgot, ← hp]
    exact h.got
  sent r := by
    rw [h.sent r, hcur, hsent]
    by_cases e : r = core0
    · subst e
      rw [Function.update_self, hp, hold, hnew]
    · rw [Function.update_of_ne e]
  left := by
    rw [Function.update_self]
    exact hleft
  fits r := by
    by_cases e : r = core0
    · subst e
      rw [Function.update_self]
      exact hfits
    · rw [Function.update_of_ne e]
      have hr := h.fits r
      generalize st r = t at hr
      unfold Fits at hr ⊢
      split at hr
      · exact absurd hr.1 e
      · exact absurd hr.1 e
      · exact absurd hr e
      · exact absurd hr.1 e
      · rw [hcur]
        exact hr
      · trivial

/-- A step of a core that sends. -/
theorem Polled.send (h : Polled core0 log xs q st g) (hst : st p = t) (new : List α) (hrep : Rep q' (xs ++ new))
    (hgot : g'.got = g.got) (hl : g'.left = g.left) (hcur : ∀ r, r ≠ p → g'.cur r = g.cur r)
    (hsent : ∀ r, r ≠ p → g'.sent r = g.sent r) (ht : taken t = []) (ht' : taken s = [])
    (hp : polls t = 0) (hp' : polls s = 0)
    (hown : g'.sent p ++ added (g'.cur p) s = g.sent p ++ added (g.cur p) t ++ new)
    (hfits : Fits core0 g' p s) :
    Polled core0 (log ++ new.map (p, ·)) (xs ++ new) q' (Function.update st p s) g' where
  rep := hrep
  got := by
    have htaken : taken (Function.update st p s core0) = taken (st core0) := by
      by_cases e : core0 = p
      · subst e
        rw [Function.update_self, hst, ht, ht']
      · rw [Function.update_of_ne e]
    rw [htaken, hgot, List.map_append, List.map_map, h.got, ← List.append_assoc]
    exact congrArg (_ ++ ·) (List.map_id new)
  sent r := by
    rw [List.filter_append, List.map_append, h.sent r]
    by_cases e : r = p
    · subst e
      rw [Function.update_self, hown, hst, List.filter_eq_self.mpr, List.map_map]
      · exact congrArg (_ ++ ·) (List.map_id new)
      · simp
    · rw [Function.update_of_ne e, hcur r e, hsent r e, List.filter_eq_nil_iff.mpr]
      · exact List.append_nil _
      · simp [Ne.symm e]
  left := by
    have hpolls : polls (Function.update st p s core0) = polls (st core0) := by
      by_cases e : core0 = p
      · subst e
        rw [Function.update_self, hst, hp, hp']
      · rw [Function.update_of_ne e]
    rw [hpolls, hl, List.length_append]
    exact Nat.le_add_right_of_le h.left
  fits r := by
    by_cases e : r = p
    · subst e
      rw [Function.update_self]
      exact hfits
    · rw [Function.update_of_ne e]
      have hr := h.fits r
      generalize st r = t at hr
      unfold Fits at hr ⊢
      rw [hl, hcur r e]
      exact hr

/-- A step of a core that puts nothing into the queue. -/
theorem Polled.same (h : Polled core0 log xs q st g) (hst : st p = t) (hgot : g'.got = g.got) (hl : g'.left = g.left)
    (hcur : ∀ r, r ≠ p → g'.cur r = g.cur r) (hsent : ∀ r, r ≠ p → g'.sent r = g.sent r) (ht : taken t = [])
    (ht' : taken s = []) (hp : polls t = 0) (hp' : polls s = 0)
    (hown : g'.sent p ++ added (g'.cur p) s = g.sent p ++ added (g.cur p) t) (hfits : Fits core0 g' p s) :
    Polled core0 log xs q (Function.update st p s) g' := by
  have hsend := h.send hst [] (by rw [List.append_nil]; exact h.rep) hgot hl hcur hsent ht ht' hp hp'
    (by rw [hown, List.append_nil]) hfits
  rw [List.map_nil, List.append_nil, List.append_nil] at hsend
  exact hsend

/-- Core 0 may look at the queue when it has nothing left to poll, and polls
while it has; any core may send. -/
theorem Polled.called (h : Polled core0 log xs q st g) (hp : st p = .out) {o : QueueOp α}
    (hmay : (polling core0).may g p o = true) :
    Polled core0 log xs q (Function.update st p (.called o)) ((polling core0).call g p o) := by
  have hleft := h.left
  cases o with
  | cnt =>
    obtain ⟨rfl, hl⟩ : p = core0 ∧ g.left = 0 := of_decide_eq_true hmay
    refine h.poll hp h.rep rfl rfl rfl rfl rfl ?_ ⟨rfl, hl⟩
    dsimp only [polling, polls]
    omega
  | removeHead =>
    obtain ⟨rfl, hl⟩ : p = core0 ∧ 0 < g.left := of_decide_eq_true hmay
    refine h.poll hp h.rep rfl rfl rfl rfl rfl ?_ rfl
    dsimp only [polling, polls]
    omega
  | addTail x =>
    exact h.same hp rfl rfl (fun r e => Function.update_of_ne e _ _) (fun _ _ => rfl) rfl rfl rfl rfl rfl
      (Function.update_self _ _ _)

/-- A count finds no more than there is, a removal finds a command, and a command
is put in unless the queue is full. -/
theorem Polled.acted (h : Polled core0 log xs q st g) {o : QueueOp α} (hp : st p = .called o) :
    ∃ log' xs', Polled core0 log' xs' (queueCall o q).2 (Function.update st p (.done (queueCall o q).1)) g := by
  have hfits := h.fits p
  rw [hp] at hfits
  cases o with
  | cnt =>
    obtain ⟨rfl, hl⟩ := hfits
    refine ⟨log, xs, h.poll hp h.rep rfl rfl rfl rfl rfl ?_ ⟨rfl, hl⟩⟩
    have := h.rep.cnt
    dsimp only [queueCall, polls]
    omega
  | removeHead =>
    have hfits : p = core0 := hfits
    subst hfits
    have hleft := h.left
    rw [hp] at hleft
    cases xs with
    | nil => exact absurd hleft (by simp [polls])
    | cons x xs =>
      obtain ⟨e, hrep⟩ := removeHead_cons h.rep
      refine ⟨log, xs, h.poll hp hrep ?_ rfl rfl rfl rfl ?_ ?_⟩
      · dsimp only [queueCall]
        rw [e]
        simp [taken]
      · dsimp only [queueCall, polls] at hleft ⊢
        rw [List.length_cons] at hleft
        omega
      · dsimp only [queueCall]
        rw [e]
        exact ⟨rfl, Option.some_ne_none x⟩
  | addTail x =>
    have hcur : g.cur p = some x := hfits
    dsimp only [queueCall]
    by_cases hlt : xs.length < TASK_QUEUE_MAX
    · obtain ⟨e, hrep⟩ := addTail_spec h.rep x hlt
      refine ⟨_, _, h.send hp [x] hrep rfl rfl (fun _ _ => rfl) (fun _ _ => rfl) rfl rfl rfl rfl ?_ trivial⟩
      rw [e, hcur]
      simp [added]
    · have e := addTail_full h.rep x (Nat.le_antisymm h.rep.le (Nat.le_of_not_lt hlt))
      rw [e]
      exact ⟨log, xs, h.same hp rfl rfl (fun _ _ => rfl) (fun _ _ => rfl) rfl rfl rfl rfl rfl trivial⟩

/-- The program learns what the call has done. -/
theorem Polled.returned (h : Polled core0 log xs q st g) {r : QueueReply α} (hp : st p = .done r) :
    Polled core0 log xs q (Function.update st p .out) ((polling core0).ret g p r) := by
  have hfits := h.fits p
  rw [hp] at hfits
  have hleft := h.left
  cases r with
  | cnt n =>
    obtain ⟨rfl, hl⟩ := hfits
    rw [hp] at hleft
    refine h.poll hp h.rep rfl rfl rfl rfl rfl ?_ trivial
    dsimp only [polling, polls] at hleft ⊢
    omega
  | removed x =>
    obtain ⟨rfl, -⟩ := hfits
    rw [hp] at hleft
    refine h.poll hp h.rep ?_ rfl rfl rfl rfl hleft trivial
    dsimp only [polling, taken]
    rw [List.append_nil]
  | added ok =>
    refine h.same hp rfl rfl (fun r e => Function.update_of_ne e _ _) (fun r e => Function.update_of_ne e _ _) rfl
      rfl rfl rfl ?_ trivial
    dsimp only [polling]
    rw [Function.update_self]
    cases ok <;> simp [added]

theorem polling_keeps (core0 : P) : (polling (α := α) core0).Keeps queueCall TaskQueue.init fun q st g =>
    ∃ log xs, Polled core0 log xs q st g where
  init := ⟨[], [], rep_init, rfl, fun _ => rfl, Nat.le_refl 0, fun _ => trivial⟩
  called _ _ _ _ _ := fun ⟨log, xs, h⟩ hp hmay => ⟨log, xs, h.called hp hmay⟩
  acted _ _ _ _ _ := fun ⟨_, _, h⟩ hp => h.acted hp
  returned _ _ _ _ _ := fun ⟨log, xs, h⟩ hp => ⟨log, xs, h.returned hp⟩

end

/-- No poll of core 0 comes back empty. There is one order of all that was sent, in
which core 0 gets it, with what each core has sent in its own order; with nobody
in a call, what core 0 has not got is what is in the queue. -/
theorem from_cq_polled {core0 : P} {x : Smp P (TaskQueue α) (QueueOp α) (QueueAt α) (QueueReply α) (Polling P α)}
    (hr : (SpinLock.sys queueBody (polling core0) TaskQueue.init).Reachable x) :
    (∀ p q, (x.pc p).holds = true → (x.pc q).holds = true → p = q) ∧
      (∀ p r, x.pc p = .done (.removed r) → p = core0 ∧ r ≠ none) ∧
      ∃ log : List (P × α), x.client.got <+: log.map Prod.snd ∧
        (∀ p, ∃ rest, (log.filter fun e => e.1 = p).map Prod.snd = x.client.sent p ++ rest ∧
          rest <+: (x.client.cur p).toList) ∧
        ((∀ p, x.pc p = .out) → log.map (some ∘ Prod.snd) = x.client.got.map some ++ contents x.mem) := by
  obtain ⟨a, ha, h⟩ := exists_atomic queue_does hr
  obtain ⟨log, xs, hpoll⟩ := (polling_keeps core0).reachable ha
  have hclient := h.client
  refine ⟨h.guarded.unique, fun p r e => ?_, log, ?_, fun p => ?_, fun hout => ?_⟩
  · have hag := h.agrees p
    have hfits := hpoll.fits p
    rw [e] at hag
    generalize a.stage p = st at hag hfits
    cases hag
    exact hfits
  · rw [hpoll.got, hclient, List.append_assoc]
    exact List.prefix_append _ _
  · refine ⟨_, by rw [hpoll.sent p, hclient], ?_⟩
    rw [hclient]
    unfold added
    split
    · exact List.prefix_rfl
    · exact List.nil_prefix
  · have hst : a.stage core0 = .out := by
      have hag := h.agrees core0
      rw [hout core0] at hag
      generalize a.stage core0 = st at hag
      cases hag
      rfl
    rw [h.mem fun p => by rw [hout p]; rfl, hpoll.rep.contents_eq, hclient, ← List.map_map, hpoll.got, hst]
    simp [taken]

/-- One core has sent two commands, the other one has counted them and got the first. -/
theorem from_cq_polled_first : ∃ (x : Smp Bool (TaskQueue Nat) _ (QueueAt Nat) _ (Polling Bool Nat)) (r : Option Nat),
    (SpinLock.sys queueBody (polling false) TaskQueue.init).Reachable x ∧ x.client.sent true = [7, 9] ∧
      x.client.left = 1 ∧ x.pc false = .done (.removed r) ∧ r ≠ none := by
  have hs : LTS.exec (SpinLock.step queueBody (polling false))
      (⟨0, fun _ => false, fun _ => .out, TaskQueue.init, (polling false).init⟩ : Smp Bool (TaskQueue Nat) _ _ _ _)
      (calls true (.addTail 7) 10 ++ calls true (.addTail 9) 10 ++ calls false .cnt 5 ++
        .call false .removeHead :: List.replicate 10 (.run false)) = some _ := rfl
  have hr := LTS.Reachable.exec (T := SpinLock.sys queueBody (polling false) TaskQueue.init) (fun _ _ _ => id)
    (.start rfl) hs
  exact ⟨_, some 7, hr, rfl, rfl, rfl, ((from_cq_polled hr).2.1 false _ rfl).2⟩

end
end OpenSSDEmu.L2.TwoCores
