import Mathlib.Data.List.Nodup
import Mathlib.Data.List.Perm.Subperm
import Mathlib.Data.Nat.ModEq

/-!
# First-allocated-first-evicted caches

A cache of `N` slots that hands out slot after slot, round and round, is
determined by its history: the list of allocations, newest first, each a key
and the slot it got. The last `N` allocations are resident.

* `resident_nodup`: no slot is resident twice.
* `resident_cons_of_lt`, `resident_cons_of_le`, `resident_last`: what an
  allocation adds and which one it displaces.
* `slots_perm`: every slot is either still unused or resident.
* `mem_resident_iff`: what a slot holds is what it was last allocated for.
* `age_lt`: the slot handed out next is the one allocated longest ago.
-/
namespace OpenSSDEmu.Fifo
variable {κ : Type}

abbrev History (κ : Type) := List (κ × Nat)

/-- Slots are handed out in rotation. -/
def Numbered (N : Nat) : History κ → Prop
  | [] => True
  | e :: hist => e.2 = hist.length % N ∧ Numbered N hist

def resident (N : Nat) (hist : History κ) : History κ := hist.take N

/-- What slot `b` was last allocated for. -/
def lastFor (hist : History κ) (b : Nat) : Option κ := (hist.find? fun e => e.2 = b).map Prod.fst

/-- How many allocations ago slot `b` was last handed out. -/
def age (hist : History κ) (b : Nat) : Nat := hist.findIdx fun e => e.2 = b

theorem lastFor_cons (e : κ × Nat) (hist : History κ) (b : Nat) :
    lastFor (e :: hist) b = if e.2 = b then some e.1 else lastFor hist b := by
  unfold lastFor
  by_cases h : e.2 = b <;> simp [h]

section
variable {N : Nat} {hist : History κ} {e : κ × Nat}

theorem Numbered.getElem (h : Numbered N hist) (i : Nat) (hi : i < hist.length) :
    hist[i].2 = (hist.length - 1 - i) % N := by
  induction hist generalizing i with
  | nil => simp at hi
  | cons e hist ih =>
    cases i with
    | zero => simpa using h.1
    | succ i =>
      simp only [List.getElem_cons_succ, List.length_cons] at hi ⊢
      rw [ih h.2 i (by omega)]
      congr 1
      omega

theorem mod_ne_of_lt {a b : Nat} (hab : a < b) (hN : b < a + N) : a % N ≠ b % N := by
  intro e
  have h := Nat.sub_mod_eq_zero_of_mod_eq e.symm
  have := Nat.le_of_dvd (by omega) (Nat.dvd_of_mod_eq_zero h)
  omega

/-- No slot is resident twice. -/
theorem resident_nodup (h : Numbered N hist) : ((resident N hist).map Prod.snd).Nodup := by
  refine List.pairwise_iff_getElem.mpr fun i j hi hj hij => ?_
  simp only [resident, List.length_map, List.length_take] at hi hj
  simp only [resident, List.getElem_map, List.getElem_take]
  rw [h.getElem i (by omega), h.getElem j (by omega)]
  exact Ne.symm (mod_ne_of_lt (by omega) (by omega))

theorem resident_cons_of_lt (hl : hist.length < N) : resident N (e :: hist) = e :: resident N hist := by
  rw [resident, resident, List.take_of_length_le (by simpa using Nat.succ_le_of_lt hl),
    List.take_of_length_le (by omega)]

theorem resident_cons_of_le (hN : 0 < N) (hl : N ≤ hist.length) :
    resident N (e :: hist) = e :: (resident N hist).dropLast := by
  obtain ⟨n, rfl⟩ : ∃ n, N = n + 1 := ⟨N - 1, by omega⟩
  rw [resident, resident, List.take_succ_cons, List.dropLast_eq_take, List.take_take, List.length_take]
  congr 2
  omega

/-- The oldest resident allocation has the slot that is handed out next. -/
theorem resident_last (hN : 0 < N) (h : Numbered N hist) (hl : N ≤ hist.length) :
    ∃ k r, resident N hist = r ++ [(k, hist.length % N)] := by
  have hlen : (resident N hist).length = N := by simp [resident, hl]
  obtain ⟨r, v, hr⟩ := (List.eq_nil_or_concat' (resident N hist)).resolve_left (by
    intro e; rw [e] at hlen; simp at hlen; omega)
  have hrl : r.length = N - 1 := by
    have := congrArg List.length hr
    simp only [hlen, List.length_append, List.length_cons, List.length_nil] at this
    omega
  have hv : v = hist[N - 1] := by
    have h1 : (resident N hist)[N - 1]? = some v := by simp [hr, hrl]
    rw [resident, List.getElem?_take_of_lt (by omega), List.getElem?_eq_getElem (by omega)] at h1
    exact (Option.some.inj h1).symm
  refine ⟨v.1, r, ?_⟩
  rw [hr]
  have hs := h.getElem (N - 1) (by omega)
  rw [← hv] at hs
  rw [show hist.length % N = v.2 by rw [hs, Nat.mod_eq_sub_mod hl]; congr 1; omega]

/-- Before the first round is over, the next slot was never used. -/
theorem slot_fresh (h : Numbered N hist) (hl : hist.length < N) : ∀ e ∈ hist, e.2 < hist.length := by
  intro e he
  obtain ⟨i, hi, rfl⟩ := List.getElem_of_mem he
  rw [h.getElem i hi, Nat.mod_eq_of_lt (by omega)]
  omega

/-- The next slot is none of the last `N - 1`. -/
theorem slot_notMem_recent (h : Numbered N hist) :
    hist.length % N ∉ (hist.take (N - 1)).map Prod.snd := by
  intro hm
  obtain ⟨i, hi, he⟩ := List.getElem_of_mem hm
  simp only [List.length_map, List.length_take] at hi
  simp only [List.getElem_map, List.getElem_take] at he
  rw [h.getElem i (by omega)] at he
  exact mod_ne_of_lt (by omega) (by omega) he

theorem slot_lt (hN : 0 < N) (h : Numbered N hist) : ∀ e ∈ hist, e.2 < N := by
  intro e he
  obtain ⟨i, hi, rfl⟩ := List.getElem_of_mem he
  rw [h.getElem i hi]
  exact Nat.mod_lt _ hN

/-- Every slot that was ever used is resident. -/
theorem exists_resident (hN : 0 < N) (h : Numbered N hist) (he : e ∈ hist) :
    ∃ k, (k, e.2) ∈ resident N hist := by
  obtain ⟨i, hi, rfl⟩ := List.getElem_of_mem he
  have hlt : i % N < N := Nat.mod_lt _ hN
  have hle : i % N ≤ i := Nat.mod_le _ _
  have hslot : hist[i % N].2 = hist[i].2 := by
    rw [h.getElem i hi, h.getElem (i % N) (by omega)]
    have hdiv : hist.length - 1 - i % N = hist.length - 1 - i + N * (i / N) := by
      have := Nat.mod_add_div i N
      omega
    rw [hdiv, Nat.add_mul_mod_self_left]
  refine ⟨hist[i % N].1, ?_⟩
  rw [← hslot]
  exact List.mem_take_iff_getElem.mpr ⟨i % N, by omega, rfl⟩

/-- A slot holds what it was last allocated for. -/
theorem mem_resident_iff (hN : 0 < N) (h : Numbered N hist) {k : κ} {b : Nat} :
    (k, b) ∈ resident N hist ↔ lastFor hist b = some k := by
  have hsplit : hist.find? (fun e => e.2 = b) =
      ((resident N hist).find? fun e => e.2 = b).or ((hist.drop N).find? fun e => e.2 = b) := by
    rw [← List.find?_append, resident, List.take_append_drop]
  have huniq : ∀ {e e' : κ × Nat}, e ∈ resident N hist → e' ∈ resident N hist → e.2 = e'.2 → e = e' :=
    fun h1 h2 => List.inj_on_of_nodup_map (resident_nodup h) h1 h2
  cases hf : (resident N hist).find? fun e => e.2 = b with
  | some e =>
    have he := List.mem_of_find?_eq_some hf
    have hb : e.2 = b := by simpa using List.find?_some hf
    rw [lastFor, hsplit, hf]
    simp only [Option.some_or, Option.map_some, Option.some.injEq]
    constructor
    · intro hm
      rw [huniq he hm hb]
    · intro heq
      subst heq
      rw [← hb]; exact he
  | none =>
    have hno : ∀ k', (k', b) ∉ resident N hist := fun k' hm => by
      simpa using List.find?_eq_none.mp hf _ hm
    refine ⟨fun hm => absurd hm (hno k), fun hl => ?_⟩
    obtain ⟨e, he, -⟩ := Option.map_eq_some_iff.mp hl
    have hb : e.2 = b := by simpa using List.find?_some he
    obtain ⟨k', hk'⟩ := exists_resident hN h (List.mem_of_find?_eq_some he)
    exact absurd (hb ▸ hk') (hno k')

/-- Every slot is either still unused or resident. -/
theorem slots_perm (hN : 0 < N) (h : Numbered N hist) :
    (List.range' hist.length (N - hist.length) ++ (resident N hist).map Prod.snd).Perm (List.range N) := by
  have hslot : ∀ b ∈ (resident N hist).map Prod.snd, ∃ e ∈ hist, e.2 = b := fun b hb => by
    obtain ⟨e, he, rfl⟩ := List.mem_map.mp hb
    exact ⟨e, List.mem_of_mem_take he, rfl⟩
  have hnd : (List.range' hist.length (N - hist.length) ++ (resident N hist).map Prod.snd).Nodup := by
    refine List.nodup_append.mpr ⟨List.nodup_range', resident_nodup h, fun a ha b hb => ?_⟩
    obtain ⟨e, he, rfl⟩ := hslot b hb
    rw [List.mem_range'_1] at ha
    have := slot_fresh h (by omega) e he
    omega
  have hsub : List.range' hist.length (N - hist.length) ++ (resident N hist).map Prod.snd ⊆ List.range N := by
    intro b hb
    rw [List.mem_range]
    rcases List.mem_append.mp hb with hb | hb
    · rw [List.mem_range'_1] at hb
      omega
    · obtain ⟨e, he, rfl⟩ := hslot b hb
      exact slot_lt hN h e he
  refine (List.subperm_of_subset hnd hsub).perm_of_length_le ?_
  simp only [List.length_range, List.length_append, List.length_range', List.length_map, resident,
    List.length_take]
  omega

/-- A slot is unused exactly while the first round is not over and its turn
has not come. -/
theorem lastFor_eq_none_iff (hN : 0 < N) (h : Numbered N hist) {b : Nat} (hb : b < N) :
    lastFor hist b = none ↔ hist.length ≤ b := by
  have hmem := (slots_perm hN h).mem_iff (a := b)
  have hdisj := List.nodup_append.mp ((slots_perm hN h).nodup_iff.mpr List.nodup_range)
  simp only [List.mem_append, List.mem_range'_1, List.mem_map, List.mem_range, hb, iff_true] at hmem
  rw [← not_iff_not, ← ne_eq, Option.ne_none_iff_exists']
  simp only [← mem_resident_iff hN h, not_le]
  constructor
  · intro hx
    obtain ⟨k, hk⟩ := hx
    by_contra hle
    exact hdisj.2.2 b (List.mem_range'_1.mpr (by omega)) b (List.mem_map.mpr ⟨_, hk, rfl⟩) rfl
  · intro hlt
    obtain ⟨e, he, rfl⟩ := hmem.resolve_left (by omega)
    exact ⟨e.1, he⟩

/-- Once all slots are used, the next one is the one handed out longest ago. -/
theorem age_lt (hN : 0 < N) (h : Numbered N hist) (hl : N ≤ hist.length) {c : Nat} (hc : c < N)
    (hne : c ≠ hist.length % N) : age hist c < age hist (hist.length % N) := by
  obtain ⟨k, r, hr⟩ := resident_last hN h hl
  have hsplit : hist = r ++ (k, hist.length % N) :: hist.drop N := by
    conv_lhs => rw [← List.take_append_drop N hist]
    rw [show hist.take N = r ++ [(k, hist.length % N)] from hr]
    simp
  have hnd := resident_nodup h
  rw [hr, List.map_append] at hnd
  have hlast : ¬ ∃ e ∈ r, e.2 = hist.length % N := by
    intro hx
    obtain ⟨e, he, heq⟩ := hx
    exact (List.nodup_append.mp hnd).2.2 e.2 (List.mem_map.mpr ⟨e, he, rfl⟩) _ (by simp) heq
  obtain ⟨k', hk'⟩ := Option.ne_none_iff_exists'.mp
    (mt (lastFor_eq_none_iff hN h hc).mp (by omega))
  have hcr : ∃ e ∈ r, e.2 = c := by
    rw [← mem_resident_iff hN h, hr] at hk'
    rcases List.mem_append.mp hk' with hm | hm
    · exact ⟨_, hm, rfl⟩
    · simp at hm; exact absurd hm.2 hne
  generalize hist.length % N = v at hsplit hlast
  unfold age
  rw [hsplit, List.findIdx_append, List.findIdx_append, if_pos (by simpa using hcr),
    if_neg (by simpa using hlast)]
  have hlt : r.findIdx (fun e => decide (e.2 = c)) < r.length :=
    List.findIdx_lt_length.mpr (by simpa using hcr)
  omega

end

end OpenSSDEmu.Fifo
