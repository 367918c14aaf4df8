import OpenSSDEmu.Core.LTS
import OpenSSDEmu.L3Buffer.Cache

/-!
# The cache is a bounded map with first-allocated-first-evicted replacement

The accesses of `FTL_handle_checkcache` to the cache: lookups in any order,
and `L2P_allocate_buf(lpn)` only right after the lookup of `lpn` missed. A
ghost history records every allocation and the buffer it got. `FifoMap` is
what a client may rely on, in terms of that history alone.

* `inv_reachable`: the cache is that of its history, and no two resident
  allocations are for one page.
* `cache_refines`: `FifoMap` in every reachable state.
-/
namespace OpenSSDEmu.L3.Buffer
open L2.List Fifo

structure Cache where
  buf : Buf
  /-- the page whose lookup, the last access, missed -/
  miss : Option UInt32
  /-- ghost: every allocation, newest first -/
  hist : Hist

inductive Access
  | check (lpn : UInt32)
  | alloc (lpn : UInt32)

def Cache.step (c : Cache) : Access → Option Cache
  | .check lpn => do
    let id ← checkBufHit c.buf lpn
    return { c with miss := if id = INVALID_ID then some lpn else none }
  | .alloc lpn =>
    if c.miss = some lpn then do
      let (id, buf) ← allocateBuf c.buf lpn
      return { buf := buf, miss := none, hist := (lpn, id.toNat) :: c.hist }
    else none

def cache : LTS Cache Access where
  init c := ∃ s, initBuffer = some s ∧ c = ⟨s, none, []⟩
  step c a c' := c.step a = some c'

/-! ## The specification -/

/-- What an allocation of `b` for `lpn` does. -/
structure Replaces (s s' : Buf) (hist : Hist) (lpn : UInt32) (b : Nat) : Prop where
  /-- a buffer never yet used, while there is one -/
  fresh : (∃ c < BUFFER_NUMBER, lastFor hist c = none) → lastFor hist b = none
  /-- else the one whose allocation is oldest -/
  oldest : (∀ c < BUFFER_NUMBER, lastFor hist c ≠ none) →
    ∀ c < BUFFER_NUMBER, c ≠ b → age hist c < age hist b
  /-- the new page is found, the evicted one is not -/
  added : checkBufHit s' lpn = some (UInt32.ofNat b)
  evicted : ∀ k, k ≠ lpn → lastFor hist b = some k → checkBufHit s' k = some INVALID_ID
  others : ∀ k, k ≠ lpn → lastFor hist b ≠ some k → checkBufHit s' k = checkBufHit s k

/-- The lists hold `free`, `lru` and `bucket i`. -/
structure Lists (s : Buf) (free lru : List Nat) (bucket : Nat → List Nat) : Prop where
  freeList : IsList s.heap freeHead (free.map (Addr.node .free))
  lruList : IsList s.heap lruHead (lru.map (Addr.node .lru))
  hashList : ∀ i < HASH_TABLE_SIZE, IsList s.heap (.head .hash i) ((bucket i).map (Addr.node .hash))
  /-- each buffer is in exactly one of the two -/
  partition : (free ++ lru).Perm (List.range BUFFER_NUMBER)
  /-- the buckets hold the LRU buffers, each under its page -/
  hashed : ∀ i < HASH_TABLE_SIZE, ∀ b, b ∈ bucket i ↔ b ∈ lru ∧ (s.lpn b).toNat % HASH_TABLE_SIZE = i
  distinct : ∀ b ∈ lru, ∀ c ∈ lru, s.lpn b = s.lpn c → b = c

/-- A map of `BUFFER_NUMBER` pages, the first allocated evicted first. -/
structure FifoMap (s : Buf) (hist : Hist) : Prop where
  hit : ∀ lpn, ∀ b < BUFFER_NUMBER,
    checkBufHit s lpn = some (UInt32.ofNat b) ↔ lastFor hist b = some lpn
  miss : ∀ lpn, checkBufHit s lpn = some INVALID_ID ↔ ∀ b < BUFFER_NUMBER, lastFor hist b ≠ some lpn
  alloc : ∀ lpn, checkBufHit s lpn = some INVALID_ID →
    ∃ b < BUFFER_NUMBER, ∃ s', allocateBuf s lpn = some (UInt32.ofNat b, s') ∧ Replaces s s' hist lpn b
  lists : ∃ free lru bucket, Lists s free lru bucket

/-! ## The invariant -/

/-- No two resident allocations are for one page. -/
def Distinct (hist : Hist) : Prop := ((resident BUFFER_NUMBER hist).map Prod.fst).Nodup

structure Cache.Inv (c : Cache) : Prop where
  cached : Cached c.buf c.hist
  distinct : Distinct c.hist
  missed : ∀ lpn, c.miss = some lpn → checkBufHit c.buf lpn = some INVALID_ID

section
variable {s s' : Buf} {hist : Hist} {lpn k : UInt32} {b : Nat}

/-- A lookup finds the one buffer that is resident for the page. -/
theorem checkBufHit_hit_iff (hc : Cached s hist) (hd : Distinct hist) (hb : b < BUFFER_NUMBER) :
    checkBufHit s lpn = some (UInt32.ofNat b) ↔ (lpn, b) ∈ resident BUFFER_NUMBER hist := by
  rcases checkBufHit_spec hc lpn with ⟨e, hno⟩ | ⟨c, e, hm⟩
  · rw [e, Option.some.injEq]
    exact iff_of_false (ofNat_ne_invalid hb).symm (hno b)
  · rw [e, Option.some.injEq]
    constructor
    · intro h
      rwa [← ofNat_inj_of_lt (hc.slot_lt hm) hb h]
    · intro hm'
      have := List.inj_on_of_nodup_map hd hm hm' rfl
      rw [(Prod.mk.inj this).2]

/-- The lookup depends only on what each buffer was last allocated for. -/
theorem checkBufHit_congr {hist' : Hist} (hc : Cached s hist) (hd : Distinct hist) (hc' : Cached s' hist')
    (hd' : Distinct hist') (h : ∀ b, lastFor hist' b = some k ↔ lastFor hist b = some k) :
    checkBufHit s' k = checkBufHit s k := by
  have hm : ∀ b, (k, b) ∈ resident BUFFER_NUMBER hist' ↔ (k, b) ∈ resident BUFFER_NUMBER hist := fun b => by
    rw [hc'.mem_iff, hc.mem_iff, h b]
  by_cases hno : ∀ b, (k, b) ∉ resident BUFFER_NUMBER hist
  · rw [(checkBufHit_miss_iff hc).mpr hno, (checkBufHit_miss_iff hc').mpr fun b => mt (hm b).mp (hno b)]
  · obtain ⟨b, hb⟩ := not_forall_not.mp hno
    have hlt := hc.slot_lt hb
    rw [(checkBufHit_hit_iff hc hd hlt).mpr hb, (checkBufHit_hit_iff hc' hd' hlt).mpr ((hm b).mpr hb)]

/-- An allocation after a miss keeps the resident pages distinct. -/
theorem Distinct.cons (hc : Cached s hist) (hd : Distinct hist) (hm : checkBufHit s lpn = some INVALID_ID) :
    Distinct ((lpn, b) :: hist) := by
  have hno : lpn ∉ (resident BUFFER_NUMBER hist).map Prod.fst := by
    simpa using (checkBufHit_miss_iff hc).mp hm
  unfold Distinct
  by_cases hl : hist.length < BUFFER_NUMBER
  · rw [resident_cons_of_lt hl, List.map_cons]
    exact List.nodup_cons.mpr ⟨hno, hd⟩
  · rw [resident_cons_of_le (by decide) (by omega), List.map_cons, List.map_dropLast]
    exact List.nodup_cons.mpr ⟨fun h => hno (List.dropLast_subset _ h),
      hd.sublist (List.dropLast_sublist _)⟩

theorem replaces_of_alloc (hc : Cached s hist) (hd : Distinct hist)
    (hm : checkBufHit s lpn = some INVALID_ID)
    (hc' : Cached s' ((lpn, hist.length % BUFFER_NUMBER) :: hist)) :
    Replaces s s' hist lpn (hist.length % BUFFER_NUMBER) := by
  have hlt : hist.length % BUFFER_NUMBER < BUFFER_NUMBER := Nat.mod_lt _ (by decide)
  have hd' := Distinct.cons (b := hist.length % BUFFER_NUMBER) hc hd hm
  have hnone := fun {c : Nat} (h : c < BUFFER_NUMBER) => lastFor_eq_none_iff (by decide) hc.num h
  refine ⟨?_, ?_, ?_, ?_, ?_⟩
  · intro hx
    obtain ⟨c, hcN, hcn⟩ := hx
    have hle := (hnone hcN).mp hcn
    rw [hnone hlt, Nat.mod_eq_of_lt (by omega)]
  · intro hall c hcN hne
    refine age_lt (by decide) hc.num ?_ hcN hne
    have := mt (hnone hlt).mpr (hall _ hlt)
    by_contra hlt'
    rw [Nat.mod_eq_of_lt (by omega)] at this
    exact this le_rfl
  · rw [checkBufHit_hit_iff hc' hd' hlt, hc'.mem_iff, lastFor_cons]
    simp
  · intro k hk hv
    rw [checkBufHit_miss_iff hc']
    intro b hb
    rw [hc'.mem_iff, lastFor_cons] at hb
    split at hb
    · exact hk (Option.some.inj hb).symm
    · rename_i hne
      rw [← hc.mem_iff] at hb hv
      have heq := List.inj_on_of_nodup_map hd hb hv rfl
      exact hne (Prod.mk.inj heq).2.symm
  · intro k hk hv
    refine checkBufHit_congr hc hd hc' hd' fun b => ?_
    rw [lastFor_cons]
    split
    · rename_i hb
      simp only at hb
      subst hb
      simp [Ne.symm hk, hv]
    · rfl

theorem Cached.lists (hc : Cached s hist) (hd : Distinct hist) :
    Lists s (List.range' hist.length (BUFFER_NUMBER - hist.length)) ((resident BUFFER_NUMBER hist).map Prod.snd)
      (bucketOf (resident BUFFER_NUMBER hist)) := by
  refine ⟨hc.free, hc.lru, fun i _ => hc.hash.list i, slots_perm (by decide) hc.num, fun i _ b => ?_, ?_⟩
  · rw [mem_bucketOf]
    constructor
    · intro hx
      obtain ⟨k, hk, rfl⟩ := hx
      rw [hc.lpn _ hk]
      exact ⟨List.mem_map.mpr ⟨_, hk, rfl⟩, rfl⟩
    · intro hx
      obtain ⟨hb, rfl⟩ := hx
      obtain ⟨e, he, rfl⟩ := List.mem_map.mp hb
      exact ⟨e.1, he, by rw [hc.lpn e he]; rfl⟩
  · intro b hb c hcm heq
    obtain ⟨e, he, rfl⟩ := List.mem_map.mp hb
    obtain ⟨e', he', rfl⟩ := List.mem_map.mp hcm
    rw [hc.lpn e he, hc.lpn e' he'] at heq
    rw [List.inj_on_of_nodup_map hd he he' heq]

theorem Cached.fifoMap (hc : Cached s hist) (hd : Distinct hist) : FifoMap s hist := by
  refine ⟨fun lpn b hb => ?_, fun lpn => ?_, fun lpn hm => ?_, ⟨_, _, _, hc.lists hd⟩⟩
  · rw [checkBufHit_hit_iff hc hd hb, hc.mem_iff]
  · rw [checkBufHit_miss_iff hc]
    refine ⟨fun h b _ hb => h b (hc.mem_iff.mpr hb), fun h b hb => ?_⟩
    exact h b (hc.slot_lt hb) (hc.mem_iff.mp hb)
  · obtain ⟨s', e, hc'⟩ := allocateBuf_spec hc lpn
    exact ⟨_, Nat.mod_lt _ (by decide), s', e, replaces_of_alloc hc hd hm hc'⟩

end

/-! ## Runs -/

theorem Cache.Inv.step {c c' : Cache} {a : Access} (h : c.Inv) (hs : c.step a = some c') : c'.Inv := by
  cases a with
  | check lpn =>
    simp only [Cache.step, Option.bind_eq_bind, Option.bind_eq_some_iff, Option.pure_def,
      Option.some.injEq] at hs
    obtain ⟨id, hid, rfl⟩ := hs
    refine ⟨h.cached, h.distinct, fun k hk => ?_⟩
    split at hk
    · cases hk; rename_i hinv; rw [← hinv]; exact hid
    · cases hk
  | alloc lpn =>
    simp only [Cache.step] at hs
    split at hs
    · rename_i hmiss
      obtain ⟨s', e, hc'⟩ := allocateBuf_spec h.cached lpn
      rw [e] at hs
      cases hs
      rw [toNat_slot]
      exact ⟨hc', h.distinct.cons h.cached (h.missed lpn hmiss), by simp⟩
    · cases hs

theorem Cache.inv_reachable : ∀ c, cache.Reachable c → c.Inv := by
  refine LTS.Inductive.reachable ⟨?_, fun c a c' h hs => h.step hs⟩
  intro c hstart
  obtain ⟨s, hs, rfl⟩ := hstart
  obtain ⟨s', e, hc, -⟩ := initBuffer_spec
  cases hs.symm.trans e
  exact ⟨hc, by simp [Distinct, resident], by simp⟩

/-- **The cache is a bounded first-allocated-first-evicted map** after every
sequence of accesses that allocates only after a miss: a lookup finds the
buffer last allocated for the page, an allocation takes an unused buffer or
the one allocated longest ago and changes no other lookup, and the three
kinds of list agree. -/
theorem cache_refines {c : Cache} (hr : cache.Reachable c) : FifoMap c.buf c.hist :=
  (Cache.inv_reachable c hr).cached.fifoMap (Cache.inv_reachable c hr).distinct

/-! ## A run that evicts -/

/-- A lookup that misses, and the allocation after it. -/
theorem Cache.load {c : Cache} (hr : cache.Reachable c) (lpn : UInt32) (hm : ∀ e ∈ c.hist, e.1 ≠ lpn) :
    ∃ c', cache.Reachable c' ∧ c'.hist = (lpn, c.hist.length % BUFFER_NUMBER) :: c.hist := by
  have hc := (Cache.inv_reachable c hr).cached
  have hmiss : checkBufHit c.buf lpn = some INVALID_ID := by
    rw [checkBufHit_miss_iff hc]
    exact fun b hb => hm _ (List.mem_of_mem_take hb) rfl
  obtain ⟨s, e, -⟩ := allocateBuf_spec hc lpn
  have h1 : cache.Reachable { c with miss := some lpn } :=
    hr.next (l := .check lpn) (by simp [cache, Cache.step, hmiss])
  have h2 : cache.Reachable ⟨s, none, (lpn, c.hist.length % BUFFER_NUMBER) :: c.hist⟩ :=
    h1.next (l := .alloc lpn) (by
      simp only [cache, Cache.step, if_true, e, Option.bind_eq_bind, Option.bind_some, Option.pure_def,
        toNat_slot])
  exact ⟨_, h2, rfl⟩

theorem exists_upTo (n : Nat) (hn : n ≤ 2 ^ 32) : ∃ c, cache.Reachable c ∧ c.hist = upTo n := by
  induction n with
  | zero =>
    obtain ⟨s, e, -⟩ := initBuffer_spec
    exact ⟨_, .start ⟨s, e, rfl⟩, rfl⟩
  | succ n ih =>
    obtain ⟨c, hr, hh⟩ := ih (by omega)
    obtain ⟨c', hr', hh'⟩ := Cache.load hr (UInt32.ofNat n) fun e he => upTo_ne le_rfl hn (hh ▸ he)
    exact ⟨c', hr', by rw [hh', hh, length_upTo, upTo_succ]⟩

/-- 1501 pages: the last one gets the buffer of page 0, and only page 0 is
lost. -/
theorem cache_refines_evicts : ∃ c, cache.Reachable c ∧ c.hist = upTo 1501 ∧ FifoMap c.buf c.hist ∧
    checkBufHit c.buf 1500 = some 0 ∧ checkBufHit c.buf 0 = some INVALID_ID ∧
    ∀ b, 0 < b → b < BUFFER_NUMBER → checkBufHit c.buf (UInt32.ofNat b) = some (UInt32.ofNat b) := by
  obtain ⟨c, hr, hh⟩ := exists_upTo 1501 (by decide)
  have hmap := cache_refines hr
  have hlast : ∀ b, lastFor c.hist b = if 0 = b then some 1500 else lastFor (upTo 1500) b := fun b => by
    rw [hh, upTo_succ, lastFor_cons]
    rfl
  refine ⟨c, hr, hh, hmap, (hmap.hit 1500 0 (by decide)).mpr (hlast 0), (hmap.miss 0).mpr fun b hb h => ?_,
    fun b h0 hb => (hmap.hit _ b hb).mpr ?_⟩
  · rw [hlast] at h
    split at h
    · cases h
    · rename_i hne
      rw [lastFor_upTo (n := 1500) (by decide) hb, Option.some.injEq] at h
      exact hne (ofNat_inj_of_lt (by decide) hb h.symm)
  · rw [hlast, if_neg (by omega), lastFor_upTo (n := 1500) (by decide) hb]

end OpenSSDEmu.L3.Buffer
