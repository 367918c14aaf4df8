import Mathlib.Data.List.Find
import OpenSSDEmu.Core.Fifo
import OpenSSDEmu.Core.LTS
import OpenSSDEmu.L2Machine.Pool
import OpenSSDEmu.L3Buffer.Buffer

/-!
# The buffer cache is a FIFO cache

`Cached s hist`: the free list, the LRU list, the hash table and the page
numbers of `s` are those of a cache whose allocations so far were `hist`
(`Core.Fifo`, newest first). A hit moves nothing, so the LRU list is in the
order of allocation and its tail is the oldest resident buffer; a bucket is
in that order too, so the entry `delete_hash_table_entry` finds for the
victim's page is the victim's own, whether or not another buffer holds the
same page.

* `Chains`: a table of lists, which the buckets and the lists of the host
  commands are, and what the list operations do to it.
* `checkBufHit_spec`, `allocateBuf_spec`: the two operations, for any
  history.
* `upTo`: the history of the pages in order, and what is resident after it.
-/
namespace OpenSSDEmu.L3.Buffer
open L2.List Fifo

/-! ## Buffer numbers as ids -/

theorem toNat_ofNat_lt {b : Nat} (hb : b < BUFFER_NUMBER) : (UInt32.ofNat b).toNat = b := by
  unfold BUFFER_NUMBER at hb
  rw [UInt32.toNat_ofNat']
  exact Nat.mod_eq_of_lt (by omega)

theorem toNat_slot (n : Nat) : (UInt32.ofNat (n % BUFFER_NUMBER)).toNat = n % BUFFER_NUMBER :=
  toNat_ofNat_lt (Nat.mod_lt _ (by decide))

theorem ofNat_inj_of_lt {b c : Nat} (hb : b < BUFFER_NUMBER) (hc : c < BUFFER_NUMBER)
    (h : UInt32.ofNat b = UInt32.ofNat c) : b = c := by
  rw [← toNat_ofNat_lt hb, h, toNat_ofNat_lt hc]

theorem ofNat_ne_invalid {b : Nat} (hb : b < BUFFER_NUMBER) : UInt32.ofNat b ≠ INVALID_ID := by
  intro h
  have := congrArg UInt32.toNat h
  rw [toNat_ofNat_lt hb] at this
  unfold BUFFER_NUMBER at hb
  exact absurd this (by simp [INVALID_ID]; omega)

/-! ## Walks -/

/-- The first element a counting test accepts. -/
def findFrom (p : Nat → Nat → Bool) : Nat → List Nat → Option Nat
  | _, [] => none
  | k, b :: bs => if p k b then some b else findFrom p (k + 1) bs

theorem forEachEntry_spec {h : Heap Addr} {m : Member} {head : Addr} {p : Nat → Nat → Bool}
    (bs : List Nat) : ∀ (l : List Addr) (fuel k : Nat), IsList h head (l ++ bs.map (Addr.node m)) →
      bs.length < fuel →
      forEachEntry h m head p fuel k (some ((bs.map (Addr.node m)).headD head)) =
        some (findFrom p k bs) := by
  induction bs with
  | nil =>
    intro l fuel k _ hf
    obtain ⟨f, rfl⟩ : ∃ f, fuel = f + 1 := ⟨fuel - 1, by omega⟩
    simp [forEachEntry, findFrom]
  | cons b bs ih =>
    intro l fuel k hl hf
    simp only [List.length_cons] at hf
    obtain ⟨f, rfl⟩ : ∃ f, fuel = f + 1 := ⟨fuel - 1, by omega⟩
    have hne : Addr.node m b ≠ head := by
      intro heq
      subst heq
      exact Links.Circ.head_notMem hl (by simp)
    have hl' : IsList h head (l ++ .node m b :: bs.map (Addr.node m)) := by simpa using hl
    have hnext : (h (.node m b)).next = some ((bs.map (Addr.node m)).headD head) :=
      Links.Circ.next_of_mem hl'
    simp only [forEachEntry, List.map_cons, List.headD_cons, Option.bind_eq_bind, Option.bind_some, hne,
      if_false, containerOf, if_true, findFrom, Option.pure_def]
    split
    · rfl
    · rw [hnext]
      exact ih (l ++ [.node m b]) f (k + 1) (by simpa using hl) (by omega)

/-- A walk over a whole list. -/
theorem forEachEntry_list {h : Heap Addr} {m : Member} {head : Addr} {p : Nat → Nat → Bool} {bs : List Nat}
    {fuel : Nat} (hl : IsList h head (bs.map (Addr.node m))) (hf : bs.length < fuel) :
    forEachEntry h m head p fuel 0 (h head).next = some (findFrom p 0 bs) := by
  have hfirst : (h head).next = some ((bs.map (Addr.node m)).headD head) := Links.Circ.first hl
  rw [hfirst]
  exact forEachEntry_spec bs [] fuel 0 hl hf

theorem findFrom_const (p : Nat → Bool) (k : Nat) (bs : List Nat) :
    findFrom (fun _ b => p b) k bs = bs.find? p := by
  induction bs generalizing k with
  | nil => rfl
  | cons b bs ih => simp only [findFrom, List.find?_cons, ih]; cases p b <;> rfl

/-! ## Tables of lists -/

/-- The list at head `i` holds the buffers `f i`; no buffer is in two lists. -/
structure Chains (m : Member) (h : Heap Addr) (f : Nat → List Nat) : Prop where
  list : ∀ i, IsList h (.head m i) ((f i).map (Addr.node m))
  disj : ∀ i j b, b ∈ f i → b ∈ f j → i = j

/-- Everything but nodes of one kind keeps its links. -/
def Others (m : Member) (h h' : Heap Addr) : Prop := ∀ a : Addr, a.member ≠ m → h' a = h a

theorem Others.trans {m : Member} {h h' h'' : Heap Addr} (h1 : Others m h h') (h2 : Others m h' h'') :
    Others m h h'' := fun a ha => (h2 a ha).trans (h1 a ha)

theorem Frame.others {m : Member} {h h' : Heap Addr} {ys : List Addr} (f : L2.List.Frame h h' ys)
    (hy : ∀ a ∈ ys, a.member = m) : Others m h h' := fun a ha => f a fun hm => ha (hy a hm)

section
variable {m : Member} {h h' : Heap Addr} {f : Nat → List Nat} {i b : Nat} {l r : List Nat}

theorem mem_cons_map {a : Addr} (ha : a ∈ Addr.head m i :: l.map (Addr.node m)) :
    a.member = m := by
  rcases List.mem_cons.mp ha with rfl | ha
  · rfl
  · obtain ⟨c, -, rfl⟩ := List.mem_map.mp ha
    rfl

theorem Others.isList {m' : Member} (o : Others m h h') (hne : m' ≠ m)
    (hl : IsList h (.head m' i) (l.map (Addr.node m'))) : IsList h' (.head m' i) (l.map (Addr.node m')) :=
  hl.congr fun a ha => o a (by rw [mem_cons_map ha]; exact hne)

theorem Chains.congr (hl : Chains m h f) (he : ∀ a : Addr, a.member = m → h' a = h a) : Chains m h' f :=
  ⟨fun i => (hl.list i).congr fun a ha => he a (mem_cons_map ha), hl.disj⟩

theorem Others.chains {m' : Member} (o : Others m h h') (hne : m' ≠ m) (hl : Chains m' h f) :
    Chains m' h' f := hl.congr fun a ha => o a (ha ▸ hne)

/-- A table of lists is a pool: its lists share no node. -/
theorem chains_iff_pool : Chains m h f ↔ Pool (Addr.head m) h (List.map (Addr.node m) ∘ f) := by
  constructor
  · refine fun hl => ⟨hl.list, fun i j hij => ?_⟩
    intro a ha ha'
    rcases List.mem_cons.mp ha with rfl | ha <;> rcases List.mem_cons.mp ha' with e | ha'
    · simp only [Addr.head.injEq, true_and] at e; exact hij e
    · obtain ⟨c, -, e⟩ := List.mem_map.mp ha'; cases e
    · obtain ⟨c, -, e'⟩ := List.mem_map.mp ha; rw [e] at e'; cases e'
    · obtain ⟨c, hc, rfl⟩ := List.mem_map.mp ha
      obtain ⟨d, hd, e⟩ := List.mem_map.mp ha'
      cases e
      exact hij (hl.disj i j c hc hd)
  · refine fun hp => ⟨hp.list, fun i j b hi hj => ?_⟩
    by_contra hij
    have hmem : ∀ k, b ∈ f k → Addr.node m b ∈ Addr.head m k :: (List.map (Addr.node m) ∘ f) k :=
      fun k hk => List.mem_cons_of_mem _ (List.mem_map_of_mem hk)
    exact hp.apart i j hij (hmem i hi) (hmem j hj)

/-- Replacing one list by another, whose new buffers were in none. -/
theorem Chains.update (hl : Chains m h f) (new : List Nat) {xs : List Nat} (hnew : ∀ c ∈ new, ∀ j, c ∉ f j)
    (hx : xs ⊆ new ++ f i) (hi : IsList h' (.head m i) (xs.map (Addr.node m)))
    (hf : L2.List.Frame h h' (new.map (Addr.node m) ++ .head m i :: (f i).map (Addr.node m))) :
    Chains m h' (Function.update f i xs) := by
  rw [chains_iff_pool, Function.comp_update]
  refine (chains_iff_pool.mp hl).update (new.map (Addr.node m)) (fun n hn j hm => ?_) ?_ hi hf
  · obtain ⟨c, hc, rfl⟩ := List.mem_map.mp hn
    rcases List.mem_cons.mp hm with e | hm
    · cases e
    · obtain ⟨d, hd, e⟩ := List.mem_map.mp hm
      cases e
      exact hnew c hc j hd
  · rw [Function.comp_apply, ← List.map_append]
    exact List.map_subset _ hx

theorem Chains.delete (hl : Chains m h f) (hi : f i = l ++ b :: r) :
    ∃ h', listDelete h (some (.node m b)) = some h' ∧ Chains m h' (Function.update f i (l ++ r)) ∧
      Others m h h' := by
  have hb := hl.list i
  rw [hi, List.map_append, List.map_cons] at hb
  obtain ⟨h', e, hl', -, hf⟩ := listDelete_spec hb
  have hf' : L2.List.Frame h h' (.head m i :: (f i).map (Addr.node m)) := by
    rw [hi, List.map_append, List.map_cons]; exact hf
  refine ⟨h', e, hl.update [] (by simp) (fun c hc => ?_) ?_ hf',
    Frame.others hf' fun a ha => mem_cons_map ha⟩
  · rw [hi]
    simp only [List.mem_append, List.mem_cons] at hc ⊢
    tauto
  · rw [List.map_append]
    exact hl'

theorem Chains.deleteTail (hl : Chains m h f) (hi : f i = l ++ [b]) :
    ∃ h', listDeleteTail h (.head m i) = some h' ∧ Chains m h' (Function.update f i l) ∧ Others m h h' := by
  have hlast : (h (.head m i)).prev = some (.node m b) := by
    have := Links.Circ.last (hl.list i)
    rw [hi] at this
    simpa using this
  obtain ⟨h', e, hl', ho⟩ := hl.delete hi
  rw [List.append_nil] at hl'
  exact ⟨h', by rw [listDeleteTail, hlast]; exact e, hl', ho⟩

theorem Chains.insert (hl : Chains m h f) (hb : ∀ j, b ∉ f j) :
    ∃ h', listAddTail h (.node m b) (.head m i) = some h' ∧
      Chains m h' (Function.update f i (f i ++ [b])) ∧ Others m h h' := by
  have hn : Addr.node m b ∉ Addr.head m i :: (f i).map (Addr.node m) := by
    simpa using hb i
  obtain ⟨h', e, hl', hf⟩ := listAddTail_spec (hl.list i) hn
  refine ⟨h', e, hl.update [b] (by simpa using hb) (fun c hc => ?_) ?_ hf, Frame.others hf fun a ha => ?_⟩
  · simpa [or_comm] using hc
  · rw [List.map_append]
    exact hl'
  · rcases List.mem_cons.mp ha with rfl | ha
    · rfl
    · exact mem_cons_map ha

end

/-! ## The cache of a history -/

abbrev Hist := History UInt32

/-- Pages `0, 1, .., n - 1`, allocated one after the other. -/
def upTo (n : Nat) : Hist := (List.range n).reverse.map fun i => (UInt32.ofNat i, i % BUFFER_NUMBER)

theorem upTo_succ (n : Nat) : upTo (n + 1) = (UInt32.ofNat n, n % BUFFER_NUMBER) :: upTo n := by
  simp [upTo, List.range_succ]

@[simp] theorem length_upTo (n : Nat) : (upTo n).length = n := by simp [upTo]

/-- A page from `n` on is not among them. -/
theorem upTo_ne {n k : Nat} (hn : n ≤ k) (hk : k < 2 ^ 32) {e : UInt32 × Nat} (he : e ∈ upTo n) :
    e.1 ≠ UInt32.ofNat k := by
  simp only [upTo, List.mem_map, List.mem_reverse, List.mem_range] at he
  obtain ⟨i, hi, rfl⟩ := he
  intro h
  have h' := congrArg UInt32.toNat h
  rw [UInt32.toNat_ofNat', UInt32.toNat_ofNat', Nat.mod_eq_of_lt hk, Nat.mod_eq_of_lt (by omega)] at h'
  omega

/-- In the first round, buffer `b` gets page `b`. -/
theorem lastFor_upTo {n b : Nat} (hn : n ≤ BUFFER_NUMBER) (hb : b < n) :
    lastFor (upTo n) b = some (UInt32.ofNat b) := by
  induction n with
  | zero => omega
  | succ n ih =>
    rw [upTo_succ, lastFor_cons, Nat.mod_eq_of_lt (by omega)]
    by_cases h : n = b
    · rw [if_pos h, h]
    · rw [if_neg h, ih (by omega) (by omega)]

/-- Bucket `i` of the resident allocations `l`, oldest first. -/
def bucketOf (l : Hist) (i : Nat) : List Nat :=
  (l.reverse.filter fun e => getHashCode e.1 = i).map Prod.snd

/-- The cache after the allocations `hist`. -/
structure Cached (s : Buf) (hist : Hist) : Prop where
  num : Numbered BUFFER_NUMBER hist
  free : IsList s.heap freeHead
    ((List.range' hist.length (BUFFER_NUMBER - hist.length)).map (Addr.node .free))
  lru : IsList s.heap lruHead (((resident BUFFER_NUMBER hist).map Prod.snd).map (Addr.node .lru))
  hash : Chains .hash s.heap (bucketOf (resident BUFFER_NUMBER hist))
  lpn : ∀ e ∈ resident BUFFER_NUMBER hist, s.lpn e.2 = e.1
  bufId : ∀ b, s.bufId b = UInt32.ofNat b

section
variable {l r : Hist} {e : UInt32 × Nat} {i b : Nat}

theorem mem_bucketOf : b ∈ bucketOf l i ↔ ∃ k, (k, b) ∈ l ∧ getHashCode k = i := by
  simp [bucketOf]

theorem bucketOf_cons : bucketOf (e :: l) =
    Function.update (bucketOf l) (getHashCode e.1) (bucketOf l (getHashCode e.1) ++ [e.2]) := by
  funext j
  by_cases hj : j = getHashCode e.1
  · subst hj
    rw [Function.update_self]
    simp [bucketOf]
  · rw [Function.update_of_ne hj]
    simp [bucketOf, Ne.symm hj]

/-- The oldest resident is the first of its bucket. -/
theorem bucketOf_concat_self :
    bucketOf (r ++ [e]) (getHashCode e.1) = e.2 :: bucketOf r (getHashCode e.1) := by
  simp [bucketOf]

theorem bucketOf_concat : Function.update (bucketOf (r ++ [e])) (getHashCode e.1) (bucketOf r (getHashCode e.1)) =
    bucketOf r := by
  funext j
  by_cases hj : j = getHashCode e.1
  · subst hj
    rw [Function.update_self]
  · rw [Function.update_of_ne hj]
    simp [bucketOf, Ne.symm hj]

theorem length_bucketOf_le : (bucketOf l i).length ≤ l.length := by
  simpa [bucketOf] using List.length_filter_le _ l

end

section
variable {s : Buf} {hist : Hist} {lpn key : UInt32} {b : Nat}

/-- The search finds the oldest resident allocation for the page. -/
theorem searchHashTableEntry_spec (hc : Cached s hist) : searchHashTableEntry s key =
    some (((resident BUFFER_NUMBER hist).reverse.find? fun e => e.1 = key).map Prod.snd) := by
  have hlen : (bucketOf (resident BUFFER_NUMBER hist) (getHashCode key)).length < BUFFER_NUMBER + 1 := by
    have h1 := length_bucketOf_le (l := resident BUFFER_NUMBER hist) (i := getHashCode key)
    have h2 : (resident BUFFER_NUMBER hist).length ≤ BUFFER_NUMBER := by simp [resident]
    omega
  rw [searchHashTableEntry, forEachEntry_list (hc.hash.list _) hlen, findFrom_const, bucketOf,
    List.find?_map, List.find?_filter]
  congr 2
  refine List.find?_congr fun e he => ?_
  have hlpn := hc.lpn e (by simpa using he)
  by_cases hk : e.1 = key
  · simp [hlpn, hk]
  · simp [hlpn, hk]

theorem Cached.slot_lt (hc : Cached s hist) {e : UInt32 × Nat} (he : e ∈ resident BUFFER_NUMBER hist) :
    e.2 < BUFFER_NUMBER := Fifo.slot_lt (by decide) hc.num e (List.mem_of_mem_take he)

theorem Cached.mem_iff (hc : Cached s hist) :
    (key, b) ∈ resident BUFFER_NUMBER hist ↔ lastFor hist b = some key :=
      mem_resident_iff (by decide) hc.num

/-- A lookup misses when the page has no resident allocation, and else finds
a buffer that is resident for it. -/
theorem checkBufHit_spec (hc : Cached s hist) (key : UInt32) :
    (checkBufHit s key = some INVALID_ID ∧ ∀ b, (key, b) ∉ resident BUFFER_NUMBER hist) ∨
      ∃ b, checkBufHit s key = some (UInt32.ofNat b) ∧ (key, b) ∈ resident BUFFER_NUMBER hist := by
  rw [checkBufHit, searchHashTableEntry_spec hc]
  cases hf : (resident BUFFER_NUMBER hist).reverse.find? (fun e => e.1 = key) with
  | none =>
    refine .inl ⟨rfl, fun b hb => ?_⟩
    simpa using List.find?_eq_none.mp hf (key, b) (by simpa using hb)
  | some e =>
    have he : e ∈ resident BUFFER_NUMBER hist := by simpa using List.mem_of_find?_eq_some hf
    have hk : e.1 = key := by simpa using List.find?_some hf
    exact .inr ⟨e.2, by simp [hc.bufId], hk ▸ he⟩

/-- A lookup misses exactly when the page has no resident allocation. -/
theorem checkBufHit_miss_iff (hc : Cached s hist) : checkBufHit s key = some INVALID_ID ↔
    ∀ b, (key, b) ∉ resident BUFFER_NUMBER hist := by
  rcases checkBufHit_spec hc key with ⟨e, hno⟩ | ⟨b, e, hb⟩
  · exact iff_of_true e hno
  · rw [e, Option.some.injEq]
    exact iff_of_false (ofNat_ne_invalid (hc.slot_lt hb)) fun hno => hno b hb

theorem insertHashTableEntry_spec {f : Nat → List Nat} (key : UInt32) (hl : Chains .hash s.heap f)
    (hb : ∀ j, b ∉ f j) :
    ∃ h', insertHashTableEntry s key b = some { s with heap := h' } ∧
      Chains .hash h' (Function.update f (getHashCode key) (f (getHashCode key) ++ [b])) ∧
      Others .hash s.heap h' := by
  obtain ⟨h', e, hl', ho⟩ := hl.insert (i := getHashCode key) hb
  exact ⟨h', by simp [insertHashTableEntry, e], hl', ho⟩

end

/-! ## Allocation -/

section
variable {s : Buf} {hist : Hist} {lpn : UInt32}

section
variable {m : Member} {h : Heap Addr} {i b : Nat} {bs : List Nat}

/-- A node that the kind's list does not hold can be put first. -/
theorem listAddHead_node (hl : IsList h (.head m i) (bs.map (Addr.node m))) (hb : b ∉ bs) :
    ∃ h', listAddHead h (.node m b) (.head m i) = some h' ∧
      IsList h' (.head m i) ((b :: bs).map (Addr.node m)) ∧ Others m h h' := by
  obtain ⟨h', e, hl', hf⟩ := listAddHead_spec hl (n := .node m b) (by simpa using hb)
  refine ⟨h', e, hl', Frame.others hf fun a ha => ?_⟩
  rcases List.mem_cons.mp ha with rfl | ha
  · rfl
  · exact mem_cons_map ha

theorem listDeleteHead_node (hl : IsList h (.head m i) ((b :: bs).map (Addr.node m))) :
    ∃ h', listDeleteHead h (.head m i) = some h' ∧ IsList h' (.head m i) (bs.map (Addr.node m)) ∧
      Others m h h' := by
  obtain ⟨h', e, hl', -, hf⟩ := listDeleteHead_spec hl
  exact ⟨h', e, hl', Frame.others hf fun a ha => mem_cons_map (l := b :: bs) ha⟩

theorem listDeleteTail_node (hl : IsList h (.head m i) ((bs ++ [b]).map (Addr.node m))) :
    ∃ h', listDeleteTail h (.head m i) = some h' ∧ IsList h' (.head m i) (bs.map (Addr.node m)) ∧
      Others m h h' := by
  rw [List.map_append] at hl
  obtain ⟨h', e, hl', -, hf⟩ := listDeleteTail_spec hl
  refine ⟨h', e, hl', Frame.others hf fun a ha => mem_cons_map (l := bs ++ [b]) (i := i) ?_⟩
  rw [List.map_append]
  exact ha

end

/-- A buffer that was never used is taken from the free list. -/
theorem allocateBuf_free (hc : Cached s hist) (hl : hist.length < BUFFER_NUMBER) :
    ∃ s', allocateBuf s lpn = some (UInt32.ofNat hist.length, s') ∧
      Cached s' ((lpn, hist.length) :: hist) := by
  have hrange : List.range' hist.length (BUFFER_NUMBER - hist.length) =
      hist.length :: List.range' (hist.length + 1) (BUFFER_NUMBER - (hist.length + 1)) := by
    rw [show BUFFER_NUMBER - hist.length = BUFFER_NUMBER - (hist.length + 1) + 1 by omega, List.range'_succ]
  have hfree := hc.free
  rw [hrange] at hfree
  have hnew : ∀ k, (k, hist.length) ∉ resident BUFFER_NUMBER hist := fun k hk =>
    absurd (slot_fresh hc.num hl _ (List.mem_of_mem_take hk)) (by simp)
  have hempty : listEmpty s.heap freeHead = false := by
    rw [← Bool.not_eq_true, hfree.empty_iff]; simp
  have hfirst : (s.heap freeHead).next = some (.node .free hist.length) := Links.Circ.first hfree
  obtain ⟨h1, e1, hfree1, o1⟩ := listDeleteHead_node hfree
  obtain ⟨h2, e2, hlru2, o2⟩ := listAddHead_node (b := hist.length)
    (o1.isList (by decide) hc.lru) (by simpa using fun k => hnew k)
  have hhash2 := o2.chains (by decide) (o1.chains (by decide) hc.hash)
  obtain ⟨h3, e3, hhash3, o3⟩ := insertHashTableEntry_spec (s := { s with heap := h2 }) lpn
    (b := hist.length) hhash2 fun j hj => by
      obtain ⟨k, hk, -⟩ := mem_bucketOf.mp hj
      exact hnew k hk
  refine ⟨{ s with heap := h3 }.setLpn hist.length lpn, ?_, ?_⟩
  · simp [allocateBuf, hempty, hfirst, containerOf, e1, e2, e3, Buf.setLpn, hc.bufId]
  · have hres := resident_cons_of_lt (e := (lpn, hist.length)) hl
    refine ⟨⟨(Nat.mod_eq_of_lt hl).symm, hc.num⟩, ?_, ?_, ?_, ?_, hc.bufId⟩
    · exact o3.isList (by decide) (o2.isList (by decide) hfree1)
    · rw [hres]
      exact o3.isList (by decide) hlru2
    · rw [hres, bucketOf_cons]
      exact hhash3
    · rw [hres]
      intro e he
      rcases List.mem_cons.mp he with rfl | he
      · simp [Buf.setLpn]
      · have hne : e.2 ≠ hist.length := fun h => hnew e.1 (h ▸ he)
        simp [Buf.setLpn, hne, hc.lpn e he]

/-- Once every buffer is in use, the oldest allocation is displaced. -/
theorem allocateBuf_evict (hc : Cached s hist) (hl : BUFFER_NUMBER ≤ hist.length) :
    ∃ s', allocateBuf s lpn = some (UInt32.ofNat (hist.length % BUFFER_NUMBER), s') ∧
      Cached s' ((lpn, hist.length % BUFFER_NUMBER) :: hist) := by
  obtain ⟨k, r, hr⟩ := resident_last (by decide) hc.num hl
  generalize hv : hist.length % BUFFER_NUMBER = v at hr ⊢
  have hnd := resident_nodup hc.num
  rw [hr, List.map_append, List.map_cons, List.map_nil] at hnd
  have hvr : v ∉ r.map Prod.snd := fun hm => (List.nodup_append.mp hnd).2.2 v hm v (by simp) rfl
  have hlpn : s.lpn v = k := hc.lpn (k, v) (by rw [hr]; simp)
  have hempty : listEmpty s.heap freeHead = true := by
    rw [hc.free.empty_iff]; simp; omega
  have hlru := hc.lru
  rw [hr, List.map_append] at hlru
  have htail : (s.heap lruHead).prev = some (.node .lru v) := by simpa using Links.Circ.last hlru
  -- the victim is the first of its bucket
  have hfind : searchHashTableEntry s k = some (some v) := by
    rw [searchHashTableEntry_spec hc, hr]; simp
  have hhash := hc.hash
  rw [hr] at hhash
  obtain ⟨h1, e1, hhash1, o1⟩ := hhash.delete (l := []) (bucketOf_concat_self (e := (k, v)))
  rw [List.nil_append, bucketOf_concat] at hhash1
  obtain ⟨h2, e2, hhash2, o2⟩ := insertHashTableEntry_spec (s := { s with heap := h1 }.setLpn v lpn)
    lpn (b := v) hhash1 fun j hj => by
      obtain ⟨k', hk', -⟩ := mem_bucketOf.mp hj
      exact hvr (List.mem_map.mpr ⟨_, hk', rfl⟩)
  have o12 : Others .hash s.heap h2 := o1.trans o2
  obtain ⟨h3, e3, hlru3, o3⟩ := listDeleteTail_node (o12.isList (by decide) hlru)
  obtain ⟨h4, e4, hlru4, o4⟩ := listAddHead_node (b := v) hlru3 hvr
  have o34 := o3.trans o4
  refine ⟨{ s with heap := h4 }.setLpn v lpn, ?_, ?_⟩
  · simp only [allocateBuf, hempty, if_true, htail, Option.bind_eq_bind, Option.bind_some, containerOf,
      deleteHashTableEntry, hlpn, hfind, e1, Option.pure_def, e2]
    simp [Buf.setLpn, e3, e4, hc.bufId]
    funext c
    split <;> rfl
  · have hres := resident_cons_of_le (e := (lpn, v)) (by decide) hl
    rw [hr, List.dropLast_concat] at hres
    refine ⟨⟨hv.symm, hc.num⟩, ?_, ?_, ?_, ?_, hc.bufId⟩
    · have hfree := o34.isList (by decide) (o12.isList (by decide) hc.free)
      rw [show BUFFER_NUMBER - hist.length = 0 by omega] at hfree
      rw [show BUFFER_NUMBER - ((lpn, v) :: hist).length = 0 by simp; omega]
      exact hfree
    · rw [hres]
      exact hlru4
    · rw [hres, bucketOf_cons]
      exact o34.chains (by decide) hhash2
    · rw [hres]
      intro e he
      rcases List.mem_cons.mp he with rfl | he
      · simp [Buf.setLpn]
      · have hne : e.2 ≠ v := fun h => hvr (List.mem_map.mpr ⟨e, he, h⟩)
        simp [Buf.setLpn, hne, hc.lpn e (by rw [hr]; simp [he])]

/-- The buffers are handed out in rotation. -/
theorem allocateBuf_spec (hc : Cached s hist) (lpn : UInt32) :
    ∃ s', allocateBuf s lpn = some (UInt32.ofNat (hist.length % BUFFER_NUMBER), s') ∧
      Cached s' ((lpn, hist.length % BUFFER_NUMBER) :: hist) := by
  by_cases hl : hist.length < BUFFER_NUMBER
  · rw [Nat.mod_eq_of_lt hl]
    exact allocateBuf_free hc hl
  · exact allocateBuf_evict hc (by omega)

end

/-! ## Initialisation -/

theorem isList_bufferZero (m : Member) (i : Nat) : IsList bufferZero.heap (.head m i) [] :=
  Links.Circ.nil rfl rfl

theorem initBuffer_loop (n : Nat) :
    ∃ h, (List.range n).foldlM (fun h i => listAddTail h (.node .free i) freeHead) bufferZero.heap = some h ∧
      IsList h freeHead ((List.range n).map (Addr.node .free)) ∧ Others .free bufferZero.heap h := by
  induction n with
  | zero => exact ⟨_, rfl, isList_bufferZero .free 0, fun _ _ => rfl⟩
  | succ n ih =>
    obtain ⟨h, e, hl, ho⟩ := ih
    obtain ⟨h', e', hl', hf⟩ := listAddTail_spec hl (n := .node .free n) (by simp)
    refine ⟨h', ?_, ?_, ho.trans (Frame.others hf fun a ha => ?_)⟩
    · rw [List.range_succ, List.foldlM_append, e]
      simp [e']
    · rw [List.range_succ, List.map_append]
      exact hl'
    · rcases List.mem_cons.mp ha with rfl | ha
      · rfl
      · exact mem_cons_map ha

/-- After initialisation nothing is cached, and no command has a buffer. -/
theorem initBuffer_spec : ∃ s, initBuffer = some s ∧ Cached s [] ∧
    (∀ a : Addr, a.member = .hcmd → s.heap a = bufferZero.heap a) ∧ (∀ h, s.cnt h = 0) := by
  obtain ⟨h, e, hl, ho⟩ := initBuffer_loop BUFFER_NUMBER
  refine ⟨{ bufferZero with heap := h }, ?_, ?_, fun a ha => ho a (by rw [ha]; decide), fun _ => rfl⟩
  · simp [initBuffer, e]
  · refine ⟨trivial, ?_, ?_, ?_, by simp [resident], fun _ => rfl⟩
    · rw [List.range_eq_range'] at hl
      exact hl
    · exact ho.isList (l := []) (by decide) (isList_bufferZero .lru 0)
    · refine ho.chains (by decide) ⟨fun i => ?_, fun i j b hb => ?_⟩
      · exact isList_bufferZero .hash i
      · simp [resident, bucketOf] at hb

end OpenSSDEmu.L3.Buffer
