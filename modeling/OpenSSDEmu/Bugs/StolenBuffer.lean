import OpenSSDEmu.Bugs.SharedNode

/-!
# An allocation evicts a buffer that a command still uses

`L2P_allocate_buf` (src/buffer/buffer.c:93-147) evicts the tail of the LRU
list, the buffer allocated longest ago, and never asks whether a command
has it in its list. `L2P_hcmd_free_buf` returns nothing to the free list, so
after `BUFFER_NUMBER` allocations every further one evicts.

Counterexample (`evicts_own_buffer`): one command of 1501 pages. The last
allocation reassigns buffer 0, which the command added for page 0.

Holds when: at every allocation each buffer in use, added by a command or
obtained by one that is about to add it, was handed out by one of the last
`BUFFER_NUMBER - 1` allocations (`Recent`). Then every added buffer keeps
its page until the command frees it (`added_keeps_page`), also where
commands share a buffer and their lists are mixed up.
-/
namespace OpenSSDEmu.Bugs.StolenBuffer
open L2.List L3.Buffer Fifo
open SharedNode (page ids ids_update Settled PageAdded settled_start)

/-- `id` is in the list of a command for `lpn`, or about to be added to it. -/
def InUse (added : Nat → List (UInt32 × UInt32)) (pc : Nat → Pc) (id lpn : UInt32) : Prop :=
  (∃ h, (id, lpn) ∈ added h) ∨ ∃ h, pc h = .has lpn id

/-- At an allocation, the buffers in use are recent. -/
def Recent (u : Users) (o : Op) : Prop :=
  ∀ h, o = .alloc h → ∀ id lpn, InUse u.added u.pc id lpn →
    id.toNat ∈ (u.hist.take (BUFFER_NUMBER - 1)).map Prod.snd

structure Inv (u : Users) : Prop where
  bounded : Bounded u.buf.heap
  cached : Cached u.buf u.hist
  inUse : ∀ id lpn, InUse u.added u.pc id lpn → (lpn, id.toNat) ∈ resident BUFFER_NUMBER u.hist

section
variable {s : Buf} {hist : Hist} {lpn id : UInt32}

theorem hit_resident (hc : Cached s hist) (e : checkBufHit s lpn = some id) (hne : id ≠ INVALID_ID) :
    (lpn, id.toNat) ∈ resident BUFFER_NUMBER hist := by
  rcases checkBufHit_spec hc lpn with ⟨e', -⟩ | ⟨b, e', hb⟩ <;> cases e.symm.trans e'
  · exact absurd rfl hne
  · rwa [toNat_ofNat_lt (hc.slot_lt hb)]

/-- What is recent survives one more allocation. -/
theorem resident_of_recent {e x : UInt32 × Nat} (hn : Numbered BUFFER_NUMBER hist)
    (he : e ∈ resident BUFFER_NUMBER hist) (hr : e.2 ∈ (hist.take (BUFFER_NUMBER - 1)).map Prod.snd) :
    e ∈ resident BUFFER_NUMBER (x :: hist) := by
  obtain ⟨e', he', heq⟩ := List.mem_map.mp hr
  have hres : e' ∈ resident BUFFER_NUMBER hist := (List.take_subset_take_left _ (by decide)) he'
  rw [← List.inj_on_of_nodup_map (resident_nodup hn) hres he heq]
  exact List.mem_cons_of_mem _ he'

end

/-! ## Runs -/

section
variable {added : Nat → List (UInt32 × UInt32)} {pc : Nat → Pc} {h : Nat} {p : Pc} {id lpn : UInt32}

theorem inUse_setPc (hi : InUse added (Function.update pc h p) id lpn) :
    InUse added pc id lpn ∨ p = .has lpn id := by
  rcases hi with hi | ⟨k, hk⟩
  · exact .inl (.inl hi)
  · by_cases hkh : k = h
    · subst hkh; rw [Function.update_self] at hk; exact .inr hk
    · rw [Function.update_of_ne hkh] at hk; exact .inl (.inr ⟨k, hk⟩)

theorem inUse_setAdded {xs : List (UInt32 × UInt32)} (hi : InUse (Function.update added h xs) pc id lpn) :
    InUse added pc id lpn ∨ (id, lpn) ∈ xs := by
  rcases hi with ⟨k, hk⟩ | hi
  · by_cases hkh : k = h
    · subst hkh; rw [Function.update_self] at hk; exact .inr hk
    · rw [Function.update_of_ne hkh] at hk; exact .inl (.inl ⟨k, hk⟩)
  · exact .inl (.inr hi)

end

theorem Inv.step {u u' : Users} {o : Op} (hi : Inv u) (hc : Recent u o) (hs : u.step o = some u') :
    Inv u' := by
  obtain ⟨h, lpn, id, rfl, -, -, hid, rfl⟩ | ⟨h, lpn, id, buf, rfl, hpc, hal, rfl⟩ |
    ⟨h, lpn, id, buf, rfl, hpc, hadd, rfl⟩ | ⟨h, buf, rfl, -, -, hfr, rfl⟩ := Users.step_cases hs
  · refine ⟨hi.bounded, hi.cached, fun i l hu => ?_⟩
    rcases inUse_setPc hu with hu | hp
    · exact hi.inUse i l hu
    · split at hp
      · rename_i hne
        cases hp
        exact hit_resident hi.cached hid hne
      · cases hp
  · obtain ⟨s', e, hc'⟩ := allocateBuf_spec hi.cached lpn
    cases hal.symm.trans e
    refine ⟨(allocateBuf_quiet hi.bounded hal).2.1.bounded, by rw [toNat_slot]; exact hc', fun i l hu => ?_⟩
    rcases inUse_setPc hu with hu | hp
    · exact resident_of_recent hi.cached.num (hi.inUse i l hu) (hc h rfl i l hu)
    · cases hp
      exact List.mem_cons_self
  · have hm := hi.inUse id lpn (.inr ⟨h, hpc⟩)
    obtain ⟨hc', hb'⟩ := hi.cached.add hi.bounded hm hadd
    refine ⟨hb', hc', fun i l hu => ?_⟩
    rcases inUse_setAdded hu with hu | hx
    · rcases inUse_setPc hu with hu | hp
      · exact hi.inUse i l hu
      · cases hp
    · rcases List.mem_append.mp hx with hx | hx
      · exact hi.inUse i l (.inl ⟨h, hx⟩)
      · cases List.mem_singleton.mp hx
        exact hm
  · obtain ⟨hq, hl⟩ := hcmdFreeBuf_quiet hi.bounded hfr
    refine ⟨hq.bounded, hq.cached hi.cached fun e _ => by rw [hl], fun i l hu => ?_⟩
    rcases inUse_setAdded hu with hu | hx
    · exact hi.inUse i l hu
    · cases hx

theorem inv_start {s : Buf} (hs : initBuffer = some s) : Inv (Users.start s) := by
  obtain ⟨s', e, hc, -⟩ := initBuffer_spec
  cases hs.symm.trans e
  refine ⟨initBuffer_bounded hs, hc, fun i l hu => ?_⟩
  rcases hu with ⟨h, hh⟩ | ⟨h, hh⟩ <;> simp [Users.start] at hh

theorem inv_reachable : ∀ u, (users.restrict Recent).Reachable u → Inv u := by
  refine LTS.Inductive.reachable ⟨?_, fun u o u' hi hs => hi.step hs.1 hs.2⟩
  intro u hstart
  obtain ⟨s, hs, rfl⟩ := hstart
  exact inv_start hs

/-- **An added buffer keeps its page** until its command frees it, in every
run in which the buffers in use are recent at every allocation. -/
theorem added_keeps_page {u : Users} (hr : (users.restrict Recent).Reachable u) {h : Nat} {id lpn : UInt32}
    (ha : (id, lpn) ∈ u.added h) : u.buf.lpn id.toNat = lpn := by
  have hi := inv_reachable u hr
  exact hi.cached.lpn _ (hi.inUse id lpn (.inl ⟨h, ha⟩))

/-! ## Runs page by page -/

/-- The added buffers are among the last `k` handed out. -/
def AddedWithin (u : Users) (k : Nat) : Prop := ∀ j, ids u.added j ⊆ (u.hist.take k).map Prod.snd

/-- Pages `0, 1, .., n - 1` were taken in turn, the added ones are among the
last `k`. -/
structure Paged (u : Users) (n k : Nat) : Prop where
  reach : (users.restrict Recent).Reachable u
  settled : Settled u
  hist : u.hist = upTo n
  within : AddedWithin u k

/-- Any command takes the next page. -/
theorem Paged.page {u : Users} {n k : Nat} (hu : Paged u n k) (hk : k < BUFFER_NUMBER) (hn : n < 2 ^ 32)
    {h : Nat} (hh : h < hcmdTableEntries) :
    ∃ u', LTS.exec Users.step u (page h (UInt32.ofNat n)) = some u' ∧ Paged u' (n + 1) (k + 1) ∧
      u'.added = Function.update u.added h
        (u.added h ++ [(UInt32.ofNat (n % BUFFER_NUMBER), UInt32.ofNat n)]) := by
  have hrec : ∀ j, ids u.added j ⊆ (u.hist.take (BUFFER_NUMBER - 1)).map Prod.snd := fun j b hb =>
    List.map_subset _ (List.take_subset_take_left _ (by omega)) (hu.within j hb)
  obtain ⟨u₁, u₂, u', e₁, e₂, e₃, rfl, -, -, hp⟩ := hu.settled.page (UInt32.ofNat n) hh
    (fun e he => upTo_ne le_rfl hn (hu.hist ▸ he)) fun j hj =>
      slot_notMem_recent hu.settled.cached.num (hrec j hj)
  have hlen : u.hist.length = n := by rw [hu.hist, length_upTo]
  have hadd := hp.added
  have hhist := hp.hist
  rw [hlen] at hadd hhist
  have h1 := hu.reach.next ⟨fun _ ho => by simp at ho, e₁⟩
  have h2 := h1.next ⟨fun _ _ id l hin => ?_, e₂⟩
  have h3 := h2.next ⟨fun _ ho => by simp at ho, e₃⟩
  · refine ⟨u', by simp only [SharedNode.page, LTS.exec, e₁, e₂, e₃, Option.bind_some],
      ⟨h3, hp.settled, by rw [hhist, hu.hist, upTo_succ], fun j => ?_⟩, hadd⟩
    rw [hadd, hhist, ids_update, List.take_succ_cons]
    by_cases hj : j = h
    · subst hj
      rw [Function.update_self, List.map_append, List.map_cons, List.map_nil, toNat_slot]
      exact List.append_subset.mpr ⟨List.subset_cons_of_subset _ (hu.within j), by simp⟩
    · rw [Function.update_of_ne hj]
      exact List.subset_cons_of_subset _ (hu.within j)
  · rcases inUse_setPc hin with (⟨j, hj⟩ | ⟨j, hj⟩) | hpc
    · exact hrec j (List.mem_map_of_mem hj)
    · simp [hu.settled.idle] at hj
    · cases hpc

/-- Command 1 works through `n` pages. -/
def pages (n : Nat) : List Op := (List.range n).flatMap fun i => page 1 (UInt32.ofNat i)

theorem pages_succ (n : Nat) : pages (n + 1) = pages n ++ page 1 (UInt32.ofNat n) := by
  simp [pages, List.range_succ]

/-- Command 1 has all the pages. -/
structure Filled (u : Users) (n : Nat) : Prop extends Paged u n n where
  others : ∀ j, j ≠ 1 → u.added j = []
  first : 0 < n → (0, 0) ∈ u.added 1

/-- While there are buffers that were never used, the next page gets one. -/
theorem Filled.page {u : Users} {n : Nat} (hf : Filled u n) (hn : n < BUFFER_NUMBER) :
    ∃ u', LTS.exec Users.step u (page 1 (UInt32.ofNat n)) = some u' ∧ Filled u' (n + 1) := by
  obtain ⟨u', he, hu, hadd⟩ := hf.toPaged.page hn (by simp only [BUFFER_NUMBER] at hn; omega) (h := 1) (by decide)
  refine ⟨u', he, hu, fun j hj => ?_, fun _ => ?_⟩
  · rw [hadd, Function.update_of_ne hj, hf.others j hj]
  · rw [hadd, Function.update_self, List.mem_append, List.mem_singleton, Nat.mod_eq_of_lt hn]
    by_cases h0 : n = 0
    · subst h0; exact .inr rfl
    · exact .inl (hf.first (by omega))

theorem fill {s : Buf} (hs : initBuffer = some s) (n : Nat) (hn : n ≤ BUFFER_NUMBER) :
    ∃ u, LTS.exec Users.step (Users.start s) (pages n) = some u ∧ Filled u n := by
  induction n with
  | zero =>
    have hu : Paged (Users.start s) 0 0 := ⟨.start ⟨s, hs, rfl⟩, settled_start hs, rfl, fun _ => List.nil_subset _⟩
    exact ⟨_, rfl, hu, fun _ _ => rfl, by simp⟩
  | succ n ih =>
    obtain ⟨u, hu, hf⟩ := ih (by omega)
    obtain ⟨u', hu', hf'⟩ := hf.page hn
    refine ⟨u', ?_, hf'⟩
    rw [pages_succ, LTS.exec_append, hu]
    exact hu'

/-- Command 1 frees its pages. -/
theorem Filled.free {u : Users} {n : Nat} (hf : Filled u n) :
    ∃ u', Paged u' n 0 ∧ u'.added = fun _ => [] := by
  have hl := hf.settled.listed
  obtain ⟨s, e, -⟩ := hcmdFreeBuf_spec hl.lists (hl.length_le 1)
  obtain ⟨hq, hlpn⟩ := hcmdFreeBuf_quiet hl.bounded e
  have hempty : Function.update u.added 1 [] = fun _ => [] := by
    funext j
    by_cases hj : j = 1
    · rw [hj, Function.update_self]
    · rw [Function.update_of_ne hj, hf.others j hj]
  have hlist := hl.free e
  have hstep : (users.restrict Recent).step u (.free 1)
      { u with buf := s, added := Function.update u.added 1 [] } :=
    ⟨fun _ ho => by simp at ho, by simp [users, Users.step, hf.settled.idle, e, hcmdTableEntries]⟩
  have hr := hf.reach.next hstep
  rw [hempty] at hr hlist
  exact ⟨_, ⟨hr, ⟨hf.settled.idle, hq.cached hf.settled.cached fun e _ => by rw [hlpn], hlist,
    fun _ => List.nil_subset _⟩, hf.hist, fun _ => List.nil_subset _⟩, rfl⟩

/-- Command 1 takes 1499 pages and frees them. Then command 2 takes two, the
second one in the buffer that page 0 had, and command 1 two more. -/
theorem exists_evicting : ∃ u, (users.restrict Recent).Reachable u ∧ u.hist.length = 1503 ∧
    u.added 1 = [(1, 1501), (2, 1502)] ∧ u.added 2 = [(1499, 1499), (0, 1500)] := by
  obtain ⟨s, hs, -⟩ := initBuffer_spec
  obtain ⟨u, -, hf⟩ := fill hs 1499 (by decide)
  obtain ⟨u₀, hu₀, ha₀⟩ := hf.free
  obtain ⟨u₁, -, hu₁, ha₁⟩ := hu₀.page (by decide) (by decide) (h := 2) (by decide)
  obtain ⟨u₂, -, hu₂, ha₂⟩ := hu₁.page (by decide) (by decide) (h := 2) (by decide)
  obtain ⟨u₃, -, hu₃, ha₃⟩ := hu₂.page (by decide) (by decide) (h := 1) (by decide)
  obtain ⟨u₄, -, hu₄, ha₄⟩ := hu₃.page (by decide) (by decide) (h := 1) (by decide)
  refine ⟨u₄, hu₄.reach, by rw [hu₄.hist, length_upTo], ?_, ?_⟩
  · rw [ha₄, ha₃, ha₂, ha₁, ha₀]; rfl
  · rw [ha₄, ha₃, ha₂, ha₁, ha₀]; rfl

/-- Each buffer still has the page it was added for, also the three that were
handed out a second time. -/
theorem added_keeps_page_evicts : ∃ u, (users.restrict Recent).Reachable u ∧ u.hist.length = 1503 ∧
    u.added 1 = [(1, 1501), (2, 1502)] ∧ u.added 2 = [(1499, 1499), (0, 1500)] ∧
    u.buf.lpn 1 = 1501 ∧ u.buf.lpn 2 = 1502 ∧ u.buf.lpn 1499 = 1499 ∧ u.buf.lpn 0 = 1500 := by
  obtain ⟨u, hr, hl, h1, h2⟩ := exists_evicting
  have hkeep : ∀ h, ∀ e ∈ u.added h, u.buf.lpn e.1.toNat = e.2 := fun _ _ he => added_keeps_page hr he
  have h₁ := hkeep 1
  have h₂ := hkeep 2
  rw [h1] at h₁
  rw [h2] at h₂
  exact ⟨u, hr, hl, h1, h2, h₁ (1, 1501) (by decide), h₁ (2, 1502) (by decide), h₂ (1499, 1499) (by decide),
    h₂ (0, 1500) (by decide)⟩

/-! ## Counterexample -/

/-- **Counterexample**: the 1501st page takes buffer 0 away from page 0 of
the same command. -/
theorem evicts_own_buffer : ∃ s u, initBuffer = some s ∧
    LTS.exec Users.step (Users.start s) (pages 1500 ++ [.check 1 1500, .alloc 1]) = some u ∧
    (0, 0) ∈ u.added 1 ∧ u.buf.lpn 0 = 1500 := by
  obtain ⟨s, hs, -⟩ := initBuffer_spec
  obtain ⟨u, hu, hf⟩ := fill hs 1500 (by decide)
  have hcached := hf.settled.cached
  obtain ⟨s₁, e₁, hc⟩ := allocateBuf_spec hcached 1500
  have hm : checkBufHit u.buf 1500 = some INVALID_ID :=
    (checkBufHit_miss_iff hcached).mpr fun b hb =>
      upTo_ne (n := 1500) (k := 1500) le_rfl (by decide) (hf.hist ▸ List.mem_of_mem_take hb) rfl
  rw [hf.hist, length_upTo, show 1500 % BUFFER_NUMBER = 0 from rfl] at e₁ hc
  refine ⟨s, ⟨s₁, Function.update u.pc 1 (.has 1500 0), u.added, (1500, 0) :: u.hist⟩, hs, ?_,
    hf.first (by decide), ?_⟩
  · rw [LTS.exec_append, hu]
    simp [LTS.exec, Users.step, hf.settled.idle, hm, e₁, hcmdTableEntries]
  · exact hc.lpn (1500, 0) List.mem_cons_self

end OpenSSDEmu.Bugs.StolenBuffer
