import OpenSSDEmu.Core.LTS
import OpenSSDEmu.L3Buffer.Cache

/-!
# Host commands on the shared buffers

The call pattern of `FTL_handle_checkcache`, one call a step, for up to 256
commands in any interleaving: for each page a lookup, an allocation when it
missed, and `L2P_hcmd_add_buffer`; at the end `L2P_hcmd_free_buf`. Two
ghosts: the allocations, and what each command added since its last free.
A call that does not return is no step.

The second half says what each call can do in any state, however the lists
have been mixed up: links of one kind of node lead to nodes of that kind
(`Bounded`), the cache calls leave the command lists alone and the command
calls leave the cache lists alone (`Quiet`).
-/
namespace OpenSSDEmu.L3.Buffer
open L2.List Fifo

inductive Pc
  | idle
  | missed (lpn : UInt32)
  | has (lpn id : UInt32)
  deriving DecidableEq, Repr

structure Users where
  buf : Buf
  pc : Nat → Pc
  /-- ghost: the buffers added since the last free, with their pages -/
  added : Nat → List (UInt32 × UInt32)
  /-- ghost: every allocation, newest first -/
  hist : Hist

inductive Op
  | check (h : Nat) (lpn : UInt32)
  | alloc (h : Nat)
  | add (h : Nat)
  | free (h : Nat)

/-- mirrors src/ftl/ftl_core0.c:41-63 with the calls that stand there in
comments. -/
def Users.step (u : Users) : Op → Option Users
  | .check h lpn =>
    if h < hcmdTableEntries ∧ u.pc h = .idle then do
      let id ← checkBufHit u.buf lpn
      let pc := if id ≠ INVALID_ID then .has lpn id else .missed lpn
      return { u with pc := Function.update u.pc h pc }
    else none
  | .alloc h =>
    match u.pc h with
    | .missed lpn => do
      let (id, buf) ← allocateBuf u.buf lpn
      return { u with buf := buf, pc := Function.update u.pc h (.has lpn id),
                      hist := (lpn, id.toNat) :: u.hist }
    | _ => none
  | .add h =>
    match u.pc h with
    | .has lpn id => do
      let buf ← hcmdAddBuffer u.buf h id lpn
      return { u with buf := buf, pc := Function.update u.pc h .idle,
                      added := Function.update u.added h (u.added h ++ [(id, lpn)]) }
    | _ => none
  | .free h =>
    if h < hcmdTableEntries ∧ u.pc h = .idle then do
      let buf ← hcmdFreeBuf u.buf h
      return { u with buf := buf, added := Function.update u.added h [] }
    else none

def Users.start (s : Buf) : Users := ⟨s, fun _ => .idle, fun _ => [], []⟩

def users : LTS Users Op where
  init u := ∃ s, initBuffer = some s ∧ u = Users.start s
  step u o u' := u.step o = some u'

/-- What a step does, with its guards. -/
theorem Users.step_cases {u u' : Users} {o : Op} (hs : u.step o = some u') :
    (∃ h lpn id, o = .check h lpn ∧ h < hcmdTableEntries ∧ u.pc h = .idle ∧ checkBufHit u.buf lpn = some id ∧
      u' = { u with pc := Function.update u.pc h (if id ≠ INVALID_ID then .has lpn id else .missed lpn) }) ∨
    (∃ h lpn id buf, o = .alloc h ∧ u.pc h = .missed lpn ∧ allocateBuf u.buf lpn = some (id, buf) ∧
      u' = { u with buf := buf, pc := Function.update u.pc h (.has lpn id),
                    hist := (lpn, id.toNat) :: u.hist }) ∨
    (∃ h lpn id buf, o = .add h ∧ u.pc h = .has lpn id ∧ hcmdAddBuffer u.buf h id lpn = some buf ∧
      u' = { u with buf := buf, pc := Function.update u.pc h .idle,
                    added := Function.update u.added h (u.added h ++ [(id, lpn)]) }) ∨
    (∃ h buf, o = .free h ∧ h < hcmdTableEntries ∧ u.pc h = .idle ∧ hcmdFreeBuf u.buf h = some buf ∧
      u' = { u with buf := buf, added := Function.update u.added h [] }) := by
  cases o with
  | check h lpn =>
    simp only [Users.step] at hs
    split at hs
    · rename_i hg
      obtain ⟨id, hid, e⟩ := Option.bind_eq_some_iff.mp hs
      cases e
      exact .inl ⟨h, lpn, id, rfl, hg.1, hg.2, hid, rfl⟩
    · cases hs
  | alloc h =>
    simp only [Users.step] at hs
    split at hs
    · rename_i lpn hpc
      obtain ⟨⟨id, buf⟩, hal, e⟩ := Option.bind_eq_some_iff.mp hs
      cases e
      exact .inr (.inl ⟨h, lpn, id, buf, rfl, hpc, hal, rfl⟩)
    · cases hs
  | add h =>
    simp only [Users.step] at hs
    split at hs
    · rename_i lpn id hpc
      obtain ⟨buf, hadd, e⟩ := Option.bind_eq_some_iff.mp hs
      cases e
      exact .inr (.inr (.inl ⟨h, lpn, id, buf, rfl, hpc, hadd, rfl⟩))
    · cases hs
  | free h =>
    simp only [Users.step] at hs
    split at hs
    · rename_i hg
      obtain ⟨buf, hfr, e⟩ := Option.bind_eq_some_iff.mp hs
      cases e
      exact .inr (.inr (.inr ⟨h, buf, rfl, hg.1, hg.2, hfr, rfl⟩))
    · cases hs

/-! ## The command lists, while no buffer is in two of them -/

section
variable {h h' : Heap Addr} {m : Member} {head : Addr} {f : Nat → List Nat} {i b : Nat} {s : Buf}

/-- The walk that counts its way to an offset. -/
theorem forEachEntry_nth (bs : List Nat) : ∀ (l : List Addr) (k j : Nat),
    IsList h head (l ++ bs.map (Addr.node m)) → bs[j]? = some b →
    forEachEntry h m head (fun passed _ => decide (k + j ≤ passed)) (j + 1) k
      (some ((bs.map (Addr.node m)).headD head)) = some (some b) := by
  induction bs with
  | nil => intro l k j _ hj; simp at hj
  | cons c bs ih =>
    intro l k j hl hj
    have hl' : IsList h head (l ++ .node m c :: bs.map (Addr.node m)) := by simpa using hl
    have hne : Addr.node m c ≠ head := by
      intro heq
      subst heq
      exact Links.Circ.head_notMem hl' (by simp)
    have hnext : (h (.node m c)).next = some ((bs.map (Addr.node m)).headD head) :=
      Links.Circ.next_of_mem hl'
    simp only [forEachEntry, List.map_cons, List.headD_cons, Option.bind_eq_bind, Option.bind_some, hne,
      if_false, containerOf, if_true, Option.pure_def]
    cases j with
    | zero =>
      simp only [List.getElem?_cons_zero, Option.some.injEq] at hj
      simp [hj]
    | succ j =>
      rw [List.getElem?_cons_succ] at hj
      have hpass : decide (k + (j + 1) ≤ k) = false := by simp
      rw [hpass, hnext]
      have := ih (l ++ [.node m c]) (k + 1) j (by simpa using hl) hj
      rw [show k + 1 + j = k + (j + 1) by omega] at this
      simpa using this

theorem hcmdEntryAt_spec (hl : Chains .hcmd s.heap f) {k : Nat} (hk : (f i)[k]? = some b) :
    hcmdEntryAt s i k = some b := by
  have hfirst : (s.heap (.head .hcmd i)).next =
    some (((f i).map (Addr.node .hcmd)).headD (.head .hcmd i)) :=
    Links.Circ.first (hl.list i)
  have := forEachEntry_nth (f i) [] 0 k (hl.list i) hk
  rw [Nat.zero_add] at this
  rw [hcmdEntryAt, hfirst, this]
  rfl

theorem freeLoop_spec (bs : List Nat) : ∀ (fuel : Nat) (h : Heap Addr) (f : Nat → List Nat), Chains m h f →
    f i = bs → bs.length < fuel →
    ∃ h', freeLoop (.head m i) fuel h = some h' ∧ Chains m h' (Function.update f i []) := by
  induction bs using List.reverseRecOn with
  | nil =>
    intro fuel h f hl hi hf
    obtain ⟨n, rfl⟩ : ∃ n, fuel = n + 1 := ⟨fuel - 1, by simp at hf; omega⟩
    have hempty : listEmpty h (.head m i) = true := by rw [(hl.list i).empty_iff, hi]; rfl
    refine ⟨h, by simp [freeLoop, hempty], ?_⟩
    rw [show Function.update f i [] = f by rw [← hi]; exact Function.update_eq_self i f]
    exact hl
  | append_singleton bs b ih =>
    intro fuel h f hl hi hf
    rw [List.length_append, List.length_singleton] at hf
    obtain ⟨n, rfl⟩ : ∃ n, fuel = n + 1 := ⟨fuel - 1, by omega⟩
    have hempty : listEmpty h (.head m i) = false := by
      rw [← Bool.not_eq_true, (hl.list i).empty_iff, hi]; simp
    obtain ⟨h1, e1, hl1, -⟩ := hl.deleteTail hi
    obtain ⟨h2, e2, hl2⟩ := ih n h1 _ hl1 (Function.update_self ..) (by omega)
    refine ⟨h2, by simp [freeLoop, hempty, e1, e2], ?_⟩
    rwa [Function.update_idem] at hl2

theorem hcmdAddBuffer_spec (hl : Chains .hcmd s.heap f) {id : UInt32} (hb : ∀ j, id.toNat ∉ f j) (i : Nat)
    (lpn : UInt32) :
    ∃ s', hcmdAddBuffer s i id lpn = some s' ∧
      Chains .hcmd s'.heap (Function.update f i (f i ++ [id.toNat])) ∧
      s'.cnt = Function.update s.cnt i (s.cnt i + 1) := by
  obtain ⟨h', e, hl', -⟩ := hl.insert (i := i) hb
  refine ⟨{ s.setLpn id.toNat lpn with heap := h' }.setCnt i (s.cnt i + 1), ?_, hl', ?_⟩
  · simp [hcmdAddBuffer, Buf.setLpn, Buf.setCnt, e]
  · funext k
    simp [Buf.setCnt, Buf.setLpn, Function.update_apply]

theorem hcmdFreeBuf_spec (hl : Chains .hcmd s.heap f) (hi : (f i).length ≤ BUFFER_NUMBER) :
    ∃ s', hcmdFreeBuf s i = some s' ∧ Chains .hcmd s'.heap (Function.update f i []) ∧
      s'.cnt = Function.update s.cnt i 0 := by
  obtain ⟨h', e, hl'⟩ := freeLoop_spec (f i) (BUFFER_NUMBER + hcmdTableEntries + 1) s.heap f hl rfl (by omega)
  refine ⟨{ s with heap := h' }.setCnt i 0, by simp [hcmdFreeBuf, e], hl', ?_⟩
  funext k
  simp [Buf.setCnt, Function.update_apply]

end

/-! ## The call in any state -/

/-- A head or node of one kind, in a buffer that exists. -/
def Of (m : Member) (a : Addr) : Prop := a.member = m ∧ ∀ b, a = .node m b → b < BUFFER_NUMBER

theorem of_head (m : Member) (i : Nat) : Of m (.head m i) := ⟨rfl, by simp⟩

theorem of_node {m : Member} {b : Nat} (hb : b < BUFFER_NUMBER) : Of m (.node m b) :=
  ⟨rfl, fun _ e => by cases e; exact hb⟩

/-- Links lead to nodes of the same kind. -/
def Bounded (h : Heap Addr) : Prop := ∀ m, Within (Of m) h

/-- What a call that works on nodes of the kinds `ms` leaves alone. -/
structure Quiet (ms : List Member) (s s' : Buf) : Prop where
  bounded : Bounded s'.heap
  frame : ∀ a : Addr, a.member ∉ ms → s'.heap a = s.heap a
  bufId : s'.bufId = s.bufId

theorem Bounded.of_local {m : Member} {h h' : Heap Addr} (hb : Bounded h) (hl : Local (Of m) h h') :
    Bounded h' := by
  intro m'
  by_cases hm : m' = m
  · exact hm ▸ hl.within
  · intro a ha p hp
    have hne : ¬ Of m a := fun h' => hm (ha.1.symm.trans h'.1)
    rw [hl.frame a hne] at hp
    exact hb m' a ha p hp

theorem Quiet.of_local {ms : List Member} {m : Member} {s s' : Buf} (hm : m ∈ ms) (hb : Bounded s.heap)
    (hl : Local (Of m) s.heap s'.heap) (hid : s'.bufId = s.bufId) : Quiet ms s s' :=
  ⟨hb.of_local hl, fun a ha => hl.frame a fun h => ha (h.1 ▸ hm), hid⟩

theorem Quiet.trans {ms : List Member} {s s' s'' : Buf} (h1 : Quiet ms s s') (h2 : Quiet ms s' s'') :
    Quiet ms s s'' :=
  ⟨h2.bounded, fun a ha => (h2.frame a ha).trans (h1.frame a ha), h2.bufId.trans h1.bufId⟩

section
variable {s s' : Buf} {hist : Hist} {lpn key id : UInt32} {b hcmd : Nat}

theorem containerOf_eq_some {m : Member} {a : Addr} (h : containerOf m a = some b) : a = .node m b := by
  unfold containerOf at h
  split at h
  · rename_i m' c
    split at h
    · rename_i hm; subst hm; cases h; rfl
    · cases h
  · cases h

theorem forEachEntry_lt {h : Heap Addr} {m : Member} {head : Addr} {p : Nat → Nat → Bool}
    (hw : Within (Of m) h) : ∀ (fuel k : Nat) (a : Option Addr), (∀ x, a = some x → Of m x) →
      forEachEntry h m head p fuel k a = some (some b) → b < BUFFER_NUMBER := by
  intro fuel
  induction fuel with
  | zero => intro k a _ h; cases h
  | succ fuel ih =>
    intro k a ha hf
    simp only [forEachEntry, Option.bind_eq_bind, Option.bind_eq_some_iff] at hf
    obtain ⟨x, rfl, hf⟩ := hf
    have hx := ha x rfl
    split at hf
    · cases hf
    · obtain ⟨c, hc, hf⟩ := Option.bind_eq_some_iff.mp hf
      split at hf
      · cases hf
        exact hx.2 b (containerOf_eq_some hc)
      · exact ih (k + 1) _ (fun y hy => hw x hx y (.inl hy)) hf

theorem searchHashTableEntry_lt (hb : Bounded s.heap) (h : searchHashTableEntry s key = some (some b)) :
    b < BUFFER_NUMBER :=
  forEachEntry_lt (hb .hash) _ _ _ (fun x hx => hb .hash _ (of_head _ _) x (.inl hx)) h

theorem checkBufHit_cases (hb : Bounded s.heap) (h : checkBufHit s lpn = some id) :
    id = INVALID_ID ∨ ∃ b < BUFFER_NUMBER, id = s.bufId b := by
  obtain ⟨r, hr, h⟩ := Option.bind_eq_some_iff.mp h
  cases r with
  | none => cases h; exact .inl rfl
  | some b => cases h; exact .inr ⟨b, searchHashTableEntry_lt hb hr, rfl⟩

theorem insertHashTableEntry_quiet (hb : Bounded s.heap) (hlt : b < BUFFER_NUMBER)
    (h : insertHashTableEntry s key b = some s') : Quiet [.free, .lru, .hash] s s' ∧ s'.cnt = s.cnt := by
  obtain ⟨heap, e, h⟩ := Option.bind_eq_some_iff.mp h
  cases h
  exact ⟨.of_local (by decide) hb (listAddTail_local (hb .hash) (of_node hlt) (of_head _ _) e) rfl, rfl⟩

theorem deleteHashTableEntry_quiet (hb : Bounded s.heap) (h : deleteHashTableEntry s key = some s') :
    Quiet [.free, .lru, .hash] s s' ∧ s'.cnt = s.cnt := by
  obtain ⟨r, hr, h⟩ := Option.bind_eq_some_iff.mp h
  cases r with
  | none => cases h; exact ⟨⟨hb, fun _ _ => rfl, rfl⟩, rfl⟩
  | some b =>
    obtain ⟨heap, e, h⟩ := Option.bind_eq_some_iff.mp h
    cases h
    have hn : ∀ x, some (Addr.node .hash b) = some x → Of .hash x := by
      rintro _ ⟨⟩; exact of_node (searchHashTableEntry_lt hb hr)
    exact ⟨.of_local (by decide) hb (listDelete_local (hb .hash) hn e) rfl, rfl⟩

/-- An allocation in any state hands out some buffer and leaves the command
lists alone. -/
theorem allocateBuf_quiet (hb : Bounded s.heap) (h : allocateBuf s lpn = some (id, s')) :
    (∃ b < BUFFER_NUMBER, id = s.bufId b) ∧ Quiet [.free, .lru, .hash] s s' ∧ s'.cnt = s.cnt := by
  unfold allocateBuf at h
  split at h
  · obtain ⟨tail, ht, h⟩ := Option.bind_eq_some_iff.mp h
    obtain ⟨b, hc, h⟩ := Option.bind_eq_some_iff.mp h
    obtain ⟨s1, e1, h⟩ := Option.bind_eq_some_iff.mp h
    obtain ⟨s2, e2, h⟩ := Option.bind_eq_some_iff.mp h
    obtain ⟨h3, e3, h⟩ := Option.bind_eq_some_iff.mp h
    obtain ⟨h4, e4, h⟩ := Option.bind_eq_some_iff.mp h
    cases h
    have hlt : b < BUFFER_NUMBER :=
      (hb .lru _ (of_head .lru 0) tail (.inr ht)).2 b (containerOf_eq_some hc)
    obtain ⟨q1, c1⟩ := deleteHashTableEntry_quiet hb e1
    obtain ⟨q2, c2⟩ := insertHashTableEntry_quiet (s := s1.setLpn b lpn) q1.bounded hlt e2
    have q3 : Quiet [.free, .lru, .hash] s2 { s2 with heap := h3 } :=
      .of_local (by decide) q2.bounded (listDeleteTail_local (q2.bounded .lru) (of_head _ _) e3) rfl
    have q4 : Quiet [.free, .lru, .hash] { s2 with heap := h3 } ({ s2 with heap := h4 }.setLpn b lpn) :=
      .of_local (by decide) q3.bounded
        (listAddHead_local (q3.bounded .lru) (of_node hlt) (of_head _ _) e4) rfl
    have q12 : Quiet [.free, .lru, .hash] s s2 :=
      ⟨q2.bounded, fun a ha => (q2.frame a ha).trans (q1.frame a ha), q2.bufId.trans q1.bufId⟩
    exact ⟨⟨b, hlt, congrFun q12.bufId b⟩, q12.trans (q3.trans q4), c2.trans c1⟩
  · obtain ⟨first, hf, h⟩ := Option.bind_eq_some_iff.mp h
    obtain ⟨b, hc, h⟩ := Option.bind_eq_some_iff.mp h
    obtain ⟨h1, e1, h⟩ := Option.bind_eq_some_iff.mp h
    obtain ⟨h2, e2, h⟩ := Option.bind_eq_some_iff.mp h
    obtain ⟨s3, e3, h⟩ := Option.bind_eq_some_iff.mp h
    cases h
    have hlt : b < BUFFER_NUMBER :=
      (hb .free _ (of_head .free 0) first (.inl hf)).2 b (containerOf_eq_some hc)
    have q1 : Quiet [.free, .lru, .hash] s { s with heap := h1 } :=
      .of_local (by decide) hb (listDeleteHead_local (hb .free) (of_head _ _) e1) rfl
    have q2 : Quiet [.free, .lru, .hash] { s with heap := h1 } { s with heap := h2 } :=
      .of_local (by decide) q1.bounded
        (listAddHead_local (q1.bounded .lru) (of_node hlt) (of_head _ _) e2) rfl
    obtain ⟨q3, c3⟩ := insertHashTableEntry_quiet (s := { s with heap := h2 }) q2.bounded hlt e3
    have q := q1.trans (q2.trans q3)
    exact ⟨⟨b, hlt, congrFun q.bufId b⟩, ⟨q.bounded, q.frame, q.bufId⟩, c3⟩

theorem hcmdAddBuffer_quiet (hb : Bounded s.heap) (hlt : id.toNat < BUFFER_NUMBER)
    (h : hcmdAddBuffer s hcmd id lpn = some s') :
    Quiet [.hcmd] s s' ∧ s'.lpn = (s.setLpn id.toNat lpn).lpn := by
  obtain ⟨heap, e, h⟩ := Option.bind_eq_some_iff.mp h
  cases h
  exact ⟨.of_local (m := .hcmd) (by decide) hb
    (listAddTail_local (hb .hcmd) (of_node hlt) (of_head _ _) e) rfl, rfl⟩

theorem freeLoop_local {S : Addr → Prop} {head : Addr} (hh : S head) : ∀ (fuel : Nat) (h h' : Heap Addr),
    Within S h → freeLoop head fuel h = some h' → Local S h h' := by
  intro fuel
  induction fuel with
  | zero => intro h h' _ e; cases e
  | succ fuel ih =>
    intro h h' hw e
    unfold freeLoop at e
    split at e
    · cases e; exact .refl hw
    · obtain ⟨h1, e1, e⟩ := Option.bind_eq_some_iff.mp e
      have l1 := listDeleteTail_local hw hh e1
      exact l1.trans (ih h1 h' l1.within e)

theorem hcmdFreeBuf_quiet (hb : Bounded s.heap) (h : hcmdFreeBuf s hcmd = some s') :
    Quiet [.hcmd] s s' ∧ s'.lpn = s.lpn := by
  obtain ⟨heap, e, h⟩ := Option.bind_eq_some_iff.mp h
  cases h
  exact ⟨.of_local (m := .hcmd) (by decide) hb (freeLoop_local (of_head _ _) _ _ _ (hb .hcmd) e) rfl, rfl⟩

/-- The cache lists do not depend on the command lists. -/
theorem Quiet.cached (hq : Quiet [.hcmd] s s') (hc : Cached s hist)
    (hl : ∀ e ∈ resident BUFFER_NUMBER hist, s'.lpn e.2 = s.lpn e.2) : Cached s' hist := by
  have hf : ∀ (m : Member) (i : Nat) (bs : List Nat), m ≠ .hcmd →
      IsList s.heap (.head m i) (bs.map (Addr.node m)) →
        IsList s'.heap (.head m i) (bs.map (Addr.node m)) :=
    fun m i bs hm h => h.congr fun a ha => hq.frame a (by rw [mem_cons_map ha]; simpa using hm)
  refine ⟨hc.num, hf _ _ _ (by decide) hc.free, hf _ _ _ (by decide) hc.lru, ?_, fun e he => ?_,
    fun b => ?_⟩
  · exact ⟨fun i => hf _ _ _ (by decide) (hc.hash.list i), hc.hash.disj⟩
  · rw [hl e he]; exact hc.lpn e he
  · rw [hq.bufId]; exact hc.bufId b

/-- Adding a buffer for the page it holds changes nothing in the cache. -/
theorem Cached.add (hb : Bounded s.heap) (hc : Cached s hist)
    (hm : (lpn, id.toNat) ∈ resident BUFFER_NUMBER hist) (e : hcmdAddBuffer s hcmd id lpn = some s') :
    Cached s' hist ∧ Bounded s'.heap := by
  obtain ⟨hq, hl⟩ := hcmdAddBuffer_quiet hb (hc.slot_lt hm) e
  refine ⟨hq.cached hc fun x _ => ?_, hq.bounded⟩
  rw [hl]
  by_cases hx : x.2 = id.toNat
  · simp [Buf.setLpn, hx, hc.lpn _ hm]
  · simp [Buf.setLpn, hx]

end

theorem bounded_bufferZero : Bounded bufferZero.heap := by
  intro m a ha p hp
  cases a with
  | head m' i =>
    simp only [bufferZero, Option.some.injEq, or_self] at hp
    exact hp ▸ ha
  | node m' b => simp [bufferZero] at hp

theorem bounded_foldlM (is : List Nat) : ∀ (h h' : Heap Addr), (∀ i ∈ is, i < BUFFER_NUMBER) → Bounded h →
    is.foldlM (fun h i => listAddTail h (.node .free i) freeHead) h = some h' → Bounded h' := by
  induction is with
  | nil => intro h h' _ hb e; cases e; exact hb
  | cons i is ih =>
    intro h h' hi hb e
    rw [List.foldlM_cons] at e
    obtain ⟨h1, e1, e⟩ := Option.bind_eq_some_iff.mp e
    have hl := listAddTail_local (hb .free) (of_node (hi i (by simp))) (of_head .free 0) e1
    exact ih h1 h' (fun j hj => hi j (by simp [hj])) (hb.of_local hl) e

/-- Links are `Bounded` from the start. -/
theorem initBuffer_bounded {s : Buf} (h : initBuffer = some s) : Bounded s.heap := by
  simp only [initBuffer, Option.bind_eq_bind, Option.bind_eq_some_iff, Option.pure_def,
    Option.some.injEq] at h
  obtain ⟨heap, e, rfl⟩ := h
  exact bounded_foldlM _ _ _ (by simp) bounded_bufferZero e

end OpenSSDEmu.L3.Buffer
