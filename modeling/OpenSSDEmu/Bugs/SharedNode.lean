import OpenSSDEmu.L3Buffer.Commands

/-!
# Two commands that hit the same page share one list node

`L2P_hcmd_add_buffer` (src/buffer/buffer.c:265-281) links the buffer into
the command's list through `hcmd_buf_list_node`, of which each buffer has
one. On a cache hit the buffer may still be in the list of another command;
`list_add_tail` then overwrites the node's links, and the first command's
list runs on into the second's.

Counterexample (`hit_diverts_list`): command 1 adds pages 10 and 20, command
2 adds page 10, a hit, and page 30. The second buffer of command 1 is then
read as the one of page 30.

Holds when: every `L2P_hcmd_add_buffer` gets a buffer that no command has in
its list at that moment (`Unshared`). Then, whatever the cache does, every
command's list is what the command added (`command_lists`).
-/
namespace OpenSSDEmu.Bugs.SharedNode
open L2.List L3.Buffer

/-- A buffer is only added while it is in the list of no command. -/
def Unshared (u : Users) (o : Op) : Prop :=
  ∀ h lpn id, o = .add h → u.pc h = .has lpn id → ∀ h' lpn', (id, lpn') ∉ u.added h'

abbrev Added := Nat → List (UInt32 × UInt32)

/-- The buffers in the list of `h`. -/
def ids (added : Added) (h : Nat) : List Nat := (added h).map fun e => e.1.toNat

/-- The command lists hold what was added. -/
structure Listed (s : Buf) (added : Added) : Prop where
  bounded : Bounded s.heap
  bufId : ∀ b, s.bufId b = UInt32.ofNat b
  lists : Chains .hcmd s.heap (ids added)
  lt : ∀ h, ∀ b ∈ ids added h, b < BUFFER_NUMBER
  cnt : ∀ h, s.cnt h = UInt32.ofNat (ids added h).length

structure Inv (u : Users) : Prop where
  listed : Listed u.buf u.added
  held : ∀ h lpn id, u.pc h = .has lpn id → id.toNat < BUFFER_NUMBER

theorem ids_update (added : Added) (h : Nat) (xs : List (UInt32 × UInt32)) :
    ids (Function.update added h xs) = Function.update (ids added) h (xs.map fun e => e.1.toNat) := by
  funext k
  by_cases hk : k = h
  · subst hk; simp [ids]
  · simp [ids, hk]

section
variable {s s' : Buf} {added : Added} {lpn id : UInt32} {h : Nat}

theorem Listed.length_le (hi : Listed s added) (h : Nat) : (ids added h).length ≤ BUFFER_NUMBER := by
  have hnd : (ids added h).Nodup := (Links.Circ.nodup_tail (hi.lists.list h)).of_map _
  have hsub : ids added h ⊆ List.range BUFFER_NUMBER := fun b hb => List.mem_range.mpr (hi.lt h b hb)
  simpa using (List.subperm_of_subset hnd hsub).length_le

theorem Listed.toNat_lt (hi : Listed s added) (hid : ∃ b < BUFFER_NUMBER, id = s.bufId b) :
    id.toNat < BUFFER_NUMBER := by
  obtain ⟨b, hb, rfl⟩ := hid
  rw [hi.bufId b, toNat_ofNat_lt hb]
  exact hb

theorem Listed.alloc (hi : Listed s added) (e : allocateBuf s lpn = some (id, s')) : Listed s' added := by
  obtain ⟨-, hq, hcnt⟩ := allocateBuf_quiet hi.bounded e
  refine ⟨hq.bounded, fun b => ?_, ?_, hi.lt, fun k => ?_⟩
  · rw [hq.bufId]; exact hi.bufId b
  · exact hi.lists.congr fun a ha => hq.frame a (by rw [ha]; decide)
  · rw [hcnt]; exact hi.cnt k

theorem Listed.add (hi : Listed s added) (hlt : id.toNat < BUFFER_NUMBER)
    (hnew : ∀ j, id.toNat ∉ ids added j)
    (e : hcmdAddBuffer s h id lpn = some s') :
    Listed s' (Function.update added h (added h ++ [(id, lpn)])) := by
  obtain ⟨t, e', hl, hcnt⟩ := hcmdAddBuffer_spec hi.lists hnew h lpn
  cases e.symm.trans e'
  obtain ⟨hq, -⟩ := hcmdAddBuffer_quiet hi.bounded hlt e
  have hids : ids (Function.update added h (added h ++ [(id, lpn)])) =
      Function.update (ids added) h (ids added h ++ [id.toNat]) := by
    rw [ids_update, List.map_append]; rfl
  refine ⟨hq.bounded, fun b => by rw [hq.bufId]; exact hi.bufId b, hids ▸ hl, ?_, fun k => ?_⟩
  · rw [hids]
    refine (Function.forall_update_iff _ fun _ l => ∀ b ∈ l, b < BUFFER_NUMBER).mpr ⟨fun b hb => ?_,
      fun k _ => hi.lt k⟩
    rw [List.mem_append, List.mem_singleton] at hb
    exact hb.elim (hi.lt h b) fun hb => hb ▸ hlt
  · rw [hids, hcnt]
    by_cases hk : k = h
    · subst hk
      rw [Function.update_self, Function.update_self, hi.cnt k, List.length_append, UInt32.ofNat_add]
      rfl
    · rw [Function.update_of_ne hk, Function.update_of_ne hk]
      exact hi.cnt k

theorem Listed.free (hi : Listed s added) (e : hcmdFreeBuf s h = some s') :
    Listed s' (Function.update added h []) := by
  obtain ⟨t, e', hl, hcnt⟩ := hcmdFreeBuf_spec hi.lists (hi.length_le h)
  cases e.symm.trans e'
  obtain ⟨hq, -⟩ := hcmdFreeBuf_quiet hi.bounded e
  have hids : ids (Function.update added h []) = Function.update (ids added) h [] := ids_update ..
  refine ⟨hq.bounded, fun b => by rw [hq.bufId]; exact hi.bufId b, hids ▸ hl, ?_, fun k => ?_⟩
  · rw [hids]
    exact (Function.forall_update_iff _ fun _ l => ∀ b ∈ l, b < BUFFER_NUMBER).mpr ⟨by simp,
      fun k _ => hi.lt k⟩
  · rw [hids, hcnt]
    by_cases hk : k = h
    · subst hk; simp
    · rw [Function.update_of_ne hk, Function.update_of_ne hk]
      exact hi.cnt k

end

/-! ## Runs -/

/-- The buffers stay held when one command's state changes. -/
theorem held_update {pc : Nat → Pc} {h : Nat} {p : Pc}
    (hpc : ∀ h lpn id, pc h = .has lpn id → id.toNat < BUFFER_NUMBER)
    (hp : ∀ lpn id, p = .has lpn id → id.toNat < BUFFER_NUMBER) :
    ∀ k lpn id, Function.update pc h p k = .has lpn id → id.toNat < BUFFER_NUMBER := by
  exact (Function.forall_update_iff pc fun _ q => ∀ lpn id, q = .has lpn id → id.toNat < BUFFER_NUMBER).mpr
    ⟨hp, fun k _ => hpc k⟩

theorem Inv.step {u u' : Users} {o : Op} (hi : Inv u) (hc : Unshared u o)
    (hs : u.step o = some u') : Inv u' := by
  obtain ⟨h, lpn, id, rfl, -, -, hid, rfl⟩ | ⟨h, lpn, id, buf, rfl, -, hal, rfl⟩ |
    ⟨h, lpn, id, buf, rfl, hpc, hadd, rfl⟩ | ⟨h, buf, rfl, -, -, hfr, rfl⟩ := Users.step_cases hs
  · refine ⟨hi.listed, held_update hi.held fun l i he => ?_⟩
    split at he
    · rename_i hne
      cases he
      exact hi.listed.toNat_lt ((checkBufHit_cases hi.listed.bounded hid).resolve_left hne)
    · cases he
  · refine ⟨hi.listed.alloc hal, held_update hi.held fun l i he => ?_⟩
    cases he
    exact hi.listed.toNat_lt (allocateBuf_quiet hi.listed.bounded hal).1
  · have hnew : ∀ j, id.toNat ∉ ids u.added j := fun j hj => by
      obtain ⟨e, he, heq⟩ := List.mem_map.mp hj
      have : e = (id, e.2) := Prod.ext (UInt32.toNat_inj.mp heq) rfl
      exact hc h lpn id rfl hpc j e.2 (this ▸ he)
    exact ⟨hi.listed.add (hi.held h lpn id hpc) hnew hadd, held_update hi.held (by simp)⟩
  · exact ⟨hi.listed.free hfr, hi.held⟩

theorem listed_start {s : Buf} (hs : initBuffer = some s) : Listed s fun _ => [] := by
  obtain ⟨s', e, hc, hz, hcnt⟩ := initBuffer_spec
  cases hs.symm.trans e
  refine ⟨initBuffer_bounded hs, hc.bufId, ?_, by simp [ids], hcnt⟩
  exact Chains.congr (h := bufferZero.heap) ⟨isList_bufferZero .hcmd, by simp [ids]⟩ hz

theorem inv_reachable : ∀ u, (users.restrict Unshared).Reachable u → Inv u := by
  refine LTS.Inductive.reachable ⟨?_, fun u o u' hi hs => hi.step hs.1 hs.2⟩
  intro u hstart
  obtain ⟨s, hs, rfl⟩ := hstart
  exact ⟨listed_start hs, by simp [Users.start]⟩

/-- **The list of every command is what it added**, in every run that adds a
buffer only while no command has it. -/
theorem command_lists {u : Users} (hr : (users.restrict Unshared).Reachable u) (h : Nat) :
    (getHcmdBuffCnt u.buf h).toNat = (u.added h).length ∧
      ∀ k e, (u.added h)[k]? = some e → hcmdGetBuffer u.buf h k = some e.1 := by
  have hi := (inv_reachable u hr).listed
  have hlen : (ids u.added h).length = (u.added h).length := by simp [ids]
  constructor
  · have hle := hi.length_le h
    rw [getHcmdBuffCnt, hi.cnt, ← hlen, UInt32.toNat_ofNat']
    exact Nat.mod_eq_of_lt (by simp only [BUFFER_NUMBER] at hle; omega)
  · intro k e he
    have hk : (ids u.added h)[k]? = some e.1.toNat := by simp [ids, he]
    rw [hcmdGetBuffer, hcmdEntryAt_spec hi.lists hk, Option.map_some, hi.bufId, UInt32.ofNat_toNat]

/-! ## A page that misses -/

def page (h : Nat) (lpn : UInt32) : List Op := [.check h lpn, .alloc h, .add h]

/-- Between two pages: no command waits for one. -/
structure Settled (u : Users) : Prop where
  idle : u.pc = fun _ => .idle
  cached : Cached u.buf u.hist
  listed : Listed u.buf u.added
  known : ∀ j, ids u.added j ⊆ u.hist.map Prod.snd

theorem settled_start {s : Buf} (hs : initBuffer = some s) : Settled (Users.start s) := by
  obtain ⟨s', e, hc, -⟩ := initBuffer_spec
  cases hs.symm.trans e
  exact ⟨rfl, hc, listed_start hs, fun _ => List.nil_subset _⟩

/-- A buffer that was never used is in no list. -/
theorem Settled.fresh {u : Users} (hs : Settled u) (hl : u.hist.length < BUFFER_NUMBER) (j : Nat) :
    u.hist.length % BUFFER_NUMBER ∉ ids u.added j := fun hm => by
  obtain ⟨e, he, heq⟩ := List.mem_map.mp (hs.known j hm)
  have := Fifo.slot_fresh hs.cached.num hl e he
  rw [Nat.mod_eq_of_lt hl] at heq
  omega

/-- What a page that misses leaves behind. -/
structure PageAdded (u u' : Users) (h : Nat) (lpn : UInt32) : Prop where
  settled : Settled u'
  hist : u'.hist = (lpn, u.hist.length % BUFFER_NUMBER) :: u.hist
  added : u'.added = Function.update u.added h
    (u.added h ++ [(UInt32.ofNat (u.hist.length % BUFFER_NUMBER), lpn)])

/-- The three steps of a page that misses, when the buffer handed out is in
no list. -/
theorem Settled.page {u : Users} (hs : Settled u) {h : Nat} (lpn : UInt32) (hh : h < hcmdTableEntries)
    (hm : ∀ e ∈ u.hist, e.1 ≠ lpn) (hn : ∀ j, u.hist.length % BUFFER_NUMBER ∉ ids u.added j) :
    ∃ u₁ u₂ u', u.step (.check h lpn) = some u₁ ∧ u₁.step (.alloc h) = some u₂ ∧ u₂.step (.add h) = some u' ∧
      u₁ = { u with pc := Function.update u.pc h (.missed lpn) } ∧ u₂.added = u.added ∧
      u₂.pc h = .has lpn (UInt32.ofNat (u.hist.length % BUFFER_NUMBER)) ∧ PageAdded u u' h lpn := by
  have hlt : u.hist.length % BUFFER_NUMBER < BUFFER_NUMBER := Nat.mod_lt _ (by decide)
  have hid := toNat_slot u.hist.length
  have hmiss : checkBufHit u.buf lpn = some INVALID_ID :=
    (checkBufHit_miss_iff hs.cached).mpr fun b hb => hm _ (List.mem_of_mem_take hb) rfl
  obtain ⟨s₁, e₁, hc₁⟩ := allocateBuf_spec hs.cached lpn
  have hl₁ : Listed s₁ u.added := hs.listed.alloc e₁
  generalize hslot : u.hist.length % BUFFER_NUMBER = slot at *
  obtain ⟨s₂, e₂, -⟩ := hcmdAddBuffer_spec hl₁.lists (hid.symm ▸ hn : ∀ j, (UInt32.ofNat slot).toNat ∉ _) h lpn
  have hmem : (lpn, (UInt32.ofNat slot).toNat) ∈ Fifo.resident BUFFER_NUMBER ((lpn, slot) :: u.hist) := by
    rw [hid]; exact List.mem_cons_self
  refine ⟨{ u with pc := Function.update u.pc h (.missed lpn) },
    ⟨s₁, Function.update u.pc h (.has lpn (UInt32.ofNat slot)), u.added, (lpn, slot) :: u.hist⟩,
    ⟨s₂, u.pc, Function.update u.added h (u.added h ++ [(UInt32.ofNat slot, lpn)]), (lpn, slot) :: u.hist⟩,
    ?_, ?_, ?_, rfl, rfl, Function.update_self .., ⟨⟨hs.idle, ?_, ?_, ?_⟩, hslot ▸ rfl, hslot ▸ rfl⟩⟩
  · simp [Users.step, hh, hs.idle, hmiss]
  · simp only [Users.step, Function.update_self, e₁, Option.bind_eq_bind, Option.bind_some, Option.pure_def,
      Function.update_idem, hid]
  · have hself : Function.update u.pc h .idle = u.pc := by rw [hs.idle]; exact Function.update_eq_self h _
    simp only [Users.step, Function.update_self, e₂, Option.bind_eq_bind, Option.bind_some, Option.pure_def,
      Function.update_idem, hself]
  · exact (hc₁.add hl₁.bounded hmem e₂).1
  · exact hl₁.add (hid.symm ▸ hlt) (hid.symm ▸ hn) e₂
  · rw [ids_update]
    refine (Function.forall_update_iff _ fun _ l => l ⊆ ((lpn, slot) :: u.hist).map Prod.snd).mpr
      ⟨?_, fun j _ => List.subset_cons_of_subset _ (hs.known j)⟩
    rw [List.map_append, List.map_cons, List.map_nil, hid]
    exact List.append_subset.mpr ⟨List.subset_cons_of_subset _ (hs.known h), by simp⟩

theorem Settled.page_unshared {u : Users} (hs : Settled u) (hr : (users.restrict Unshared).Reachable u)
    (h : Nat) (lpn : UInt32) (hh : h < hcmdTableEntries) (hl : u.hist.length < BUFFER_NUMBER)
    (hm : ∀ e ∈ u.hist, e.1 ≠ lpn) :
    ∃ u', (users.restrict Unshared).Reachable u' ∧ PageAdded u u' h lpn := by
  obtain ⟨u₁, u₂, u', e₁, e₂, e₃, -, hadd, hpc, hp⟩ := hs.page lpn hh hm (hs.fresh hl)
  have h1 := hr.next ⟨fun _ _ _ ho => by simp at ho, e₁⟩
  have h2 := h1.next ⟨fun _ _ _ ho => by simp at ho, e₂⟩
  have h3 : (users.restrict Unshared).Reachable u' := h2.next ⟨fun k l id ho hk j l' hmem => by
    cases ho
    cases hpc.symm.trans hk
    exact hs.fresh hl j (List.mem_map.mpr ⟨_, hadd ▸ hmem, toNat_slot _⟩), e₃⟩
  exact ⟨u', h3, hp⟩

/-- Commands 1 and 2 take two pages each, in turn. -/
theorem exists_two : ∃ u, (users.restrict Unshared).Reachable u ∧
    u.added 1 = [(0, 10), (2, 30)] ∧ u.added 2 = [(1, 20), (3, 40)] := by
  obtain ⟨s, e, -⟩ := initBuffer_spec
  have hr : (users.restrict Unshared).Reachable (Users.start s) := .start ⟨s, e, rfl⟩
  obtain ⟨u₁, hr₁, hs₁, hh₁, ha₁⟩ := (settled_start e).page_unshared hr 1 10 (by decide)
    (by simp [Users.start, BUFFER_NUMBER]) (by simp [Users.start])
  rw [show (Users.start s).hist = [] from rfl] at hh₁ ha₁
  obtain ⟨u₂, hr₂, hs₂, hh₂, ha₂⟩ := hs₁.page_unshared hr₁ 2 20 (by decide) (hh₁ ▸ by decide) (hh₁ ▸ by decide)
  rw [hh₁] at hh₂ ha₂
  obtain ⟨u₃, hr₃, hs₃, hh₃, ha₃⟩ := hs₂.page_unshared hr₂ 1 30 (by decide) (hh₂ ▸ by decide) (hh₂ ▸ by decide)
  rw [hh₂] at hh₃ ha₃
  obtain ⟨u₄, hr₄, -, -, ha₄⟩ := hs₃.page_unshared hr₃ 2 40 (by decide) (hh₃ ▸ by decide) (hh₃ ▸ by decide)
  rw [hh₃] at ha₄
  rw [ha₃, ha₂, ha₁] at ha₄
  refine ⟨u₄, hr₄, ?_, ?_⟩
  · rw [ha₄]; rfl
  · rw [ha₄]; rfl

/-- Each list is then that command's two buffers. -/
theorem command_lists_two : ∃ u, (users.restrict Unshared).Reachable u ∧
    u.added 1 = [(0, 10), (2, 30)] ∧ u.added 2 = [(1, 20), (3, 40)] ∧
    (getHcmdBuffCnt u.buf 1 = 2 ∧ hcmdGetBuffer u.buf 1 0 = some 0 ∧ hcmdGetBuffer u.buf 1 1 = some 2) ∧
    getHcmdBuffCnt u.buf 2 = 2 ∧ hcmdGetBuffer u.buf 2 0 = some 1 ∧ hcmdGetBuffer u.buf 2 1 = some 3 := by
  obtain ⟨u, hr, h1, h2⟩ := exists_two
  obtain ⟨hcnt₁, hget₁⟩ := command_lists hr 1
  obtain ⟨hcnt₂, hget₂⟩ := command_lists hr 2
  rw [h1] at hcnt₁ hget₁
  rw [h2] at hcnt₂ hget₂
  exact ⟨u, hr, h1, h2, ⟨UInt32.toNat_inj.mp hcnt₁, hget₁ 0 (0, 10) rfl, hget₁ 1 (2, 30) rfl⟩,
    UInt32.toNat_inj.mp hcnt₂, hget₂ 0 (1, 20) rfl, hget₂ 1 (3, 40) rfl⟩

/-! ## Counterexample -/

/-- Commands 1 and 2 have page 10 in common. -/
def trace : List Op :=
  page 1 10 ++ page 1 20 ++ [.check 2 10, .add 2] ++ page 2 30

/-- **Counterexample**: the second buffer of command 1 is read as the one
that command 2 added for page 30. -/
theorem hit_diverts_list : ∃ u, users.Reachable u ∧ u.added 1 = [(0, 10), (1, 20)] ∧
    getHcmdBuffCnt u.buf 1 = 2 ∧ hcmdGetBuffer u.buf 1 1 = some 2 := by
  have hrun : (initBuffer.bind fun s => (LTS.exec Users.step (Users.start s) trace).map fun u =>
      (u.added 1, getHcmdBuffCnt u.buf 1, hcmdGetBuffer u.buf 1 1)) =
      some ([(0, 10), (1, 20)], 2, some 2) := by decide +kernel
  obtain ⟨s, hs, hrun⟩ := Option.bind_eq_some_iff.mp hrun
  obtain ⟨u, hu, hrun⟩ := Option.map_eq_some_iff.mp hrun
  simp only [Prod.mk.injEq] at hrun
  exact ⟨u, LTS.Reachable.exec (fun _ _ _ h => h) (.start ⟨s, hs, rfl⟩) hu, hrun⟩

end OpenSSDEmu.Bugs.SharedNode
