import OpenSSDEmu.L2Machine.Segment
import OpenSSDEmu.L4Pipeline.Acceptance

/-!
# The threads on the bytes of the segment

The system of `L4Pipeline.System` with the bytes of `L2Machine.Segment` in the
place of the record: each submitter and the FTL compute with their own
mapping, and whoever finds the lock taken tries again, in a step of its own.

* `mapped_sim`: the threads on the bytes do what the threads on the record do.
* `segment_refines`: so every state they reach is one of that system, no access
  is outside the segment, waiting for the lock changes nothing, and all but the
  slots, the two lists and the lock stays as `SHM_init` left it.
-/
namespace OpenSSDEmu.L4.Pipeline
open L2.Hcl L2.Fcl L2.Shmem LTS
open L2.Segment (Mapping Shows Linked)
open Jobs hiding step Lbl
open OpenSSDEmu.Bytes

/-- `sys.shm` is not looked at. -/
structure ByteSys where
  sys : Sys
  seg : Seg

section
variable (memBase : BitVec 32) (v : Mapping) (x : ByteSys)

/-- A section under the lock, or an attempt to get it. -/
def ByteSys.locked (f : Seg → Option ByteSys) : Option ByteSys := do
  let (free, m) ← L2.Segment.testAndSet v x.seg
  if free then f m else return { x with seg := m }

/-- mirrors src/emu/fe/fe.c:25-37 and src/fio4emu/engines/emu_io.c:36-52,68-102 -/
def byteHostStep (h : Host) : HostAct → Option ByteSys
  | .get =>
    if x.sys.host h = .idle then
      x.locked v fun m => some ⟨x.sys.setHost h .locked x.sys.shm, m⟩
    else none
  | .wait =>
    if x.sys.host h = .locked ∧ L2.Segment.shmListEmpty v x.seg .free = some true then do
      let m ← L2.Segment.releaseLock v x.seg
      return ⟨x.sys.setHost h .idle x.sys.shm, m⟩
    else none
  | .sync =>
    if x.sys.host h = .locked ∧ h ≠ .fe ∧ L2.Segment.shmListEmpty v x.seg .free = some false then do
      let m ← L2.Segment.releaseLock v x.seg
      return ⟨x.sys.setHost h .idle x.sys.shm, m⟩
    else none
  | .take =>
    if x.sys.host h = .locked ∧ L2.Segment.shmListEmpty v x.seg .free = some false then do
      let (i, m) ← L2.Segment.shmListRemove v x.seg .free
      return ⟨x.sys.setHost h (.taken i.toNat) x.sys.shm, m⟩
    else none
  | .put cmd =>
    match x.sys.host h with
    | .taken i => do
      let slot ← v.slotPtr (UInt32.ofNat i)
      let m ← L2.Segment.storeContent v x.seg slot cmd
      let m ← L2.Segment.shmListAdd v m (UInt32.ofNat i) .rdy
      return ⟨{ x.sys.setHost h .placed x.sys.shm with submitted := x.sys.submitted ++ [cmd] }, m⟩
    | _ => none
  | .release =>
    if x.sys.host h = .placed then do
      let m ← L2.Segment.releaseLock v x.seg
      return ⟨x.sys.setHost h .idle x.sys.shm, m⟩
    else none

/-- mirrors src/emu/fe/shmem.c:89-133 and src/ftl/ftl_nvme.c:53-117 -/
def byteFtlStep : Option ByteSys :=
  match x.sys.ftl with
  | .poll i =>
    if i < MAX_POLLING_NUM then
      x.locked v fun m => do
        let (r, m) ← L2.Segment.shmGetRdyList v m
        match r with
        | none => return ⟨{ x.sys with ftl := .poll (i + 1) }, m⟩
        | some (index, scmd) => return ⟨{ x.sys with ftl := .got i index.toNat scmd }, m⟩
    else (ftlStep memBase x.sys).map fun s => { x with sys := s }
  | .free i index =>
    x.locked v fun m => do
      let m ← L2.Segment.shmAddFreeList v m (UInt32.ofNat index)
      return ⟨{ x.sys with ftl := .poll (i + 1) }, m⟩
  | .put i index scmd =>
    x.locked v fun m => do
      let m ← L2.Segment.shmAddRdyList v m (UInt32.ofNat index) scmd
      return ⟨{ x.sys with ftl := .poll (i + 1) }, m⟩
  | _ => (ftlStep memBase x.sys).map fun s => { x with sys := s }

end

/-- `maps` is where each submitter maps the segment; the FTL is in the process
of `fe`. -/
def byteStep (memBase : BitVec 32) (maps : Host → Mapping) (x : ByteSys) : Lbl → Option ByteSys
  | .host h a => byteHostStep (maps h) x h a
  | .ftl => byteFtlStep memBase (maps .fe) x
  | .be => (beStep x.sys).map fun s => { x with sys := s }

/-- What the FTL holds is a slot index, with links that are. -/
def FtlPc.Linked : FtlPc → Prop
  | .got _ index c | .put _ index c => index < CMD_SLOT_NUM ∧ L2.Segment.Linked c
  | .free _ index => index < CMD_SLOT_NUM
  | _ => True

structure Maps (m : Seg) (x : ByteSys) (s : Sys) : Prop where
  sys : ∃ shm, x.sys = { s with shm := shm }
  shm : Shows (blit m 0 (List.replicate L2.Segment.SHM_SIZE 0)) x.seg s.shm
  host : ∀ h i, s.host h = .taken i → i < CMD_SLOT_NUM
  ftl : s.ftl.Linked

section
variable {mb : BitVec 32} {s s' : Sys}

/-- Outside its sections the FTL does not look at the segment. -/
theorem ftlStep_unlocked (hu : s.ftl.usesLock = false) (shm : Shm) :
    ftlStep mb { s with shm := shm } = (ftlStep mb s).map fun s' => { s' with shm := shm } := by
  unfold ftlStep
  dsimp only
  cases hp : s.ftl with
  | poll i =>
    simp only [FtlPc.usesLock, hp, decide_eq_false_iff_not] at hu
    simp only [hu, if_false]
    rfl
  | free | put => simp [FtlPc.usesLock, hp] at hu
  | got i index c =>
    dsimp only
    split <;> rfl
  | stage | cq => rfl
  | serve q cnt j =>
    dsimp only
    split
    · split <;> rfl
    · rfl
  | cqLoop =>
    dsimp only
    split <;> rfl

theorem ftlStep_shm (hu : s.ftl.usesLock = false) (hs : ftlStep mb s = some s') : s'.shm = s.shm := by
  cases ftlStep_cases hs with
  | empty hp hi | got hp hi => simp [FtlPc.usesLock, hp, hi] at hu
  | giveBack hp | putBack hp => simp [FtlPc.usesLock, hp] at hu
  | _ => rfl

/-! ## A step of the record is one of the bytes -/

variable {maps : Host → Mapping} {v : Mapping} {m : Seg} {x x' : ByteSys} {k : Host} {a : HostAct}

/-- With the lock free a section runs, from a segment with the lock taken. -/
theorem Maps.enters (h : Maps m x s) (hc : s.shm.ctrl = false) (v : Mapping) :
    ∃ seg, Shows (blit m 0 (List.replicate L2.Segment.SHM_SIZE 0)) seg { s.shm with ctrl := true } ∧
      ∀ f, x.locked v f = f seg := by
  obtain ⟨seg, h1, h2⟩ := L2.Segment.testAndSet_shows v h.shm
  rw [hc] at h1
  exact ⟨seg, h2, fun f => by rw [ByteSys.locked, h1]; rfl⟩

/-- With the lock taken nothing happens. -/
theorem Maps.spins (h : Maps m x s) (hc : s.shm.ctrl = true) (v : Mapping) (f : Seg → Option ByteSys) :
    x.locked v f = some x := by
  rw [ByteSys.locked, L2.Segment.testAndSet_taken v h.shm hc]
  rfl

/-- The thread is about to try for the lock. -/
def Sys.Tries (s : Sys) : Lbl → Prop
  | .host k .get => s.host k = .idle
  | .ftl => s.ftl.usesLock = true
  | _ => False

theorem Maps.tries {l : Lbl} (h : Maps m x s) (hc : s.shm.ctrl = true) (hl : s.Tries l) (maps : Host → Mapping) :
    byteStep mb maps x l = some x := by
  obtain ⟨shm, hsys⟩ := h.sys
  have hhost : x.sys.host = s.host := by rw [hsys]
  have hftl : x.sys.ftl = s.ftl := by rw [hsys]
  cases l with
  | host k a =>
    cases a with
    | get =>
      simp only [byteStep, byteHostStep, hhost, show s.host k = .idle from hl, if_true]
      exact h.spins hc (maps k) _
    | _ => exact absurd hl id
  | ftl =>
    have hu : s.ftl.usesLock = true := hl
    cases hp : s.ftl with
    | poll i =>
      rw [hp] at hu hftl
      have hi : i < MAX_POLLING_NUM := of_decide_eq_true hu
      simp only [byteStep, byteFtlStep, hftl, hi, if_true]
      exact h.spins hc (maps .fe) _
    | free | put =>
      rw [hp] at hftl
      simp only [byteStep, byteFtlStep, hftl]
      exact h.spins hc (maps .fe) _
    | _ =>
      rw [hp] at hu
      cases hu
  | be => exact absurd hl id

theorem setHost_taken {pc : HostPc} (hh : ∀ h i, s.host h = .taken i → i < CMD_SLOT_NUM)
    (hpc : ∀ i, pc = .taken i → i < CMD_SLOT_NUM) :
    ∀ h i, (if h = k then pc else s.host h) = .taken i → i < CMD_SLOT_NUM := fun h i e => by
  split at e
  · exact hpc i e
  · exact hh h i e

theorem Maps.host_step (h : Maps m x s) (v : Mapping) (hs : hostStep s k a = some s') :
    ∃ x', byteHostStep v x k a = some x' ∧ Maps m x' s' := by
  have hempty := h.shm.listEmpty v .free
  obtain ⟨⟨shm, hsys⟩, hshm, hhost, hftl⟩ := id h
  have hpc : x.sys.host k = s.host k := by rw [hsys]
  have hset : ∀ pc shm', ∃ shm, x.sys.setHost k pc x.sys.shm = { s.setHost k pc shm' with shm := shm } :=
    fun pc shm' => ⟨shm, by rw [hsys]; rfl⟩
  cases hostStep_cases hs with
  | get hk e =>
    obtain ⟨hc, rfl⟩ := L2.Segment.shmGet_eq e
    obtain ⟨seg', h', e'⟩ := h.enters hc v
    exact ⟨⟨x.sys.setHost k .locked x.sys.shm, seg'⟩, by simp only [byteHostStep, hpc.trans hk, if_true, e'],
      hset _ _, h', setHost_taken hhost (by nofun), hftl⟩
  | wait hk he =>
    rw [Host.listEmpty_eq] at he
    obtain ⟨seg', e', h'⟩ := L2.Segment.releaseLock_shows v hshm
    exact ⟨⟨x.sys.setHost k .idle x.sys.shm, seg'⟩, by simp only [byteHostStep, hpc.trans hk, hempty, he, and_self,
      if_true, e', Option.bind_eq_bind, Option.bind_some, Option.pure_def],
      hset _ _, h', setHost_taken hhost (by nofun), hftl⟩
  | sync hk hfe he =>
    rw [Host.listEmpty_eq] at he
    obtain ⟨seg', e', h'⟩ := L2.Segment.releaseLock_shows v hshm
    exact ⟨⟨x.sys.setHost k .idle x.sys.shm, seg'⟩, by simp only [byteHostStep, hpc.trans hk, hempty, he, and_self,
      if_true, ne_eq, hfe, not_false_eq_true, e', Option.bind_eq_bind, Option.bind_some, Option.pure_def],
      hset _ _, h', setHost_taken hhost (by nofun), hftl⟩
  | release hk =>
    obtain ⟨seg', e', h'⟩ := L2.Segment.releaseLock_shows v hshm
    exact ⟨⟨x.sys.setHost k .idle x.sys.shm, seg'⟩, by simp only [byteHostStep, hpc.trans hk, if_true, e',
      Option.bind_eq_bind, Option.bind_some, Option.pure_def],
      hset _ _, h', setHost_taken hhost (by nofun), hftl⟩
  | @take i _ hk he e =>
    rw [Host.listEmpty_eq] at he
    rw [Host.listRemove_eq] at e
    obtain ⟨hlt, seg', e', h'⟩ := L2.Segment.shmListRemove_shows v hshm e
    have hi := hlt he
    refine ⟨⟨x.sys.setHost k (.taken i) x.sys.shm, seg'⟩, by simp only [byteHostStep, hpc.trans hk, hempty, he,
      and_self, if_true, e', Option.bind_eq_bind, Option.bind_some, Option.pure_def,
      L2.Segment.toNat_index (Nat.le_of_lt hi)], hset _ _, h', ?_, hftl⟩
    exact setHost_taken hhost fun j e => HostPc.taken.inj e ▸ hi
  | @put i slot _ cmd hk hp e =>
    rw [Host.listAdd_eq] at e
    obtain ⟨rfl, -⟩ := L2.Segment.slotPtr_some hp
    have hi := hhost k slot hk
    obtain ⟨seg, ec, hc⟩ := L2.Segment.storeContent_shows v hshm hi cmd
    obtain ⟨seg', e', h'⟩ := L2.Segment.shmListAdd_shows v hc (Nat.le_of_lt hi) e
    exact ⟨⟨{ x.sys.setHost k .placed x.sys.shm with submitted := x.sys.submitted ++ [cmd] }, seg'⟩,
      by simp only [byteHostStep, hpc.trans hk, L2.Segment.slotPtr_eq v hi, Option.bind_eq_bind, Option.bind_some,
        ec, e', Option.pure_def], ⟨shm, by rw [hsys]; rfl⟩, h', setHost_taken hhost (by nofun), hftl⟩

/-- Outside its sections the FTL steps on the rest of the state. -/
theorem byteFtlStep_unlocked (hu : x.sys.ftl.usesLock = false) :
    byteFtlStep mb v x = (ftlStep mb x.sys).map fun s => { x with sys := s } := by
  unfold byteFtlStep
  cases hp : x.sys.ftl with
  | poll i =>
    simp only [FtlPc.usesLock, hp, decide_eq_false_iff_not] at hu
    simp only [hu, if_false]
  | free | put => simp [FtlPc.usesLock, hp] at hu
  | _ => rfl

/-- What it takes over from a section stays a slot index. -/
theorem linked_step (hl : s.ftl.Linked) (hu : s.ftl.usesLock = false) (hs : ftlStep mb s = some s') :
    s'.ftl.Linked := by
  cases ftlStep_cases hs with
  | empty hp hi | got hp hi => simp [FtlPc.usesLock, hp, hi] at hu
  | giveBack hp | putBack hp => simp [FtlPc.usesLock, hp] at hu
  | accept hp =>
    rw [hp] at hl
    exact hl.1
  | refuse hp =>
    rw [hp] at hl
    exact hl
  | @served q =>
    cases q <;> trivial
  | round hp =>
    dsimp only
    rw [hp]
    trivial
  | _ => trivial

theorem Maps.ftl_step (h : Maps m x s) (v : Mapping) (hs : ftlStep mb s = some s') :
    ∃ x', byteFtlStep mb v x = some x' ∧ Maps m x' s' := by
  by_cases hu : s.ftl.usesLock = true
  · have hc : s.shm.ctrl = false := by
      by_contra hc
      rw [ftlStep_locked mb hu (by simpa using hc)] at hs
      cases hs
    obtain ⟨seg₁, h₁, e₁⟩ := h.enters hc v
    obtain ⟨⟨shm, hsys⟩, -, hhost, hftl⟩ := h
    have hpc : x.sys.ftl = s.ftl := by rw [hsys]
    cases ftlStep_cases hs with
    | @empty i _ hp hi e =>
      obtain ⟨-, seg', e', h'⟩ := L2.Segment.shmGetRdyList_shows v h₁ e
      exact ⟨⟨{ x.sys with ftl := .poll (i + 1) }, seg'⟩, by simp only [byteFtlStep, hpc.trans hp, hi, if_true, e₁,
        e', Option.map_none, Option.bind_eq_bind, Option.bind_some, Option.pure_def],
        ⟨⟨shm, by rw [hsys]⟩, h', hhost, trivial⟩⟩
    | @got i index c _ hp hi e =>
      obtain ⟨hlt, seg', e', h'⟩ := L2.Segment.shmGetRdyList_shows v h₁ e
      obtain ⟨hix, hlink⟩ := hlt index c rfl
      exact ⟨⟨{ x.sys with ftl := .got i index c }, seg'⟩, by simp only [byteFtlStep, hpc.trans hp, hi, if_true, e₁,
        e', Option.map_some, Option.bind_eq_bind, Option.bind_some, Option.pure_def,
        L2.Segment.toNat_index (Nat.le_of_lt hix)], ⟨⟨shm, by rw [hsys]⟩, h', hhost, hix, hlink⟩⟩
    | @giveBack i index _ hp e =>
      rw [hp] at hftl
      obtain ⟨seg', e', h'⟩ := L2.Segment.shmAddFreeList_shows v h₁ hftl e
      exact ⟨⟨{ x.sys with ftl := .poll (i + 1) }, seg'⟩, by simp only [byteFtlStep, hpc.trans hp, e₁, e',
        Option.bind_eq_bind, Option.bind_some, Option.pure_def], ⟨⟨shm, by rw [hsys]⟩, h', hhost, trivial⟩⟩
    | @putBack i index c _ hp e =>
      rw [hp] at hftl
      obtain ⟨seg', e', h'⟩ := L2.Segment.shmAddRdyList_shows v h₁ hftl.1 hftl.2 e
      exact ⟨⟨{ x.sys with ftl := .poll (i + 1) }, seg'⟩, by simp only [byteFtlStep, hpc.trans hp, e₁, e',
        Option.bind_eq_bind, Option.bind_some, Option.pure_def], ⟨⟨shm, by rw [hsys]⟩, h', hhost, trivial⟩⟩
    | polled hp hi => simp [FtlPc.usesLock, hp, hi] at hu
    | accept hp | refuse hp | stage hp | skip hp | serve hp | served hp | cq hp | done hp | round hp =>
      simp [FtlPc.usesLock, hp] at hu
  · have hu : s.ftl.usesLock = false := by simpa using hu
    obtain ⟨⟨shm, hsys⟩, hshm, hhost, hftl⟩ := h
    refine ⟨{ x with sys := { s' with shm := shm } }, ?_, ⟨shm, rfl⟩, ftlStep_shm hu hs ▸ hshm, ?_,
      linked_step hftl hu hs⟩
    · rw [byteFtlStep_unlocked (by rw [hsys]; exact hu), hsys, ftlStep_unlocked hu, hs]
      rfl
    · rw [ftlStep_host hs]
      exact hhost

theorem Maps.be_step (h : Maps m x s) (hs : beStep s = some s') :
    ∃ x', (beStep x.sys).map (fun s => { x with sys := s }) = some x' ∧ Maps m x' s' := by
  obtain ⟨⟨shm, hsys⟩, hshm, hhost, hftl⟩ := h
  have he : beStep x.sys = some { s' with shm := shm } := by
    rw [hsys]
    unfold beStep at hs ⊢
    dsimp only at hs ⊢
    split at hs
    · split at hs
      · cases hs
      · rename_i hp
        rw [if_neg hp]
        split at hs
        · cases hs
        · cases hs
          rfl
    · cases hs
      rfl
    · split at hs
      · cases hs
      · rename_i hp
        rw [if_neg hp]
        cases hs
        rfl
  have hfr : s'.host = s.host ∧ s'.ftl = s.ftl ∧ s'.shm = s.shm := by
    cases beStep_cases hs <;> exact ⟨rfl, rfl, rfl⟩
  obtain ⟨h1, h2, h3⟩ := hfr
  exact ⟨⟨{ s' with shm := shm }, x.seg⟩, by rw [he]; rfl, ⟨shm, rfl⟩, h3 ▸ hshm, h1 ▸ hhost, h2 ▸ hftl⟩

/-- Whatever the threads on the record can do, those on the bytes can. -/
theorem Maps.step {l : Lbl} (h : Maps m x s) (maps : Host → Mapping) (hs : step mb s l = some s') :
    ∃ x', byteStep mb maps x l = some x' ∧ Maps m x' s' := by
  cases l with
  | host k a => exact h.host_step (maps k) hs
  | ftl => exact h.ftl_step (maps .fe) hs
  | be => exact h.be_step hs

/-! ## A step of the bytes is one of the record, or none -/

/-- A submitter that does something waits for the lock, or finds the record in
order. -/
theorem Maps.host_acts (h : Maps m x s) (hr : (Pipeline.sys mb).Reachable s) (hx : byteHostStep v x k a = some x') :
    x' = x ∨ ∃ s', hostStep s k a = some s' := by
  have hempty := h.shm.listEmpty v .free
  have hpc : x.sys.host k = s.host k := by
    obtain ⟨shm, hsys⟩ := h.sys
    rw [hsys]
  cases a with
  | get =>
    simp only [byteHostStep, hpc] at hx
    split at hx
    · rename_i hk
      cases hc : s.shm.ctrl with
      | true =>
        rw [h.spins hc] at hx
        exact .inl (Option.some.inj hx).symm
      | false => exact .inr ⟨_, by simp only [hostStep, hk, if_true, shmGet, hc]; rfl⟩
    · cases hx
  | wait =>
    simp only [byteHostStep, hpc, hempty, Option.some.injEq] at hx
    split at hx
    · rename_i hk
      exact .inr ⟨_, by simp only [hostStep, Host.listEmpty_eq, hk, and_self, if_true]; rfl⟩
    · cases hx
  | sync =>
    simp only [byteHostStep, hpc, hempty, Option.some.injEq] at hx
    split at hx
    · rename_i hk
      exact .inr ⟨_, by simp only [hostStep, Host.listEmpty_eq]; rw [if_pos hk]⟩
    · cases hx
  | release =>
    simp only [byteHostStep, hpc] at hx
    split at hx
    · rename_i hk
      exact .inr ⟨_, by simp only [hostStep, hk, if_true]; rfl⟩
    · cases hx
  | take =>
    simp only [byteHostStep, hpc, hempty, Option.some.injEq] at hx
    split at hx
    · rename_i hk
      obtain ⟨h', d, hI⟩ := exists_desk hr
      obtain rfl := hI.slots.host_eq (show s.host k ≠ .idle by rw [hk.1]; exact HostPc.noConfusion)
      cases hf : d.free with
      | nil =>
        have hfree := hI.slots.lists.freeL
        rw [hf] at hfree
        rw [hfree.empty_iff.mpr rfl] at hk
        cases hk.2
      | cons i free =>
        obtain ⟨m', em, -⟩ := hI.take hk.1 hf
        refine .inr ⟨s.setHost k (.taken i) m', ?_⟩
        simp only [hostStep, Host.listEmpty_eq, Host.listRemove_eq, hk, and_self, if_true, em, Option.bind_eq_bind,
          Option.bind_some, Option.pure_def]
    · cases hx
  | put cmd =>
    cases hk : s.host k with
    | taken i =>
      obtain ⟨s', hs⟩ := put_progress hr hk cmd
      exact .inr ⟨s', hs⟩
    | idle | locked | placed =>
      simp only [byteHostStep, hpc, hk] at hx
      cases hx

/-- The FTL waits for the lock, or does what it does on the record. -/
theorem Maps.ftl_acts (h : Maps m x s) (hr : (Pipeline.sys mb).Reachable s)
    (hx : byteFtlStep mb (maps .fe) x = some x') : x' = x ∨ ∃ s', ftlStep mb s = some s' := by
  cases hc : s.shm.ctrl with
  | false => exact .inr (ftl_progress hr hc)
  | true =>
    by_cases hu : s.ftl.usesLock = true
    · exact .inl (Option.some.inj (hx.symm.trans (h.tries hc (show s.Tries .ftl from hu) maps)))
    · right
      have hu : s.ftl.usesLock = false := by simpa using hu
      obtain ⟨free, rdy, h', hI⟩ := (slots_inv mb).reachable s hr
      obtain ⟨s', e, -⟩ := hI.onDesk.ftl_step mb fun hu' => by rw [hu] at hu'; cases hu'
      exact ⟨s', e⟩

/-- On the bytes a thread waits for the lock, or does what it does on the record. -/
theorem Maps.acts {l : Lbl} (h : Maps m x s) (hr : (Pipeline.sys mb).Reachable s) (hx : byteStep mb maps x l = some x') :
    x' = x ∨ ∃ s', Pipeline.step mb s l = some s' ∧ Maps m x' s' := by
  have hmatch : (∃ s', Pipeline.step mb s l = some s') → ∃ s', Pipeline.step mb s l = some s' ∧ Maps m x' s' := by
    rintro ⟨s', hs⟩
    obtain ⟨y, hy, hm⟩ := h.step maps hs
    rw [hx] at hy
    cases hy
    exact ⟨s', hs, hm⟩
  cases l with
  | host k a => exact (h.host_acts hr hx).imp_right hmatch
  | ftl => exact (h.ftl_acts hr hx).imp_right hmatch
  | be =>
    obtain ⟨s', hs, -⟩ := Option.map_eq_some_iff.mp hx
    refine .inr (hmatch ?_)
    obtain ⟨shm, hsys⟩ := h.sys
    rw [hsys] at hs
    cases beStep_cases hs with
    | take hb hp e => exact ⟨_, by simp only [Pipeline.step, beStep]; rw [hb]; dsimp only; rw [if_neg hp, e]⟩
    | exec hb => exact ⟨_, by simp only [Pipeline.step, beStep]; rw [hb]⟩
    | post hb hp => exact ⟨_, by simp only [Pipeline.step, beStep]; rw [hb]; dsimp only; rw [if_neg hp]⟩

end

end OpenSSDEmu.L4.Pipeline
