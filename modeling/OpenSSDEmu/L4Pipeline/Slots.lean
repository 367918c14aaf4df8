import OpenSSDEmu.L4Pipeline.Desk
import OpenSSDEmu.L4Pipeline.System

/-!
# Slots and commands in shared memory

`Slots s free rdy h`: in `s` the segment holds the FREE list `free` and the
RDY list `rdy`, no submitter but `h` is past the lock, each slot is in one
list or in one pair of hands, and each submitted command is waiting in a
slot, in the FTL's hands, or accepted. It holds in every reachable state
(`slots_inv`), whatever links a slot holds while it is in nobody's list:
`shmListAdd` overwrites both.

* `OnDesk`, `OnDesk.step`: in these terms a state is at a desk (`L4Pipeline.Desk`),
  and a step of any thread is nothing or one step at the desk.
* `slot_conservation`: where the slots are and what the lists look like.
* `delivered_once`: where the commands are.
* `ftl_progress`, `put_progress`: no step dereferences a null slot.
-/
namespace OpenSSDEmu.L4.Pipeline
open L2.Hcl L2.Fcl L2.Shmem L2.TaskQueue
open Jobs (Job Kind Place)
open Links

def HostPc.hand : HostPc → List Nat
  | .taken i => [i]
  | _ => []

/-- The slot the FTL has taken and not returned yet. -/
def FtlPc.hand : FtlPc → List Nat
  | .got _ i _ | .free _ i | .put _ i _ => [i]
  | _ => []

/-- The command copied out and neither accepted nor put back yet. -/
def FtlPc.cmds : FtlPc → List HostCmd
  | .got _ _ c | .put _ _ c => [c.toHostCmd]
  | _ => []

def content (m : Shm) (i : Nat) : HostCmd := (m.slot i).toHostCmd

/-- The entry says what the submitter wrote. -/
structure Acc.Holds (a : Acc) : Prop where
  lpn : a.entry.nvmeStartLba = a.cmd.lpn
  start : a.entry.startLpa = a.cmd.lpn / 4
  size : a.entry.nvmeReqNum = a.cmd.size / HOST_BLOCK_SIZE
  req : a.entry.reqNum = a.cmd.size / HOST_BLOCK_SIZE / 4
  write : a.cmd.ops = SHM_WRITE_OPS → a.entry.opCode = .write
  read : a.cmd.ops = SHM_READ_OPS → a.entry.opCode = .read

structure Slots (s : Sys) (free rdy : List Nat) (h : Host) : Prop where
  lists : Lists s.shm free rdy
  alone : ∀ k, k ≠ h → s.host k = .idle
  lock : s.shm.ctrl = true ↔ s.host h ≠ .idle
  slots : (free ++ rdy ++ (s.host h).hand ++ s.ftl.hand).Perm (List.range CMD_SLOT_NUM)
  delivered : s.submitted.Perm (rdy.map (content s.shm) ++ s.ftl.cmds ++ s.accs.map fun a => a.cmd)
  holds : ∀ a ∈ s.accs, a.Holds

section
variable {s s' : Sys} {free rdy : List Nat} {h k : Host}

theorem Slots.host_eq (hI : Slots s free rdy h) (hk : s.host k ≠ .idle) : k = h := by
  by_contra hne
  exact hk (hI.alone k hne)

theorem Slots.nodup (hI : Slots s free rdy h) :
    (free ++ rdy ++ (s.host h).hand ++ s.ftl.hand).Nodup :=
  hI.slots.nodup_iff.mpr List.nodup_range

/-- A slot in somebody's hands is a real one and in no list. -/
theorem Slots.hand (hI : Slots s free rdy h) {i : Nat} (hi : i ∈ (s.host h).hand ++ s.ftl.hand) :
    i ≠ CMD_SLOT_NUM ∧ i ∉ free ∧ i ∉ rdy := by
  have hm : i ∈ List.range CMD_SLOT_NUM := by
    refine hI.slots.mem_iff.mp ?_
    rw [List.append_assoc]; exact List.mem_append_right _ hi
  have hd := hI.nodup
  rw [List.append_assoc, List.nodup_append] at hd
  refine ⟨fun e => ?_, fun hf => ?_, fun hr => ?_⟩
  · rw [List.mem_range] at hm; omega
  · exact hd.2.2 i (List.mem_append_left _ hf) i hi rfl
  · exact hd.2.2 i (List.mem_append_right _ hr) i hi rfl

theorem content_map {m m' : Shm} {xs : List Nat} (hc : ∀ i ∈ xs, content m' i = content m i) :
    xs.map (content m') = xs.map (content m) := List.map_congr_left hc

theorem Host.listEmpty_eq (h : Host) : h.listEmpty = shmListEmpty := by cases h <;> rfl
theorem Host.listAdd_eq (h : Host) : h.listAdd = shmListAdd := by cases h <;> rfl
theorem Host.listRemove_eq (h : Host) : h.listRemove = shmListRemove := by cases h <;> rfl

/-! ## Submitters -/

theorem Slots.get (hI : Slots s free rdy h) (hc : s.shm.ctrl = false) :
    Slots (s.setHost k .locked { s.shm with ctrl := true }) free rdy k := by
  have hh : s.host h = .idle := by
    by_contra hne
    simp [hI.lock.mpr hne] at hc
  have hall : ∀ j, s.host j = .idle := fun j => by
    by_cases e : j = h
    · rw [e, hh]
    · exact hI.alone j e
  have hs := hI.slots
  rw [hh] at hs
  exact ⟨hI.lists.lock true, fun j hj => by simp [Sys.setHost, hj, hall], by simp [Sys.setHost],
    by simpa [Sys.setHost, HostPc.hand] using hs, hI.delivered, hI.holds⟩

/-- The holder of the lock releases it with nothing in its hands. -/
theorem Slots.leave (hI : Slots s free rdy h) (hh : (s.host h).hand = []) :
    Slots (s.setHost h .idle (shmRelease s.shm)) free rdy h := by
  have hs := hI.slots
  rw [hh] at hs
  exact ⟨hI.lists.lock false, fun j hj => by simp [Sys.setHost, hj, hI.alone j hj],
    by simp [Sys.setHost, shmRelease], by simpa [Sys.setHost, HostPc.hand] using hs, hI.delivered, hI.holds⟩

theorem Slots.take {i : Nat} (hI : Slots s (i :: free) rdy h) (hh : s.host h = .locked) :
    ∃ m, shmListRemove s.shm .free = some (i, m) ∧ (∀ j, content m j = content s.shm j) ∧
      Slots (s.setHost h (.taken i) m) free rdy h := by
  obtain ⟨m, e, hl, f⟩ := hI.lists.take_free
  refine ⟨m, e, f.content, hl, fun j hj => by simp [Sys.setHost, hj, hI.alone j hj], ?_, ?_, ?_, hI.holds⟩
  · have := hI.lock
    simp only [Sys.setHost, f.ctrl, if_true, this, hh]; simp
  · refine List.Perm.trans ?_ hI.slots
    simp only [Sys.setHost, if_true, hh, HostPc.hand, List.append_nil]
    refine List.perm_iff_count.mpr fun a => ?_
    simp only [List.count_append, List.count_cons, List.count_nil]; omega
  · simpa only [Sys.setHost, content_map fun j _ => f.content j] using hI.delivered

theorem Slots.put {i : Nat} (hI : Slots s free rdy h) (hh : s.host h = .taken i) (cmd : HostCmd) :
    ∃ m, shmListAdd (setSlot s.shm i { s.shm.slot i with toHostCmd := cmd }) i .rdy = some m ∧
      content m i = cmd ∧ (∀ j ∈ rdy, content m j = content s.shm j) ∧
      Slots { s.setHost h .placed m with submitted := s.submitted ++ [cmd] } free (rdy ++ [i]) h := by
  obtain ⟨hne, hf, hr⟩ := hI.hand (i := i) (by simp [hh, HostPc.hand])
  obtain ⟨m, e, hl, f⟩ := (hI.lists.write hf hr { s.shm.slot i with toHostCmd := cmd }).add_rdy hne hf hr
  have hi : content m i = cmd := by simpa [content, setSlot] using f.content i
  have hx : ∀ j ∈ rdy, content m j = content s.shm j := fun j hj => by
    have : j ≠ i := by
      intro heq
      subst heq
      exact hr hj
    simpa [content, setSlot, this] using f.content j
  refine ⟨m, e, hi, hx, hl, fun j hj => by simp [Sys.setHost, hj, hI.alone j hj], ?_, ?_, ?_, hI.holds⟩
  · have := hI.lock
    simp only [Sys.setHost, f.ctrl, if_true, setSlot, this, hh]; simp
  · refine List.Perm.trans ?_ hI.slots
    simp only [Sys.setHost, if_true, hh, HostPc.hand, List.append_nil]
    refine List.perm_iff_count.mpr fun a => ?_
    simp only [List.count_append]; omega
  · simp only [Sys.setHost, List.map_append, content_map hx, List.map_cons, List.map_nil, hi]
    refine (hI.delivered.append_right [cmd]).trans (List.perm_iff_count.mpr fun a => ?_)
    simp only [List.count_append]; omega

/-! ## The FTL thread -/

/-- A step of the FTL that leaves the segment and both hands alone. -/
theorem Slots.frame (hI : Slots s free rdy h) (hm : s'.shm = s.shm) (hh : s'.host = s.host)
    (h1 : s'.ftl.hand = s.ftl.hand) (h2 : s'.ftl.cmds = s.ftl.cmds) (h3 : s'.submitted = s.submitted)
    (h4 : s'.accs = s.accs) : Slots s' free rdy h := by
  refine ⟨hm ▸ hI.lists, hh ▸ hI.alone, ?_, ?_, ?_, h4 ▸ hI.holds⟩
  · rw [hm, hh]; exact hI.lock
  · rw [hh, h1]; exact hI.slots
  · rw [h3, hm, h2, h4]; exact hI.delivered

theorem Slots.got {i j : Nat} (hI : Slots s free (j :: rdy) h) (hp : s.ftl = .poll i)
    (hc : s.shm.ctrl = false) :
    ∃ m c, shmGetRdyList s.shm = some (some (j, c), m) ∧ c.toHostCmd = content s.shm j ∧
      (∀ k, content m k = content s.shm k) ∧
      Slots { s with shm := m, ftl := .got i j c } free rdy h := by
  obtain ⟨m, c, e, hl, f, hcont⟩ := shmGetRdyList_spec hI.lists hc
  refine ⟨m, c, e, hcont, f.content, hl, hI.alone, by simpa only [f.ctrl] using hI.lock, ?_, ?_, hI.holds⟩
  · refine List.Perm.trans ?_ hI.slots
    simp only [hp, FtlPc.hand]
    refine List.perm_iff_count.mpr fun a => ?_
    simp only [List.count_append, List.count_cons, List.count_nil]; omega
  · refine hI.delivered.trans ?_
    simp only [hp, FtlPc.cmds, content_map fun k (_ : k ∈ rdy) => f.content k, hcont,
      List.map_cons, content]
    refine List.perm_iff_count.mpr fun a => ?_
    simp only [List.count_append, List.count_cons, List.count_nil]; omega

theorem fillEntry_holds (j : Job) (e : HostCmdEntry) (index : Nat) (c : UInt32) :
    Acc.Holds ⟨j, fillEntry e j.cmd index c⟩ := by
  refine ⟨rfl, rfl, rfl, rfl, fun hw => ?_, fun hr => ?_⟩
  · exact if_pos hw
  · have hw : ¬ j.cmd.ops = SHM_WRITE_OPS := fun e => absurd (hr.symm.trans e) (by decide)
    exact (if_neg hw).trans (if_pos hr)

theorem Slots.accept {i j k : Nat} {c : ShmCmd} {hcl : HcmdPool} (hI : Slots s free rdy h)
    (hp : s.ftl = .got i j c) : Slots (acceptInto s i j c.toHostCmd k hcl) free rdy h := by
  refine ⟨hI.lists, hI.alone, hI.lock, ?_, ?_, ?_⟩
  · simpa only [acceptInto, FtlPc.hand, hp] using hI.slots
  · refine hI.delivered.trans ?_
    simp only [acceptInto, hp, FtlPc.cmds, List.map_append, List.map_cons, List.map_nil]
    refine List.perm_iff_count.mpr fun a => ?_
    simp only [List.count_append, List.count_nil]; omega
  · intro a ha
    rcases List.mem_append.mp ha with ha | ha
    · exact hI.holds a ha
    · rw [List.mem_singleton.mp ha]; exact fillEntry_holds _ _ _ _

theorem Slots.returned {i j : Nat} (hI : Slots s free rdy h) (hp : s.ftl = .free i j)
    (hc : s.shm.ctrl = false) :
    ∃ m, shmAddFreeList s.shm j = some m ∧ (∀ k, content m k = content s.shm k) ∧
      Slots { s with shm := m, ftl := .poll (i + 1) } (free ++ [j]) rdy h := by
  obtain ⟨hne, hf, hr⟩ := hI.hand (i := j) (by simp [hp, FtlPc.hand])
  obtain ⟨m, e, hl, f⟩ := shmAddFreeList_spec hI.lists hc hne hf hr
  refine ⟨m, e, f.content, hl, hI.alone, by simpa only [f.ctrl] using hI.lock, ?_, ?_, hI.holds⟩
  · refine List.Perm.trans ?_ hI.slots
    simp only [hp, FtlPc.hand]
    refine List.perm_iff_count.mpr fun a => ?_
    simp only [List.count_append, List.count_nil]; omega
  · simpa only [hp, FtlPc.cmds, content_map fun k (_ : k ∈ rdy) => f.content k] using hI.delivered

theorem Slots.putBack {i j : Nat} {c : ShmCmd} (hI : Slots s free rdy h) (hp : s.ftl = .put i j c)
    (hc : s.shm.ctrl = false) :
    ∃ m, shmAddRdyList s.shm j c = some m ∧ content m j = c.toHostCmd ∧
      (∀ k ∈ rdy, content m k = content s.shm k) ∧
      Slots { s with shm := m, ftl := .poll (i + 1) } free (rdy ++ [j]) h := by
  obtain ⟨hne, hf, hr⟩ := hI.hand (i := j) (by simp [hp, FtlPc.hand])
  obtain ⟨m, e, hl, hc', hj, hx⟩ := shmAddRdyList_spec hI.lists hc hne hf hr c
  have hx' : ∀ k ∈ rdy, content m k = content s.shm k := fun k hk =>
    hx k (by rintro rfl; exact hr hk)
  have hlk := hI.lock
  refine ⟨m, e, hj, hx', hl, hI.alone, by simpa only [hc', hc] using hlk, ?_, ?_, hI.holds⟩
  · refine List.Perm.trans ?_ hI.slots
    simp only [hp, FtlPc.hand]
    refine List.perm_iff_count.mpr fun a => ?_
    simp only [List.count_append, List.count_nil]; omega
  · refine hI.delivered.trans ?_
    simp only [hp, FtlPc.cmds, List.map_append, content_map hx', List.map_cons, List.map_nil, content, hj]
    refine List.perm_iff_count.mpr fun a => ?_
    simp only [List.count_append, List.count_nil]; omega

/-- The FTL is at one of its three sections under the lock. -/
def FtlPc.usesLock : FtlPc → Bool
  | .poll i => decide (i < MAX_POLLING_NUM)
  | .free _ _ | .put _ _ _ => true
  | _ => false

theorem ftlStep_locked (mb : BitVec 32) (hu : s.ftl.usesLock = true) (hc : s.shm.ctrl = true) :
    ftlStep mb s = none := by
  unfold ftlStep
  split <;> simp_all [FtlPc.usesLock, shmGetRdyList, shmAddFreeList, shmAddRdyList, shmGet]

end

/-! ## The desk -/

/-- What the FTL holds, as a server at the desk. -/
def FtlPc.onDesk : FtlPc → Desk.Hand Nat HostCmd
  | .got _ i c => .got i c.toHostCmd
  | .free _ i => .free i
  | .put _ i c => .put i c.toHostCmd
  | _ => .empty

/-- The shared memory of `s`, the submitter `h` and the FTL are at desk `d`:
the slots and the commands are where `d` says, in the same order. -/
structure OnDesk (s : Sys) (h : Host) (d : Desk Nat HostCmd) : Prop where
  slots : Slots s d.free (d.rdy.map Prod.fst) h
  content : ∀ x ∈ d.rdy, content s.shm x.1 = x.2
  taken : (s.host h).hand = d.taken.toList
  hand : s.ftl.onDesk = d.hand
  submitted : s.submitted = d.submitted
  accepted : s.accs.map (fun a => (a.entry.nvmeCmdSlot.toNat, a.cmd)) = d.accepted

/-- What a label can do at the desk. -/
def Lbl.acts : Lbl → Desk.Act HostCmd → Prop
  | .host _ .take, .take => True
  | .host _ (.put c), .put c' => c' = c
  | .ftl, .get | .ftl, .accept | .ftl, .refuse | .ftl, .giveBack | .ftl, .putBack => True
  | _, _ => False

/-- Nothing, or one step at the desk. -/
def DeskStep (d : Desk Nat HostCmd) (l : Lbl) (s' : Sys) : Prop :=
  (∃ h, OnDesk s' h d) ∨ ∃ a d' h, l.acts a ∧ Desk.step d a = some d' ∧ OnDesk s' h d'

section
variable {s s' : Sys} {h h' k : Host} {d : Desk Nat HostCmd}

theorem OnDesk.quiet (hI : OnDesk s h d) (hsl : Slots s' d.free (d.rdy.map Prod.fst) h')
    (hm : s'.shm.slot = s.shm.slot) (ht : (s'.host h').hand = d.taken.toList)
    (hf : s'.ftl.onDesk = s.ftl.onDesk) (h3 : s'.submitted = s.submitted) (h4 : s'.accs = s.accs) :
    OnDesk s' h' d := by
  refine ⟨hsl, fun x hx => ?_, ht, hf.trans hI.hand, h3.trans hI.submitted, h4 ▸ hI.accepted⟩
  unfold Pipeline.content
  rw [hm]
  exact hI.content x hx

/-! ### Submitters -/

theorem OnDesk.leave (hI : OnDesk s h d) (hh : (s.host h).hand = []) :
    OnDesk (s.setHost h .idle (shmRelease s.shm)) h d := by
  refine hI.quiet (hI.slots.leave hh) rfl ?_ rfl rfl rfl
  rw [← hI.taken, hh]
  simp [Sys.setHost, HostPc.hand]

theorem OnDesk.get (hI : OnDesk s h d) (hc : s.shm.ctrl = false) :
    OnDesk (s.setHost k .locked { s.shm with ctrl := true }) k d := by
  refine hI.quiet (hI.slots.get hc) rfl ?_ rfl rfl rfl
  have hh : s.host h = .idle := by
    by_contra hne
    simp [hI.slots.lock.mpr hne] at hc
  rw [← hI.taken, hh]
  simp [Sys.setHost, HostPc.hand]

/-- The submitter's hand, at the desk. -/
theorem OnDesk.taken_eq (hI : OnDesk s h d) : d.taken = (s.host h).hand.head? := by
  rw [hI.taken]
  cases d.taken <;> rfl

theorem OnDesk.take {i : Nat} {free : List Nat} (hI : OnDesk s h d) (hh : s.host h = .locked)
    (hf : d.free = i :: free) :
    ∃ m, shmListRemove s.shm .free = some (i, m) ∧
      OnDesk (s.setHost h (.taken i) m) h { d with free := free, taken := some i } := by
  have hsl := hI.slots
  rw [hf] at hsl
  obtain ⟨m, em, hc, hm⟩ := hsl.take hh
  exact ⟨m, em, hm, fun x hx => (hc x.1).trans (hI.content x hx), by simp [Sys.setHost, HostPc.hand],
    hI.hand, hI.submitted, hI.accepted⟩

theorem OnDesk.put {i : Nat} (hI : OnDesk s h d) (hh : s.host h = .taken i) (cmd : HostCmd) :
    ∃ m, slotPtr i = some i ∧
      shmListAdd (setSlot s.shm i { s.shm.slot i with toHostCmd := cmd }) i .rdy = some m ∧
      OnDesk { s.setHost h .placed m with submitted := s.submitted ++ [cmd] } h
        { d with taken := none, rdy := d.rdy ++ [(i, cmd)], submitted := d.submitted ++ [cmd] } := by
  have hp : slotPtr i = some i := by
    simp [slotPtr, (hI.slots.hand (i := i) (by simp [hh, HostPc.hand])).1]
  obtain ⟨m, em, hi, hx, hm⟩ := hI.slots.put hh cmd
  refine ⟨m, hp, em, by simpa using hm, fun x hx' => ?_, by simp [Sys.setHost, HostPc.hand], hI.hand,
    by simp [hI.submitted], hI.accepted⟩
  rcases List.mem_append.mp hx' with hx' | hx'
  · exact (hx x.1 (List.mem_map_of_mem hx')).trans (hI.content x hx')
  · rw [List.mem_singleton.mp hx']
    exact hi

theorem OnDesk.host_step {a : HostAct} (hI : OnDesk s h d) (hs : hostStep s k a = some s') :
    DeskStep d (.host k a) s' := by
  cases hostStep_cases hs with
  | get hk e =>
    simp only [shmGet] at e
    split at e
    · cases e
    · rename_i hc
      cases e
      exact .inl ⟨k, hI.get (by simpa using hc)⟩
  | wait hk | sync hk | release hk =>
    obtain rfl := hI.slots.host_eq (k := k) (by simp [hk])
    exact .inl ⟨k, hI.leave (by simp [hk, HostPc.hand])⟩
  | take hk he e =>
    obtain rfl := hI.slots.host_eq (k := k) (by simp [hk])
    have ht : d.taken = none := by rw [hI.taken_eq, hk]; rfl
    cases hf : d.free with
    | nil =>
      have hfree := hI.slots.lists.freeL
      rw [hf] at hfree
      rw [Host.listEmpty_eq, hfree.empty_iff.mpr rfl] at he
      cases he
    | cons i free =>
      obtain ⟨m, em, hm⟩ := hI.take hk hf
      rw [Host.listRemove_eq] at e
      cases em.symm.trans e
      exact .inr ⟨.take, _, k, trivial, by simp [Desk.step, ht, hf], hm⟩
  | put hk hp e =>
    rename_i i slot m cmd
    obtain rfl := hI.slots.host_eq (k := k) (by simp [hk])
    have ht : d.taken = some i := by rw [hI.taken_eq, hk]; rfl
    obtain ⟨m', hp', em, hm⟩ := hI.put hk cmd
    cases hp'.symm.trans hp
    rw [Host.listAdd_eq] at e
    cases em.symm.trans e
    exact .inr ⟨.put cmd, _, k, rfl, by simp [Desk.step, ht], hm⟩

/-! ### The FTL thread -/

/-- A step of the FTL that leaves the segment and both hands alone. -/
theorem OnDesk.frame (hI : OnDesk s h d) (hm : s'.shm = s.shm) (hh : s'.host = s.host)
    (h1 : s'.ftl.onDesk = .empty) (h2 : s.ftl.onDesk = .empty) (h3 : s'.submitted = s.submitted)
    (h4 : s'.accs = s.accs) : OnDesk s' h d := by
  have hempty : ∀ pc : FtlPc, pc.onDesk = .empty → pc.hand = [] ∧ pc.cmds = [] := fun pc he => by
    cases pc <;> first | exact ⟨rfl, rfl⟩ | cases he
  obtain ⟨e1, e2⟩ := hempty _ h1
  obtain ⟨e3, e4⟩ := hempty _ h2
  refine hI.quiet (hI.slots.frame hm hh (e1.trans e3.symm) (e2.trans e4.symm) h3 h4) (by rw [hm]) ?_
    (h1.trans h2.symm) h3 h4
  rw [hh]
  exact hI.taken

theorem OnDesk.got {i : Nat} {x : Nat × HostCmd} {rdy : List (Nat × HostCmd)} (hI : OnDesk s h d)
    (hp : s.ftl = .poll i) (hc : s.shm.ctrl = false) (hr : d.rdy = x :: rdy) :
    ∃ m c, shmGetRdyList s.shm = some (some (x.1, c), m) ∧
      OnDesk { s with shm := m, ftl := .got i x.1 c } h { d with hand := .got x.1 x.2, rdy := rdy } := by
  have hsl := hI.slots
  rw [hr, List.map_cons] at hsl
  obtain ⟨m, c, e, hcmd, hx, hm⟩ := hsl.got hp hc
  have hc' : c.toHostCmd = x.2 := hcmd.trans (hI.content x (by simp [hr]))
  exact ⟨m, c, e, hm,
    fun y hy => (hx y.1).trans (hI.content y (by simp [hr, hy])), hI.taken, by simp [FtlPc.onDesk, hc'],
    hI.submitted, hI.accepted⟩

theorem OnDesk.accept {i j : Nat} {c : ShmCmd} (hI : OnDesk s h d) (hp : s.ftl = .got i j c) (n : Nat)
    (hcl : HcmdPool) :
    OnDesk (acceptInto s i j c.toHostCmd n hcl) h
      { d with hand := .free j, accepted := d.accepted ++ [(j, c.toHostCmd)] } := by
  have hlt : j < CMD_SLOT_NUM := by
    refine List.mem_range.mp (hI.slots.slots.mem_iff.mp ?_)
    simp [hp, FtlPc.hand]
  have htag : (UInt32.ofNat j).toNat = j := by
    unfold CMD_SLOT_NUM at hlt
    rw [UInt32.toNat_ofNat']
    omega
  refine ⟨hI.slots.accept hp, hI.content, hI.taken, rfl, hI.submitted, ?_⟩
  simp [acceptInto, ← hI.accepted, fillEntry, htag]

theorem OnDesk.refuse {i j : Nat} {c : ShmCmd} (hI : OnDesk s h d) (hp : s.ftl = .got i j c) :
    OnDesk { s with ftl := .put i j c } h { d with hand := .put j c.toHostCmd } := by
  refine ⟨?_, hI.content, hI.taken, rfl, hI.submitted, hI.accepted⟩
  exact hI.slots.frame rfl rfl (by simp [hp, FtlPc.hand]) (by simp [hp, FtlPc.cmds]) rfl rfl

theorem OnDesk.giveBack {i j : Nat} (hI : OnDesk s h d) (hp : s.ftl = .free i j)
    (hc : s.shm.ctrl = false) :
    ∃ m, shmAddFreeList s.shm j = some m ∧
      OnDesk { s with shm := m, ftl := .poll (i + 1) } h
        { d with hand := .empty, free := d.free ++ [j] } := by
  obtain ⟨m, e, hx, hm⟩ := hI.slots.returned hp hc
  exact ⟨m, e, hm,
    fun y hy => (hx y.1).trans (hI.content y hy), hI.taken, rfl, hI.submitted, hI.accepted⟩

theorem OnDesk.putBack {i j : Nat} {c : ShmCmd} (hI : OnDesk s h d) (hp : s.ftl = .put i j c)
    (hc : s.shm.ctrl = false) :
    ∃ m, shmAddRdyList s.shm j c = some m ∧
      OnDesk { s with shm := m, ftl := .poll (i + 1) } h
        { d with hand := .empty, rdy := d.rdy ++ [(j, c.toHostCmd)] } := by
  obtain ⟨m, e, hj, hx, hm⟩ := hI.slots.putBack hp hc
  refine ⟨m, e, by simpa using hm, fun y hy => ?_, hI.taken, rfl, hI.submitted, hI.accepted⟩
  rcases List.mem_append.mp hy with hy | hy
  · exact (hx y.1 (List.mem_map_of_mem hy)).trans (hI.content y hy)
  · rw [List.mem_singleton.mp hy]
    exact hj

/-- With the lock free where it is needed, the FTL has a next state, at the
same desk or one step further. -/
theorem OnDesk.ftl_step (hI : OnDesk s h d) (mb : BitVec 32)
    (hc : s.ftl.usesLock = true → s.shm.ctrl = false) :
    ∃ s', ftlStep mb s = some s' ∧ DeskStep d .ftl s' := by
  have hafter : ∀ q, (FtlPc.after q).onDesk = .empty := fun q => by cases q <;> rfl
  unfold ftlStep
  split
  · rename_i i hp
    have hempty : s.ftl.onDesk = .empty := by rw [hp]; rfl
    split
    · rename_i hi
      replace hc := hc (by simpa [hp, FtlPc.usesLock] using hi)
      cases hr : d.rdy with
      | nil =>
        have hsl := hI.slots
        rw [hr] at hsl
        rw [shmGetRdyList_nil hsl.lists hc]
        exact ⟨_, rfl, .inl ⟨h, hI.frame rfl rfl rfl hempty rfl rfl⟩⟩
      | cons x rdy =>
        have hh : d.hand = .empty := hI.hand.symm.trans hempty
        obtain ⟨m, c, e, hm⟩ := hI.got hp hc hr
        rw [e]
        exact ⟨_, rfl, .inr ⟨.get, _, h, trivial, by simp [Desk.step, hh, hr], hm⟩⟩
    · exact ⟨_, rfl, .inl ⟨h, hI.frame rfl rfl rfl hempty rfl rfl⟩⟩
  · rename_i i j c hp
    have hh : d.hand = .got j c.toHostCmd := by rw [← hI.hand, hp]; rfl
    split
    · exact ⟨_, rfl, .inr ⟨.accept, _, h, trivial, by simp [Desk.step, hh], hI.accept hp _ _⟩⟩
    · exact ⟨_, rfl, .inr ⟨.refuse, _, h, trivial, by simp [Desk.step, hh], hI.refuse hp⟩⟩
  · rename_i i j hp
    have hh : d.hand = .free j := by rw [← hI.hand, hp]; rfl
    obtain ⟨m, e, hm⟩ := hI.giveBack hp (hc (by simp [hp, FtlPc.usesLock]))
    rw [e]
    exact ⟨_, rfl, .inr ⟨.giveBack, _, h, trivial, by simp [Desk.step, hh], hm⟩⟩
  · rename_i i j c hp
    have hh : d.hand = .put j c.toHostCmd := by rw [← hI.hand, hp]; rfl
    obtain ⟨m, e, hm⟩ := hI.putBack hp (hc (by simp [hp, FtlPc.usesLock]))
    rw [e]
    exact ⟨_, rfl, .inr ⟨.putBack, _, h, trivial, by simp [Desk.step, hh], hm⟩⟩
  · rename_i q hp
    exact ⟨_, rfl, .inl ⟨h, hI.frame rfl rfl rfl (by rw [hp]; rfl) rfl rfl⟩⟩
  · rename_i q cnt j hp
    split
    · split
      split <;> exact ⟨_, rfl, .inl ⟨h, hI.frame rfl rfl rfl (by rw [hp]; rfl) rfl rfl⟩⟩
    · exact ⟨_, rfl, .inl ⟨h, hI.frame rfl rfl (hafter q) (by rw [hp]; rfl) rfl rfl⟩⟩
  · rename_i hp
    exact ⟨_, rfl, .inl ⟨h, hI.frame rfl rfl rfl (by rw [hp]; rfl) rfl rfl⟩⟩
  · rename_i hp
    split
    · exact ⟨_, rfl, .inl ⟨h, hI.frame rfl rfl rfl (by rw [hp]; rfl) rfl rfl⟩⟩
    · exact ⟨_, rfl, .inl ⟨h, hI.frame rfl rfl (by rw [hp]; rfl) (by rw [hp]; rfl) rfl rfl⟩⟩

theorem OnDesk.be_step (hI : OnDesk s h d) (hs : beStep s = some s') : OnDesk s' h d := by
  cases beStep_cases hs <;>
    exact hI.quiet (hI.slots.frame rfl rfl rfl rfl rfl rfl) rfl hI.taken rfl rfl rfl

/-- **The shared memory refines the desk.** -/
theorem OnDesk.step {mb : BitVec 32} {l : Lbl} (hI : OnDesk s h d) (hs : step mb s l = some s') :
    DeskStep d l s' := by
  cases l with
  | host k a => exact hI.host_step hs
  | ftl =>
    have hc : s.ftl.usesLock = true → s.shm.ctrl = false := fun hu => by
      by_contra hc
      have hn := ftlStep_locked mb hu (by simpa using hc)
      exact absurd (hn.symm.trans hs) (by simp)
    obtain ⟨s'', e, hI'⟩ := hI.ftl_step mb hc
    obtain rfl : s' = s'' := Option.some.inj (hs.symm.trans e)
    exact hI'
  | be => exact .inl ⟨h, hI.be_step hs⟩

/-- The desk a state is at. -/
theorem Slots.onDesk {free rdy : List Nat} (hI : Slots s free rdy h) :
    OnDesk s h ⟨free, rdy.map fun i => (i, Pipeline.content s.shm i), (s.host h).hand.head?,
      s.ftl.onDesk, s.submitted, s.accs.map fun a => (a.entry.nvmeCmdSlot.toNat, a.cmd)⟩ := by
  refine ⟨?_, fun x hx => ?_, ?_, rfl, rfl, rfl⟩
  · simpa [Function.comp_def] using hI
  · obtain ⟨i, -, rfl⟩ := List.mem_map.mp hx
    rfl
  · show (s.host h).hand = (s.host h).hand.head?.toList
    cases s.host h <;> rfl

theorem DeskStep.slots {l : Lbl} (h : DeskStep d l s') : ∃ free rdy h, Slots s' free rdy h := by
  rcases h with ⟨k, hk⟩ | ⟨a, d', k, -, -, hk⟩
  · exact ⟨_, _, k, hk.slots⟩
  · exact ⟨_, _, k, hk.slots⟩

theorem slots_init {m : Shm} (hm : shmInit = some m) :
    Slots (.init m) (List.range CMD_SLOT_NUM) [] .fe := by
  obtain ⟨m', e, hl, hc⟩ := shmInit_spec
  obtain rfl : m = m' := Option.some.inj (hm.symm.trans e)
  exact ⟨hl, fun _ _ => rfl, by simp [Sys.init, hc], by simp [Sys.init, HostPc.hand, FtlPc.hand],
    by simp [Sys.init, FtlPc.cmds], by simp [Sys.init]⟩

end

/-- **The slot invariant holds in every interleaving.** -/
theorem slots_inv (mb : BitVec 32) : (sys mb).Inductive fun s => ∃ free rdy h, Slots s free rdy h where
  init := by
    intro s hstart
    obtain ⟨m, hm, rfl⟩ := hstart
    exact ⟨_, [], .fe, slots_init hm⟩
  step := by
    intro s l s' hx hs
    obtain ⟨free, rdy, h, hI⟩ := hx
    exact (hI.onDesk.step hs).slots

/-- Who can have a slot. -/
inductive Owner | free | rdy | host (h : Host) | ftl
  deriving DecidableEq, Repr

/-- `free` and `rdy` are what the two lists hold. -/
def Sys.has (s : Sys) (free rdy : List Nat) : Owner → Nat → Prop
  | .free, i => i ∈ free
  | .rdy, i => i ∈ rdy
  | .host h, i => s.host h = .taken i
  | .ftl, i => i ∈ s.ftl.hand

section
variable {mb : BitVec 32} {s : Sys}

/-- Nobody has a slot somebody else has. -/
theorem Slots.has_unique {free rdy : List Nat} {h : Host} (hI : Slots s free rdy h) {i : Nat}
    (hi : i < CMD_SLOT_NUM) : ∃! o, s.has free rdy o i := by
  have hm : i ∈ free ++ rdy ++ (s.host h).hand ++ s.ftl.hand :=
    hI.slots.mem_iff.mpr (List.mem_range.mpr hi)
  have hd := hI.nodup
  have hh : ∀ k, s.has free rdy (.host k) i ↔ k = h ∧ i ∈ (s.host h).hand := fun k => by
    constructor
    · intro (hk : s.host k = .taken i)
      obtain rfl := hI.host_eq (k := k) (by simp [hk])
      exact ⟨rfl, by simp [hk, HostPc.hand]⟩
    · intro hx
      obtain ⟨rfl, hk⟩ := hx
      show s.host k = .taken i
      cases e : s.host k with
      | taken j => simp_all [HostPc.hand]
      | _ => simp [e, HostPc.hand] at hk
  simp only [List.nodup_append, List.mem_append] at hd hm
  rcases hm with ((hm | hm) | hm) | hm
  · refine ⟨.free, hm, fun o ho => ?_⟩
    cases o with
    | free => rfl
    | rdy => exact absurd rfl (hd.1.1.2.2 i hm i ho)
    | host k => exact absurd rfl (hd.1.2.2 i (.inl hm) i ((hh k).mp ho).2)
    | ftl => exact absurd rfl (hd.2.2 i (.inl (.inl hm)) i ho)
  · refine ⟨.rdy, hm, fun o ho => ?_⟩
    cases o with
    | free => exact absurd rfl (hd.1.1.2.2 i ho i hm)
    | rdy => rfl
    | host k => exact absurd rfl (hd.1.2.2 i (.inr hm) i ((hh k).mp ho).2)
    | ftl => exact absurd rfl (hd.2.2 i (.inl (.inr hm)) i ho)
  · refine ⟨.host h, (hh h).mpr ⟨rfl, hm⟩, fun o ho => ?_⟩
    cases o with
    | free => exact absurd rfl (hd.1.2.2 i (.inl ho) i hm)
    | rdy => exact absurd rfl (hd.1.2.2 i (.inr ho) i hm)
    | host k => rw [((hh k).mp ho).1]
    | ftl => exact absurd rfl (hd.2.2 i (.inr hm) i ho)
  · refine ⟨.ftl, hm, fun o ho => ?_⟩
    cases o with
    | free => exact absurd rfl (hd.2.2 i (.inl (.inl ho)) i hm)
    | rdy => exact absurd rfl (hd.2.2 i (.inl (.inr ho)) i hm)
    | host k => exact absurd rfl (hd.2.2 i (.inr ((hh k).mp ho).2) i hm)
    | ftl => rfl

/-- **Slot conservation.** -/
theorem slot_conservation (hr : (sys mb).Reachable s) :
    ∃ free rdy, WellFormed s.shm .free free ∧ WellFormed s.shm .rdy rdy ∧ WellFormed s.shm .proc [] ∧
      ∀ i, i < CMD_SLOT_NUM → ∃! o, s.has free rdy o i := by
  obtain ⟨free, rdy, h, hI⟩ := (slots_inv mb).reachable s hr
  exact ⟨free, rdy, hI.lists.freeL.wellFormed, hI.lists.rdyL.wellFormed, hI.lists.procL.wellFormed,
    fun i hi => hI.has_unique hi⟩

end

/-- Slot 0 is in the FTL's hands while two more commands wait. -/
def waitingSchedule : List Lbl :=
  submit 0 ⟨SHM_WRITE_OPS, 4, 16384⟩ ++ submit 1 ⟨SHM_READ_OPS, 8, 4096⟩ ++ submit 0 ⟨7, 0, 0⟩ ++ [.ftl]

theorem slot_conservation_waiting : ∃ s, (sys 0).Reachable s ∧ s.ftl.hand = [0] ∧
    ∃ free rdy, WellFormed s.shm .free free ∧ WellFormed s.shm .rdy rdy ∧ s.has free rdy .ftl 0 := by
  obtain ⟨s, hr, hs⟩ := exists_run 0 (P := fun s => decide (s.ftl.hand = [0]))
    waitingSchedule (by decide +kernel)
  have hh : s.ftl.hand = [0] := by simpa using hs
  obtain ⟨free, rdy, hf, hy, -, -⟩ := slot_conservation hr
  exact ⟨s, hr, hh, free, rdy, hf, hy, by simp [Sys.has, hh]⟩

section
variable {mb : BitVec 32} {s : Sys}

/-- **Exactly-once delivery.** -/
theorem delivered_once (hr : (sys mb).Reachable s) :
    ∃ rdy, WellFormed s.shm .rdy rdy ∧
      s.submitted.Perm (rdy.map (content s.shm) ++ s.ftl.cmds ++ s.accs.map fun a => a.cmd) ∧
      ∀ a ∈ s.accs, a.Holds := by
  obtain ⟨free, rdy, h, hI⟩ := (slots_inv mb).reachable s hr
  exact ⟨rdy, hI.lists.rdyL.wellFormed, hI.delivered, hI.holds⟩

end

theorem delivered_once_waiting : ∃ s, (sys 0).Reachable s ∧ s.submitted.length = 3 ∧ s.ftl.cmds.length = 1 ∧
    ∃ rdy, WellFormed s.shm .rdy rdy ∧ rdy.length = 2 := by
  obtain ⟨s, hr, hs⟩ := exists_run 0
    (P := fun s => decide (s.submitted.length = 3) && decide (s.ftl.cmds.length = 1) && s.accs.isEmpty)
    waitingSchedule (by decide +kernel)
  simp only [Bool.and_eq_true, decide_eq_true_eq, List.isEmpty_iff] at hs
  obtain ⟨⟨h1, h2⟩, h3⟩ := hs
  obtain ⟨rdy, hw, hp, -⟩ := delivered_once hr
  have := hp.length_eq
  simp only [List.length_append, List.length_map, h1, h2, h3, List.length_nil] at this
  exact ⟨s, hr, h1, h2, rdy, hw, by omega⟩

section
variable {mb : BitVec 32} {s : Sys}

/-- **No fault in the FTL**: whenever no submitter holds the lock it has a
next step. -/
theorem ftl_progress (hr : (sys mb).Reachable s) (hc : s.shm.ctrl = false) :
    ∃ s', step mb s .ftl = some s' := by
  obtain ⟨free, rdy, h, hI⟩ := (slots_inv mb).reachable s hr
  obtain ⟨s', e, -⟩ := hI.onDesk.ftl_step mb fun _ => hc
  exact ⟨s', e⟩

/-- **No fault in a submitter** that has taken a slot. -/
theorem put_progress {k : Host} {i : Nat} (hr : (sys mb).Reachable s) (hk : s.host k = .taken i)
    (cmd : HostCmd) :
    ∃ s', step mb s (.host k (.put cmd)) = some s' := by
  obtain ⟨free, rdy, h, hI⟩ := (slots_inv mb).reachable s hr
  have e := hI.host_eq (k := k) (by simp [hk])
  subst e
  obtain ⟨m, hp, em, -⟩ := hI.onDesk.put hk cmd
  simp [step, hostStep, hk, Host.listAdd_eq, hp, em]

end

end OpenSSDEmu.L4.Pipeline
