import OpenSSDEmu.Core.Links

/-!
# The command slots in shared memory

`emu/fe/shmem.h` and `emu/fe/shmem.c`. The host and the FTL run in two
processes, so the three slot lists are linked by index: a slot and a list
head hold `next` and `prev` indices, and `CMD_SLOT_NUM` stands for "no
slot". Reading that index as the name of the list head turns each of them
into a circular list (`nx`, `pv`, `IsList`), which is how the lemmas of
`Core.Links` apply.

Every access happens between `shm_get` and `shm_release` (`CTRL_BYTE`). A
function below returns `none` when it dereferences the null pointer that
`SHM_SLOT(CMD_SLOT_NUM)` is, or when it would spin on the lock.

* `shmListAdd_spec`, `shmListRemove_spec`: add at the tail, take from the
  head, with the frame both leave alone.
* `shmInit_spec`: the layout `SHM_init` leaves.
* `shmGetRdyList_spec`, `shmAddRdyList_spec`, `shmAddFreeList_spec`: the
  three sections the FTL runs.
-/
namespace OpenSSDEmu.L2.Shmem
open Links

/-- mirrors src/emu/fe/shmem.h:7 -/
def CMD_SLOT_NUM : Nat := 256

/-- mirrors src/emu/fe/shmem.h:9 -/
def HOST_BLOCK_SIZE : UInt32 := 4 * 1024

/-- mirrors src/emu/fe/shmem.h:11-12 -/
def SHM_READ_OPS : UInt32 := 1
def SHM_WRITE_OPS : UInt32 := 2

/-- What a submitter writes into a slot. -/
structure HostCmd where
  ops : UInt32
  lpn : UInt32
  size : UInt32
  deriving DecidableEq, Repr

/-- mirrors src/emu/fe/shmem.h:26-34 (`shm_cmd`) -/
structure ShmCmd extends HostCmd where
  next : Nat
  prev : Nat
  deriving DecidableEq, Repr

/-- mirrors src/emu/fe/shmem.h:20-24 (`shm_list`) -/
structure ShmList where
  next : Nat
  prev : Nat
  deriving DecidableEq, Repr

/-- mirrors src/emu/fe/shmem.h:52-57 (`LIST_TYPE`) -/
inductive ListType | free | rdy | proc
  deriving DecidableEq, Repr

/-- The shared segment; `ctrl` is `*CTRL_BYTE != 0`. -/
structure Shm where
  slot : Nat → ShmCmd
  head : ListType → ShmList
  ctrl : Bool

/-! ## Single stores -/

def setSlot (m : Shm) (i : Nat) (c : ShmCmd) : Shm :=
  { m with slot := fun j => if j = i then c else m.slot j }

def setHead (m : Shm) (l : ListType) (h : ShmList) : Shm :=
  { m with head := fun k => if k = l then h else m.head k }

def setSlotNext (m : Shm) (i v : Nat) : Shm := setSlot m i { m.slot i with next := v }
def setSlotPrev (m : Shm) (i v : Nat) : Shm := setSlot m i { m.slot i with prev := v }
def setHeadNext (m : Shm) (l : ListType) (v : Nat) : Shm := setHead m l { m.head l with next := v }
def setHeadPrev (m : Shm) (l : ListType) (v : Nat) : Shm := setHead m l { m.head l with prev := v }

section Stores
variable (m : Shm) (i j v : Nat) (l k : ListType)

@[simp] theorem setSlotNext_next :
    ((setSlotNext m i v).slot j).next = if j = i then v else (m.slot j).next := by
  simp only [setSlotNext, setSlot]; split <;> simp_all
@[simp] theorem setSlotNext_prev : ((setSlotNext m i v).slot j).prev = (m.slot j).prev := by
  simp only [setSlotNext, setSlot]; split <;> simp_all
@[simp] theorem setSlotNext_content :
    ((setSlotNext m i v).slot j).toHostCmd = (m.slot j).toHostCmd := by
  simp only [setSlotNext, setSlot]; split <;> simp_all
@[simp] theorem setSlotPrev_prev :
    ((setSlotPrev m i v).slot j).prev = if j = i then v else (m.slot j).prev := by
  simp only [setSlotPrev, setSlot]; split <;> simp_all
@[simp] theorem setSlotPrev_next : ((setSlotPrev m i v).slot j).next = (m.slot j).next := by
  simp only [setSlotPrev, setSlot]; split <;> simp_all
@[simp] theorem setSlotPrev_content :
    ((setSlotPrev m i v).slot j).toHostCmd = (m.slot j).toHostCmd := by
  simp only [setSlotPrev, setSlot]; split <;> simp_all
@[simp] theorem setSlotNext_head : (setSlotNext m i v).head = m.head := rfl
@[simp] theorem setSlotPrev_head : (setSlotPrev m i v).head = m.head := rfl
@[simp] theorem setHeadNext_slot : (setHeadNext m l v).slot = m.slot := rfl
@[simp] theorem setHeadPrev_slot : (setHeadPrev m l v).slot = m.slot := rfl
@[simp] theorem setHeadNext_next :
    ((setHeadNext m l v).head k).next = if k = l then v else (m.head k).next := by
  simp only [setHeadNext, setHead]; split <;> simp_all
@[simp] theorem setHeadNext_prev : ((setHeadNext m l v).head k).prev = (m.head k).prev := by
  simp only [setHeadNext, setHead]; split <;> simp_all
@[simp] theorem setHeadPrev_prev :
    ((setHeadPrev m l v).head k).prev = if k = l then v else (m.head k).prev := by
  simp only [setHeadPrev, setHead]; split <;> simp_all
@[simp] theorem setHeadPrev_next : ((setHeadPrev m l v).head k).next = (m.head k).next := by
  simp only [setHeadPrev, setHead]; split <;> simp_all
@[simp] theorem setSlotNext_ctrl : (setSlotNext m i v).ctrl = m.ctrl := rfl
@[simp] theorem setSlotPrev_ctrl : (setSlotPrev m i v).ctrl = m.ctrl := rfl
@[simp] theorem setHeadNext_ctrl : (setHeadNext m l v).ctrl = m.ctrl := rfl
@[simp] theorem setHeadPrev_ctrl : (setHeadPrev m l v).ctrl = m.ctrl := rfl

end Stores

theorem ShmCmd.ext_links {c d : ShmCmd} (h1 : c.toHostCmd = d.toHostCmd) (h2 : c.next = d.next)
    (h3 : c.prev = d.prev) : c = d := by
  cases c; cases d; simp_all

theorem ShmList.ext_links {c d : ShmList} (h1 : c.next = d.next) (h2 : c.prev = d.prev) : c = d := by
  cases c; cases d; simp_all

/-! ## The list functions -/

/-- `SHM_SLOT(n)` as a pointer: `none` = `NULL`.
mirrors src/emu/fe/shmem.h:65 -/
def slotPtr (n : Nat) : Option Nat := if n = CMD_SLOT_NUM then none else some n

/-- mirrors src/emu/fe/shmem.h:88-111 -/
def shmListEmpty (m : Shm) (l : ListType) : Bool := (m.head l).next == CMD_SLOT_NUM

/-- mirrors src/emu/fe/shmem.h:113-150 -/
def shmListAdd (m : Shm) (i : Nat) (l : ListType) : Option Shm :=
  if shmListEmpty m l then do
    let slot ← slotPtr i
    let m := setSlotNext m slot (m.head l).next
    let m := setHeadNext m l i
    let m := setSlotPrev m slot (m.head l).prev
    return setHeadPrev m l i
  else do
    let slot ← slotPtr i
    let slotTail ← slotPtr (m.head l).prev
    let m := setSlotPrev m slot (m.head l).prev
    let m := setHeadPrev m l i
    let m := setSlotNext m slot (m.slot slotTail).next
    return setSlotNext m slotTail i

/-- Returns the removed index (`CMD_SLOT_NUM` from an empty list).
mirrors src/emu/fe/shmem.h:152-190 -/
def shmListRemove (m : Shm) (l : ListType) : Option (Nat × Shm) :=
  if shmListEmpty m l then some (CMD_SLOT_NUM, m)
  else do
    let i := (m.head l).next
    let slotRemove ← slotPtr i
    -- only one in list
    if (m.slot slotRemove).next = CMD_SLOT_NUM then
      let m := setHeadPrev m l CMD_SLOT_NUM
      return (i, setHeadNext m l CMD_SLOT_NUM)
    else
      let slotHead ← slotPtr (m.slot slotRemove).next
      let m := setSlotPrev m slotHead (m.slot slotRemove).prev
      return (i, setHeadNext m l (m.slot slotRemove).next)

/-- The host's copies of the three list functions, compiled for the 64-bit
fio process; statement by statement the same as the device's.
mirrors src/emu/fe/shmem.h:205-310 -/
def shmListEmptyX64 (m : Shm) (l : ListType) : Bool := shmListEmpty m l
def shmListAddX64 (m : Shm) (i : Nat) (l : ListType) : Option Shm := shmListAdd m i l
def shmListRemoveX64 (m : Shm) (l : ListType) : Option (Nat × Shm) := shmListRemove m l

/-- One successful `__sync_lock_test_and_set`; `none` = still spinning.
mirrors src/emu/fe/shmem.h:80-87 -/
def shmGet (m : Shm) : Option Shm := if m.ctrl then none else some { m with ctrl := true }
def shmRelease (m : Shm) : Shm := { m with ctrl := false }

/-- The segment after `memset` and the three head initialisations. -/
def shmZero : Shm where
  slot _ := ⟨⟨0, 0, 0⟩, 0, 0⟩
  head _ := ⟨CMD_SLOT_NUM, CMD_SLOT_NUM⟩
  ctrl := false

/-- mirrors src/emu/fe/shmem.c:55-70 -/
def shmInit : Option Shm :=
  (List.range CMD_SLOT_NUM).foldlM (fun m i => shmListAdd m i .free) shmZero

/-- The inner `none` is `*pindex = CMD_SLOT_NUM`; the copy taken by `memcpy`
includes the slot's links.
mirrors src/emu/fe/shmem.c:89-115 -/
def shmGetRdyList (m : Shm) : Option (Option (Nat × ShmCmd) × Shm) := do
  let m ← shmGet m
  if shmListEmpty m .rdy then return (none, shmRelease m)
  else
    let (i, m) ← shmListRemove m .rdy
    let cmd ← slotPtr i
    return (some (i, m.slot cmd), shmRelease m)

/-- mirrors src/emu/fe/shmem.c:117-127 -/
def shmAddRdyList (m : Shm) (i : Nat) (scmd : ShmCmd) : Option Shm := do
  let m ← shmGet m
  let cmd ← slotPtr i
  let m := setSlot m cmd scmd
  let m ← shmListAdd m i .rdy
  return shmRelease m

/-- mirrors src/emu/fe/shmem.c:129-133 -/
def shmAddFreeList (m : Shm) (i : Nat) : Option Shm := do
  let m ← shmGet m
  let m ← shmListAdd m i .free
  return shmRelease m

/-- No list function touches the lock. -/
theorem shmListAdd_ctrl {m m' : Shm} {i : Nat} {l : ListType} (h : shmListAdd m i l = some m') :
    m'.ctrl = m.ctrl := by
  unfold shmListAdd at h
  split at h
  · simp only [Option.bind_eq_bind, Option.bind_eq_some_iff, Option.pure_def] at h
    obtain ⟨slot, -, h⟩ := h
    cases h
    rfl
  · simp only [Option.bind_eq_bind, Option.bind_eq_some_iff, Option.pure_def] at h
    obtain ⟨slot, -, tail, -, h⟩ := h
    cases h
    rfl

theorem shmListRemove_ctrl {m m' : Shm} {i : Nat} {l : ListType}
    (h : shmListRemove m l = some (i, m')) : m'.ctrl = m.ctrl := by
  unfold shmListRemove at h
  split at h
  · cases h
    rfl
  · simp only [Option.bind_eq_bind, Option.bind_eq_some_iff, Option.pure_def] at h
    obtain ⟨slot, -, h⟩ := h
    split at h
    · cases h
      rfl
    · obtain ⟨head, -, h⟩ := Option.bind_eq_some_iff.mp h
      cases h
      rfl

/-! ## The lists a segment holds -/

/-- The `next` links of list `l`, the head being named by `CMD_SLOT_NUM`. -/
def nx (m : Shm) (l : ListType) (i : Nat) : Option Nat :=
  some (if i = CMD_SLOT_NUM then (m.head l).next else (m.slot i).next)

def pv (m : Shm) (l : ListType) (i : Nat) : Option Nat :=
  some (if i = CMD_SLOT_NUM then (m.head l).prev else (m.slot i).prev)

def IsList (m : Shm) (l : ListType) (xs : List Nat) : Prop := Circ (nx m l) (pv m l) CMD_SLOT_NUM xs

theorem IsList.congr {m m' : Shm} {l : ListType} {xs : List Nat} (h : IsList m l xs)
    (hh : m'.head l = m.head l)
    (hs : ∀ i ∈ xs, (m'.slot i).next = (m.slot i).next ∧ (m'.slot i).prev = (m.slot i).prev) :
    IsList m' l xs := by
  refine Circ.congr h (fun a ha => ?_) fun a ha => ?_ <;>
    rcases List.mem_cons.mp ha with rfl | ha <;> simp only [nx, pv, hh, if_true] <;>
    split <;> simp_all

theorem IsList.empty_iff {m : Shm} {l : ListType} {xs : List Nat} (h : IsList m l xs) :
    shmListEmpty m l = true ↔ xs = [] := by
  rw [← Circ.empty_iff h]; simp [shmListEmpty, nx]

theorem slotPtr_of_mem {m : Shm} {l : ListType} {xs : List Nat} (h : IsList m l xs) {i : Nat}
    (hi : i ∈ xs) : slotPtr i = some i := by
  have hne : i ≠ CMD_SLOT_NUM := by
    intro heq
    subst heq
    exact Circ.head_notMem h hi
  simp [slotPtr, hne]

/-- What walking list `l` from its head shows: the slots `xs` in order,
without repetition, ending at `CMD_SLOT_NUM` both ways. -/
structure WellFormed (m : Shm) (l : ListType) (xs : List Nat) : Prop where
  nodup : xs.Nodup
  forward : Visits (fun i => some (m.slot i).next) CMD_SLOT_NUM (some (m.head l).next) xs
  last : (m.head l).prev = xs.getLastD CMD_SLOT_NUM
  backward : Visits (fun i => some (m.slot i).prev) CMD_SLOT_NUM (some (m.head l).prev) xs.reverse

theorem IsList.wellFormed {m : Shm} {l : ListType} {xs : List Nat} (h : IsList m l xs) :
    WellFormed m l xs := by
  refine ⟨Circ.nodup_tail h, ?_, ?_, ?_⟩
  · have hv : Visits (nx m l) CMD_SLOT_NUM (some (m.head l).next) xs := by
      simpa [nx] using Circ.visits_next h
    exact hv.congr fun a ha => by simp [nx, ha]
  · simpa [pv] using Circ.last h
  · have hv : Visits (pv m l) CMD_SLOT_NUM (some (m.head l).prev) xs.reverse := by
      simpa [pv] using Circ.visits_prev h
    exact hv.congr fun a ha => by simp [pv, ha]

/-- What an operation on list `l` leaves alone: the slots outside `xs`, the
content of every slot, the other heads and the lock. -/
structure Frame (m m' : Shm) (l : ListType) (xs : List Nat) : Prop where
  slot : ∀ j, j ∉ xs → m'.slot j = m.slot j
  content : ∀ j, (m'.slot j).toHostCmd = (m.slot j).toHostCmd
  head : ∀ k, k ≠ l → m'.head k = m.head k
  ctrl : m'.ctrl = m.ctrl

/-- A list that shares no slot with the one operated on is still there. -/
theorem Frame.isList {m m' : Shm} {l k : ListType} {xs ys : List Nat} (f : Frame m m' l xs)
    (h : IsList m k ys) (hk : k ≠ l) (hd : ∀ i ∈ ys, i ∉ xs) : IsList m' k ys :=
  h.congr (f.head k hk) fun i hi => by rw [f.slot i (hd i hi)]; exact ⟨rfl, rfl⟩

/-! ## Specifications -/

/-- A frame from what happens to the links alone. -/
theorem Frame.of_links {m m' : Shm} {l : ListType} {xs : List Nat}
    (hc : ∀ j, (m'.slot j).toHostCmd = (m.slot j).toHostCmd)
    (hs : ∀ j, j ∉ xs → (m'.slot j).next = (m.slot j).next ∧ (m'.slot j).prev = (m.slot j).prev)
    (hh : ∀ k, k ≠ l → (m'.head k).next = (m.head k).next ∧ (m'.head k).prev = (m.head k).prev)
    (hl : m'.ctrl = m.ctrl) : Frame m m' l xs :=
  ⟨fun j hj => ShmCmd.ext_links (hc j) (hs j hj).1 (hs j hj).2, hc,
    fun k hk => ShmList.ext_links (hh k hk).1 (hh k hk).2, hl⟩

section
variable {m : Shm} {l : ListType} {xs : List Nat} {i : Nat}

/-- Appending a slot that is in no list. -/
theorem shmListAdd_spec (h : IsList m l xs) (hi : i ≠ CMD_SLOT_NUM) (hx : i ∉ xs) :
    ∃ m', shmListAdd m i l = some m' ∧ IsList m' l (xs ++ [i]) ∧ Frame m m' l (i :: xs) := by
  have hp : slotPtr i = some i := by simp [slotPtr, hi]
  have hlast := Circ.last h
  have hin : i ∉ CMD_SLOT_NUM :: (xs ++ []) := by simp [hi, hx]
  unfold shmListAdd
  by_cases he : shmListEmpty m l = true
  · -- empty list: both links of the head and of the slot are written
    have hxs := h.empty_iff.mp he
    subst hxs
    have hn : (m.head l).next = CMD_SLOT_NUM := by simpa [shmListEmpty] using he
    have hpv : (m.head l).prev = CMD_SLOT_NUM := by simpa [pv] using hlast
    simp only [he, if_true, hp, Option.bind_eq_bind, Option.bind_some, Option.pure_def]
    refine ⟨_, rfl, ?_, ?_⟩
    · refine Circ.insert (l := []) (r := []) h hin ?_ ?_ ?_ ?_ ?_ ?_ <;> simp_all [nx, pv]
    · refine Frame.of_links ?_ ?_ ?_ ?_ <;> simp_all
  · have hxs : xs ≠ [] := fun e => he (h.empty_iff.mpr e)
    obtain ⟨ys, t, rfl⟩ := List.eq_nil_or_concat' xs |>.resolve_left hxs
    have ht : (m.head l).prev = t := by simpa [pv] using hlast
    have htp := slotPtr_of_mem h (i := t) (by simp)
    have htc : t ≠ CMD_SLOT_NUM := by
      intro heq
      subst heq
      simp [slotPtr] at htp
    have htn : (m.slot t).next = CMD_SLOT_NUM := by
      simpa [nx, htc] using Circ.next_of_mem (r := []) h
    have hti : t ≠ i := by
      intro heq
      subst heq
      simp at hx
    simp only [he, hp, ht, htp, Option.bind_eq_bind, Option.bind_some, Option.pure_def]
    have e : (ys ++ [t]).getLastD CMD_SLOT_NUM = t := List.getLastD_concat
    have h' : IsList m l ((ys ++ [t]) ++ []) := by simpa using h
    refine ⟨_, rfl, ?_, ?_⟩
    · refine Circ.insert (l := ys ++ [t]) (r := []) h' hin ?_ ?_ ?_ ?_ ?_ ?_ <;>
        simp only [e, List.headD_nil] <;> simp_all [nx, pv]
    · refine Frame.of_links ?_ ?_ ?_ ?_ <;> simp_all

/-- Taking the first slot of a list. Its links stay as they were. -/
theorem shmListRemove_spec (h : IsList m l (i :: xs)) :
    ∃ m', shmListRemove m l = some (i, m') ∧ IsList m' l xs ∧ Frame m m' l xs := by
  have he : ¬ shmListEmpty m l = true := fun e => by cases h.empty_iff.mp e
  have hf : (m.head l).next = i := by simpa [nx] using Circ.first h
  have hp := slotPtr_of_mem h (i := i) (by simp)
  have hic : i ≠ CMD_SLOT_NUM := by
    intro heq
    subst heq
    simp [slotPtr] at hp
  have hin : (m.slot i).next = xs.headD CMD_SLOT_NUM := by
    simpa [nx, hic] using Circ.next_of_mem (l := []) h
  have hip : (m.slot i).prev = CMD_SLOT_NUM := by
    simpa [pv, hic] using Circ.prev_of_mem (l := []) h
  have hc : CMD_SLOT_NUM ∉ i :: xs := Circ.head_notMem h
  simp only [shmListRemove, he, hf, hp, Option.bind_eq_bind, Option.bind_some, Option.pure_def]
  cases xs with
  | nil =>
    simp only [hin, List.headD_nil, if_true]
    refine ⟨_, rfl, Circ.nil (by simp [nx]) (by simp [pv]), ?_⟩
    refine Frame.of_links ?_ ?_ ?_ ?_ <;> simp_all
  | cons q xs =>
    have hqc : q ≠ CMD_SLOT_NUM := by
      intro heq
      subst heq
      simp at hc
    have hqp : slotPtr q = some q := by simp [slotPtr, hqc]
    have hiq : i ≠ q := by
      intro heq
      subst heq
      have := Circ.nodup_tail h
      simp at this
    simp only [hin, List.headD_cons, hqc, if_false, hqp, Option.bind_some]
    refine ⟨_, rfl, ?_, ?_⟩
    · refine Circ.remove (l := []) h ?_ ?_ ?_ ?_ <;> simp_all [nx, pv]
    · refine Frame.of_links ?_ ?_ ?_ ?_ <;> simp_all

end

/-! ## The segment as two lists of slots -/

/-- The segment holds the FREE list `free` and the RDY list `rdy`; the PROC
list is empty and no slot is in both. -/
structure Lists (m : Shm) (free rdy : List Nat) : Prop where
  freeL : IsList m .free free
  rdyL : IsList m .rdy rdy
  procL : IsList m .proc []
  disj : ∀ i ∈ free, i ∉ rdy

/-- No slot content and not the lock changed. -/
structure Same (m m' : Shm) : Prop where
  content : ∀ j, (m'.slot j).toHostCmd = (m.slot j).toHostCmd
  ctrl : m'.ctrl = m.ctrl

theorem Frame.same {m m' : Shm} {l : ListType} {xs : List Nat} (f : Frame m m' l xs) : Same m m' :=
  ⟨f.content, f.ctrl⟩

section
variable {m : Shm} {free rdy : List Nat} {i : Nat}

theorem Lists.add_free (h : Lists m free rdy) (hi : i ≠ CMD_SLOT_NUM) (hf : i ∉ free) (hr : i ∉ rdy) :
    ∃ m', shmListAdd m i .free = some m' ∧ Lists m' (free ++ [i]) rdy ∧ Same m m' := by
  obtain ⟨m', e, hl, f⟩ := shmListAdd_spec h.freeL hi hf
  refine ⟨m', e, ⟨hl, f.isList h.rdyL (by decide) ?_, f.isList h.procL (by decide) (by simp), ?_⟩, f.same⟩
  · intro j hj hm
    rcases List.mem_cons.mp hm with rfl | hm
    · exact hr hj
    · exact h.disj j hm hj
  · intro j hj
    rcases List.mem_append.mp hj with hj | hj
    · exact h.disj j hj
    · rw [List.mem_singleton] at hj; subst hj; exact hr

theorem Lists.add_rdy (h : Lists m free rdy) (hi : i ≠ CMD_SLOT_NUM) (hf : i ∉ free) (hr : i ∉ rdy) :
    ∃ m', shmListAdd m i .rdy = some m' ∧ Lists m' free (rdy ++ [i]) ∧ Same m m' := by
  obtain ⟨m', e, hl, f⟩ := shmListAdd_spec h.rdyL hi hr
  refine ⟨m', e, ⟨f.isList h.freeL (by decide) ?_, hl, f.isList h.procL (by decide) (by simp), ?_⟩, f.same⟩
  · intro j hj hm
    rcases List.mem_cons.mp hm with rfl | hm
    · exact hf hj
    · exact h.disj j hj hm
  · intro j hj hm
    rcases List.mem_append.mp hm with hm | hm
    · exact h.disj j hj hm
    · rw [List.mem_singleton] at hm; subst hm; exact hf hj

theorem Lists.take_free (h : Lists m (i :: free) rdy) :
    ∃ m', shmListRemove m .free = some (i, m') ∧ Lists m' free rdy ∧ Same m m' := by
  obtain ⟨m', e, hl, f⟩ := shmListRemove_spec h.freeL
  have hd : ∀ j ∈ free, j ∉ rdy := fun j hj => h.disj j (List.mem_cons_of_mem _ hj)
  exact ⟨m', e, ⟨hl, f.isList h.rdyL (by decide) fun j hj hm => hd j hm hj,
    f.isList h.procL (by decide) (by simp), hd⟩, f.same⟩

theorem Lists.take_rdy (h : Lists m free (i :: rdy)) :
    ∃ m', shmListRemove m .rdy = some (i, m') ∧ Lists m' free rdy ∧ Same m m' := by
  obtain ⟨m', e, hl, f⟩ := shmListRemove_spec h.rdyL
  have hd : ∀ j ∈ free, j ∉ rdy := fun j hj hm => h.disj j hj (List.mem_cons_of_mem _ hm)
  exact ⟨m', e, ⟨f.isList h.freeL (by decide) hd, hl, f.isList h.procL (by decide) (by simp), hd⟩, f.same⟩

/-- Overwriting a slot that is in neither list, links included. -/
theorem Lists.write (h : Lists m free rdy) (hf : i ∉ free) (hr : i ∉ rdy) (c : ShmCmd) :
    Lists (setSlot m i c) free rdy := by
  refine ⟨h.freeL.congr rfl fun j hj => ?_, h.rdyL.congr rfl fun j hj => ?_,
    h.procL.congr rfl (by simp), h.disj⟩
  · have : j ≠ i := by
      intro heq
      subst heq
      exact hf hj
    simp [setSlot, this]
  · have : j ≠ i := by
      intro heq
      subst heq
      exact hr hj
    simp [setSlot, this]

/-- The lock byte is not part of the lists. -/
theorem Lists.lock (h : Lists m free rdy) (b : Bool) : Lists { m with ctrl := b } free rdy :=
  ⟨h.freeL.congr rfl (by simp), h.rdyL.congr rfl (by simp), h.procL.congr rfl (by simp), h.disj⟩

/-- `SHM_get_rdy_list` with nothing waiting. -/
theorem shmGetRdyList_nil (h : Lists m free []) (hc : m.ctrl = false) :
    shmGetRdyList m = some (none, m) := by
  have he : shmListEmpty { m with ctrl := true } .rdy = true := (h.lock true).rdyL.empty_iff.mpr rfl
  cases m
  simp_all [shmGetRdyList, shmGet, shmRelease]

/-- `SHM_get_rdy_list` takes the first waiting slot and copies it out. -/
theorem shmGetRdyList_spec (h : Lists m free (i :: rdy)) (hc : m.ctrl = false) :
    ∃ m' c, shmGetRdyList m = some (some (i, c), m') ∧ Lists m' free rdy ∧ Same m m' ∧
      c.toHostCmd = (m.slot i).toHostCmd := by
  obtain ⟨m', e, hl, f⟩ := (h.lock true).take_rdy
  have he : ¬ shmListEmpty { m with ctrl := true } .rdy = true := fun e => by
    cases (h.lock true).rdyL.empty_iff.mp e
  have hp := slotPtr_of_mem h.rdyL (i := i) (by simp)
  refine ⟨shmRelease m', m'.slot i, ?_, hl.lock false, ⟨f.content, ?_⟩, f.content i⟩
  · simp [shmGetRdyList, shmGet, hc, he, e, hp]
  · simp [shmRelease, hc]

/-- `SHM_add_rdy_list` puts a slot back at the tail, with the content of the
copy whatever links the copy holds. -/
theorem shmAddRdyList_spec (h : Lists m free rdy) (hc : m.ctrl = false) (hi : i ≠ CMD_SLOT_NUM)
    (hf : i ∉ free) (hr : i ∉ rdy) (c : ShmCmd) :
    ∃ m', shmAddRdyList m i c = some m' ∧ Lists m' free (rdy ++ [i]) ∧ m'.ctrl = false ∧
      (m'.slot i).toHostCmd = c.toHostCmd ∧
      ∀ j, j ≠ i → (m'.slot j).toHostCmd = (m.slot j).toHostCmd := by
  obtain ⟨m', e, hl, f⟩ := ((h.lock true).write hf hr c).add_rdy hi hf hr
  refine ⟨shmRelease m', ?_, hl.lock false, rfl, ?_, fun j hj => ?_⟩
  · simp [shmAddRdyList, shmGet, hc, slotPtr, hi, e]
  · simpa [setSlot, shmRelease] using f.content i
  · simpa [setSlot, shmRelease, hj] using f.content j

/-- `SHM_add_free_list` returns a slot to the FREE list. -/
theorem shmAddFreeList_spec (h : Lists m free rdy) (hc : m.ctrl = false) (hi : i ≠ CMD_SLOT_NUM)
    (hf : i ∉ free) (hr : i ∉ rdy) :
    ∃ m', shmAddFreeList m i = some m' ∧ Lists m' (free ++ [i]) rdy ∧ Same m m' := by
  obtain ⟨m', e, hl, f⟩ := (h.lock true).add_free hi hf hr
  refine ⟨shmRelease m', ?_, hl.lock false, ⟨f.content, ?_⟩⟩
  · simp [shmAddFreeList, shmGet, hc, e]
  · simp [shmRelease, hc]

end

/-- After `n` rounds of the loop of `SHM_init` the FREE list is `0, …, n-1`. -/
theorem shmInit_loop {m : Shm} (h : Lists m [] []) (n : Nat) (hn : n ≤ CMD_SLOT_NUM) :
    ∃ m', (List.range n).foldlM (fun m i => shmListAdd m i .free) m = some m' ∧
      Lists m' (List.range n) [] ∧ Same m m' := by
  induction n with
  | zero => exact ⟨m, rfl, h, ⟨fun _ => rfl, rfl⟩⟩
  | succ n ih =>
    obtain ⟨m1, e1, h1, f1⟩ := ih (by omega)
    obtain ⟨m2, e2, h2, f2⟩ := h1.add_free (i := n) (by omega) (by simp) (by simp)
    refine ⟨m2, ?_, by rw [List.range_succ]; exact h2,
      ⟨fun j => (f2.content j).trans (f1.content j), f2.ctrl.trans f1.ctrl⟩⟩
    rw [List.range_succ, List.foldlM_append, e1]
    simp [e2]

theorem shmInit_spec :
    ∃ m, shmInit = some m ∧ Lists m (List.range CMD_SLOT_NUM) [] ∧ m.ctrl = false := by
  have h0 : Lists shmZero [] [] := by
    refine ⟨?_, ?_, ?_, by simp⟩ <;> exact Circ.nil (by simp [nx, shmZero]) (by simp [pv, shmZero])
  obtain ⟨m, e, h, f⟩ := shmInit_loop h0 CMD_SLOT_NUM (Nat.le_refl _)
  exact ⟨m, e, h, f.ctrl⟩

end OpenSSDEmu.L2.Shmem
