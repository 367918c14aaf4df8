import OpenSSDEmu.Bugs.LeakedCommand
import OpenSSDEmu.L4Pipeline.Acceptance

/-!
# A command slot is reused while its command is in flight

`FTL_nvme_req_polling` keeps the index of a command's slot in the entry,
"used for finding cmd slot in shm" (`ftl/ftl_nvme.c:104-106`), and
`FTL_handle_datamove` would address the host's data by it. But it returns the
slot to the FREE list right after the acceptance (`ftl/ftl_nvme.c:109`), not
when the command is done; the note in `SHM_get_rdy_list` says that the slot
should be released after the data transfer, and that this is not modelled yet
(`emu/fe/shmem.c:107-113`). So a submitter can take the slot and rewrite it
while the entry is still allocated.

Both lists are FIFO (`L4Pipeline.Desk`), so with 256 slots submission number
`256 + k` takes the slot of acceptance number `k`, counting from 0.

* `slot_rewritten`: one read accepted and 256 submissions after it.
* `tags_ok`: in every run in which submission number `256 + k` takes its slot
  only after the command accepted as number `k` is finished, tags are unique
  and no tagged slot is rewritten.
-/
namespace OpenSSDEmu.Bugs.ReusedSlot
open L2.Hcl L2.Fcl L2.Shmem L2.TaskQueue
open L4 L4.Pipeline
open L4.Jobs (Job Net Inv Place Kind)
open L4.Desk (Fifo)

/-- The slot an entry names. -/
def tag (s : Sys) (k : Nat) : Nat := (s.dev.entry k).nvmeCmdSlot.toNat

/-- Two allocated entries have two slots, and a submitter writes into no
slot an allocated entry names. -/
structure TagsOk (s : Sys) : Prop where
  unique : ∀ k k', bit s.dev.hcl k = true → bit s.dev.hcl k' = true → tag s k = tag s k' → k = k'
  kept : ∀ h i cmd s', s.host h = .taken i → hostStep s h (.put cmd) = some s' →
    ∀ k, bit s.dev.hcl k = true → tag s k ≠ i

/-- `FTL_handle_finish` ran on the command. -/
def Finished (s : Sys) (j : Job) : Prop := ∃ e ∈ s.log, e.kind = .finish ∧ e.job = some j

/-- The condition: when a slot is taken as number `256 + k`, the command
accepted as number `k` is finished. -/
def SlotRetired (s : Sys) (l : Lbl) : Prop :=
  ∀ h k a, l = .host h .take → s.submitted.length = CMD_SLOT_NUM + k → s.accs[k]? = some a →
    Finished s a.toJob

/-! ## Tags -/

/-- No entry is allocated and no tag of an allocated entry changes. -/
def Keeps (p p' : HcmdPool) : Prop :=
  ∀ k, bit p' k = true → bit p k = true ∧ (p'.queue k).nvmeCmdSlot = (p.queue k).nvmeCmdSlot

theorem Keeps.refl (p : HcmdPool) : Keeps p p := fun _ hk => ⟨hk, rfl⟩

/-- Rewriting an entry without touching its tag. -/
theorem Keeps.setEntry {p p' : HcmdPool} (h : Keeps p p') (i : Nat) {e : HostCmdEntry}
    (he : e.nvmeCmdSlot = (p'.queue i).nvmeCmdSlot) : Keeps p (L2.Hcl.setEntry p' i e) := by
  intro k hk
  obtain ⟨hb, hq⟩ := h k hk
  refine ⟨hb, ?_⟩
  rw [setEntry_queue]
  split
  · rename_i e
    subst e
    rw [he, hq]
  · exact hq

theorem keeps_reclaim (p : HcmdPool) (i : Nat) : Keeps p (reclaimHcmdEntry p i) := by
  intro k hk
  rw [reclaim_bit, Bool.and_eq_true] at hk
  have hne : k ≠ i := by simpa using hk.1
  exact ⟨hk.2, by rw [reclaim_queue, if_neg hne]⟩

theorem checkcacheLoop_slot (n : UInt32) (m : Nat) (c : UInt32) (e : HostCmdEntry) :
    (checkcacheLoop n m c e).2.nvmeCmdSlot = e.nvmeCmdSlot := by
  induction m generalizing c e with
  | zero => rfl
  | succ m ih =>
    unfold checkcacheLoop
    split
    · exact ih _ _
    · rfl

theorem tosqLoop_hcl (mb : BitVec 32) (i : Nat) (op : HcmdOpcode) (b : UInt32) (m : Nat) (c : UInt32)
    (d : Dev) : (tosqLoop mb i op b m c d).2.hcl = d.hcl := by
  induction m generalizing c d with
  | zero => rfl
  | succ m ih =>
    unfold tosqLoop
    dsimp only
    split
    · split
      · rfl
      · exact ih _ _
    · rfl

theorem handleTosq_keeps (mb : BitVec 32) (d : Dev) (i : Nat) : Keeps d.hcl (handleTosq mb d i).hcl := by
  have hset : Keeps d.hcl (d.setEntry i { d.entry i with bufCnt := 1 }).hcl :=
    (Keeps.refl d.hcl).setEntry i rfl
  have hhcl := tosqLoop_hcl mb i (d.entry i).opCode 1 (1 : UInt32).toNat 0
    (d.setEntry i { d.entry i with bufCnt := 1 })
  unfold handleTosq
  dsimp only
  split
  · rename_i d' hl
    rw [hl] at hhcl
    exact hhcl ▸ hset
  · rename_i c d' hl
    rw [hl] at hhcl
    exact (hhcl ▸ hset : Keeps d.hcl d'.hcl).setEntry i rfl

theorem func_keeps (mb : BitVec 32) (q : Status) (d : Dev) (i : Nat) :
    Keeps d.hcl (func mb q d i).hcl := by
  have hself := Keeps.refl d.hcl
  cases q with
  | checkCache =>
    unfold func handleCheckcache
    dsimp only
    cases (d.entry i).opCode <;> exact hself.setEntry i (checkcacheLoop_slot _ _ _ _)
  | toSq => exact handleTosq_keeps mb d i
  | dataMoved =>
    unfold func handleDatamove
    dsimp only
    split <;> exact hself.setEntry i rfl
  | fromCq =>
    unfold func handleFromcq
    dsimp only
    split <;> exact hself.setEntry i rfl
  | finish => exact keeps_reclaim d.hcl i
  | waitCq => exact hself

theorem cqRound_keeps (d : Dev) (sq : EmuSq) (rest : List EmuSq) :
    Keeps d.hcl (cqRound d sq rest).hcl := by
  rw [cqRound_eq rfl]
  split <;> exact (Keeps.refl d.hcl).setEntry _ rfl

/-- The tag of an allocated entry is that of the command in it. -/
def Tagged (s : Sys) : Prop :=
  ∀ k, bit s.dev.hcl k = true →
    ∃ a ∈ s.accs, s.owner k = some a.toJob ∧ tag s k = a.entry.nvmeCmdSlot.toNat

section
variable {mb : BitVec 32} {s s' : Sys}

theorem Tagged.keep (h : Tagged s) (hk : Keeps s.dev.hcl s'.dev.hcl) (ha : s'.accs = s.accs) :
    Tagged s' := by
  intro k hb
  obtain ⟨hb', hq⟩ := hk k hb
  obtain ⟨a, hin, ho, ht⟩ := h k hb'
  refine ⟨a, ha ▸ hin, ?_, ?_⟩
  · rw [Sys.owner, ha]
    exact ho
  · rw [← ht]
    exact congrArg UInt32.toNat hq

theorem Tagged.accept {i index k : Nat} {c : HostCmd} {hcl : HcmdPool} (h : Tagged s)
    (hg : getHostCmdEntry s.dev.hcl = (some k, hcl)) : Tagged (acceptInto s i index c k hcl) := by
  obtain ⟨-, -, -, hbit, hq⟩ := getHostCmdEntry_some hg
  intro m hb
  let a : Acc := ⟨⟨s.accs.length, k, c, s.polls⟩, fillEntry (hcl.queue k) c index (s.c + 1)⟩
  have hown : (acceptInto s i index c k hcl).owner m = if k = m then some a.toJob else s.owner m :=
    owner_append a m rfl
  by_cases e : k = m
  · subst e
    refine ⟨a, List.mem_append_right _ List.mem_cons_self, ?_, ?_⟩
    · rw [hown, if_pos rfl]
    · simp [tag, acceptInto, Dev.entry, a]
  · have hb' : bit s.dev.hcl m = true := by
      have hx : bit hcl m = true := hb
      simpa [hbit, Ne.symm e] using hx
    obtain ⟨b, hin, ho, ht⟩ := h m hb'
    refine ⟨b, List.mem_append_left _ hin, ?_, ?_⟩
    · rw [hown, if_neg e]
      exact ho
    · rw [← ht]
      simp [tag, acceptInto, Dev.entry, Ne.symm e, hq]

/-- What a step does to the tags: none appears, or one command is accepted. -/
inductive TagStep (s s' : Sys) : Prop
  | keep (hk : Keeps s.dev.hcl s'.dev.hcl) (ha : s'.accs = s.accs) (hl : s.log <+: s'.log)
  | accept (i index k : Nat) (c : HostCmd) (hcl : HcmdPool)
      (hg : getHostCmdEntry s.dev.hcl = (some k, hcl)) (e : s' = acceptInto s i index c k hcl)

theorem TagStep.same (h1 : s'.dev = s.dev) (h2 : s'.accs = s.accs) (h3 : s'.log = s.log) :
    TagStep s s' := .keep (h1 ▸ Keeps.refl _) h2 (h3 ▸ List.prefix_rfl)

theorem ftlStep_tags (hs : ftlStep mb s = some s') : TagStep s s' := by
  cases ftlStep_cases hs with
  | accept hp e => exact .accept _ _ _ _ _ e rfl
  | skip hp hj e => exact .keep (Keeps.refl _) rfl List.prefix_rfl
  | serve hp hj e hd hd' =>
    subst hd hd'
    exact .keep (func_keeps mb _ { s.dev with tq := _ } _) rfl (List.prefix_append _ _)
  | round hp e => exact .keep (cqRound_keeps _ _ _) rfl (List.prefix_append _ _)
  | _ => exact .same rfl rfl rfl

theorem beStep_tags (hs : beStep s = some s') : TagStep s s' := by
  cases beStep_cases hs <;> exact .keep (Keeps.refl _) rfl (List.prefix_append _ _)

theorem step_tags {l : Lbl} (hs : step mb s l = some s') : TagStep s s' := by
  cases l with
  | host k a =>
    obtain ⟨h1, -, h3, h4, -, -⟩ := hostStep_frame hs
    exact .same h1 h3 h4
  | ftl => exact ftlStep_tags hs
  | be => exact beStep_tags hs

theorem TagStep.accs (h : TagStep s s') : s.accs <+: s'.accs := by
  cases h with
  | keep hk ha hl => exact ha ▸ List.prefix_rfl
  | accept i index k c hcl hg e =>
    subst e
    exact List.prefix_append _ _

theorem TagStep.finished (h : TagStep s s') {j : Job} (hf : Finished s j) : Finished s' j := by
  obtain ⟨e, he, hk⟩ := hf
  refine ⟨e, ?_, hk⟩
  cases h with
  | keep hk ha hl => exact hl.subset he
  | accept i index k c hcl hg e =>
    subst e
    exact List.mem_append_left _ he

end

theorem tagged_inv (mb : BitVec 32) : (sys mb).Inductive Tagged where
  init := by
    intro s hstart
    obtain ⟨m, -, rfl⟩ := hstart
    intro k hk
    have hb := bit_init k
    rw [show (Sys.init m).dev.hcl = initHostCmdEntryQueue from rfl, hb] at hk
    cases hk
  step := by
    intro s l s' h hs
    cases step_tags hs with
    | keep hk ha hl => exact h.keep hk ha
    | accept i index k c hcl hg e =>
      subst e
      exact h.accept hg

/-! ## Live commands -/

section
variable {mb : BitVec 32} {s s' : Sys}

theorem not_finished {n : Net} {j : Job} (hI : Inv n) (h : Sim s n) (hj : j ∈ n.live) :
    ¬ Finished s j := by
  intro hf
  obtain ⟨e, he, hk, hjob⟩ := hf
  obtain ⟨p, hp⟩ := L4.Jobs.mem_live.mp hj
  have hm := List.mem_map_of_mem (f := fun e : Ev => (e.kind, e.job)) he
  rw [h.log, hk, hjob] at hm
  obtain ⟨x, hx, ex⟩ := List.mem_map.mp hm
  obtain ⟨h1, h2⟩ : x.1 = .finish ∧ x.2 = j := by simpa using ex
  have hin : (L4.Jobs.Kind.finish, j) ∈ n.log := by rwa [← h1, ← h2]
  exact (hI.tracked.here p j hp).2.unfinished (L4.Jobs.mem_hist.mpr hin)

/-- The command in an allocated entry. -/
theorem exists_owner (hr : (sys mb).Reachable s) {k : Nat} (hk : bit s.dev.hcl k = true) :
    ∃ (m : Nat) (a : Acc), s.accs[m]? = some a ∧ a.idx = k ∧ tag s k = a.entry.nvmeCmdSlot.toNat ∧
      ¬ Finished s a.toJob := by
  obtain ⟨n, hI, h⟩ := reachable_sim hr
  obtain ⟨a, ha, ho, ht⟩ := (tagged_inv mb).reachable s hr k hk
  obtain ⟨j, hj, hidx⟩ := List.mem_map.mp ((h.dev.entries.bit k).mp hk)
  have hown := h.owner j hj
  rw [hidx, ho] at hown
  obtain rfl : a.toJob = j := Option.some.inj hown
  obtain ⟨m, hm⟩ := List.mem_iff_getElem?.mp ha
  exact ⟨m, a, hm, hidx, ht, not_finished hI h hj⟩

/-! ## Slots going round -/

/-- A command is finished before its slot is taken again. -/
def Retired (s : Sys) (d : Desk Nat HostCmd) : Prop :=
  ∀ (m : Nat) (a : Acc), s.accs[m]? = some a → Finished s a.toJob ∨ d.takes ≤ CMD_SLOT_NUM + m

theorem acts_take {l : Lbl} (h : l.acts .take) : ∃ k, l = .host k .take := by
  cases l with
  | host k a => cases a <;> first | exact ⟨k, rfl⟩ | exact absurd h id
  | ftl => exact absurd h id
  | be => exact absurd h id

theorem Retired.step {l : Lbl} {h k : Host} {d d' : Desk Nat HostCmd} {x : L4.Desk.Act HostCmd}
    (hR : Retired s d) (hI : OnDesk s h d) (hI' : OnDesk s' k d') (hF : Fifo (List.range CMD_SLOT_NUM) d)
    (hP : SlotRetired s l) (ht : TagStep s s') (hx : l.acts x) (hd : L4.Desk.step d x = some d') :
    Retired s' d' := by
  intro m a ha
  have hle := hF.le
  rw [List.length_range] at hle
  have hlen := hI.accs_length
  rcases Nat.lt_or_ge m s.accs.length with hm | hm
  · -- a command accepted before
    have hold : s.accs[m]? = some a := by
      obtain ⟨u, hu⟩ := ht.accs
      rw [← hu, List.getElem?_append_left hm] at ha
      exact ha
    rcases hR m a hold with hf | htk
    · exact .inl (ht.finished hf)
    · rcases L4.Desk.takes_step hd with ⟨rfl, hsub, hone, -⟩ | hsame
      · obtain ⟨j, rfl⟩ := acts_take hx
        rcases Nat.eq_or_lt_of_le htk with heq | hlt
        · -- its slot is the one taken now
          rw [hsub, ← hI.submitted] at heq
          exact .inl (ht.finished (hP j m a rfl heq hold))
        · exact .inr (by omega)
      · exact .inr (by omega)
  · -- the one accepted now
    have hm' : m < s'.accs.length := by
      refine Nat.lt_of_not_le fun hge => ?_
      rw [List.getElem?_eq_none hge] at ha
      cases ha
    rcases L4.Desk.takes_step hd with ⟨-, -, -, hacc⟩ | hsame
    · rw [hI'.accs_length, hacc] at hm'
      omega
    · exact .inr (by omega)

theorem Retired.quiet {h k : Host} {d : Desk Nat HostCmd} (hR : Retired s d) (hI : OnDesk s h d)
    (hI' : OnDesk s' k d) (ht : TagStep s s') : Retired s' d := by
  have hacc : s'.accs = s.accs := by
    refine (ht.accs.eq_of_length ?_).symm
    rw [hI.accs_length, hI'.accs_length]
  intro m a ha
  rw [hacc] at ha
  rcases hR m a ha with hf | htk
  · exact .inl (ht.finished hf)
  · exact .inr htk

end

theorem retired_inv (mb : BitVec 32) : ((sys mb).restrict SlotRetired).Inductive
    fun s => ∃ h d, OnDesk s h d ∧ Fifo (List.range CMD_SLOT_NUM) d ∧ Retired s d where
  init := by
    intro s hstart
    obtain ⟨m, hm, rfl⟩ := hstart
    refine ⟨.fe, _, (slots_init hm).onDesk, ⟨?_, ?_⟩, fun m a ha => ?_⟩
    · simp [Sys.init, FtlPc.onDesk, L4.Desk.Hand.freeing, Desk.takes, HostPc.hand]
    · simp [Sys.init, Desk.takes, HostPc.hand]
    · cases ha
  step := by
    intro s l s' hx hs
    obtain ⟨h, d, hI, hF, hR⟩ := hx
    obtain ⟨hP, hs⟩ := hs
    have ht := step_tags hs
    rcases hI.step hs with ⟨k, hI'⟩ | ⟨x, d', k, hx, hd, hI'⟩
    · exact ⟨k, d, hI', hF, hR.quiet hI hI' ht⟩
    · exact ⟨k, d', hI', L4.Desk.fifo_step hd hF, hR.step hI hI' hF hP ht hx hd⟩

section
variable {mb : BitVec 32} {s : Sys}

/-- The slot of a live command is where the FREE list has it. -/
theorem tag_position {h : Host} {d : Desk Nat HostCmd} (hI : OnDesk s h d)
    (hF : Fifo (List.range CMD_SLOT_NUM) d) (hR : Retired s d) {m : Nat} {a : Acc}
    (ha : s.accs[m]? = some a) (hf : ¬ Finished s a.toJob) :
    d.takes ≤ CMD_SLOT_NUM + m ∧
      (d.free ++ d.hand.freeing)[CMD_SLOT_NUM + m - d.takes]? = some a.entry.nvmeCmdSlot.toNat := by
  have ht := (hR m a ha).resolve_left hf
  have hacc : d.accepted[m]? = some (a.entry.nvmeCmdSlot.toNat, a.cmd) := by
    rw [← hI.accepted, List.getElem?_map, ha]
    rfl
  obtain ⟨hm, he⟩ := List.getElem?_eq_some_iff.mp hacc
  have hslot := hF.slot_free hm (by rwa [List.length_range])
  rw [List.length_range, he] at hslot
  exact ⟨ht, hslot⟩

theorem free_nodup {h : Host} {d : Desk Nat HostCmd} (hI : OnDesk s h d) :
    (d.free ++ d.hand.freeing).Nodup ∧ ∀ i ∈ (s.host h).hand, i ∉ d.free ++ d.hand.freeing := by
  have hn := hI.slots.nodup
  have hfr : ∀ i ∈ d.hand.freeing, i ∈ s.ftl.hand := by
    intro i hi
    rw [← hI.hand] at hi
    cases hp : s.ftl <;> rw [hp] at hi <;> first | exact hi | cases hi
  simp only [List.nodup_append, List.mem_append] at hn
  have hfree := hn.1.1.1
  refine ⟨List.nodup_append.mpr ⟨hfree, ?_, fun i hi j hj => ?_⟩, fun i hi hin => ?_⟩
  · cases d.hand <;> simp [L4.Desk.Hand.freeing]
  · exact hn.2.2 i (.inl (.inl hi)) j (hfr j hj)
  · rcases List.mem_append.mp hin with hin | hin
    · exact hn.1.2.2 i (.inl hin) i hi rfl
    · exact hn.2.2 i (.inr hi) i (hfr i hin) rfl

/-- **Tags under the condition**: in every run in which a slot is taken as
number `256 + k` only after the command accepted as number `k` is finished. -/
theorem tags_ok (hr : ((sys mb).restrict SlotRetired).Reachable s) : TagsOk s := by
  obtain ⟨h, d, hI, hF, hR⟩ := (retired_inv mb).reachable s hr
  obtain ⟨hn, hdis⟩ := free_nodup hI
  have hr' := hr.of_restrict
  refine ⟨fun k k' hk hk' he => ?_, fun j i cmd s' hj hs k hk he => ?_⟩
  · obtain ⟨m, a, ha, hidx, ht, hf⟩ := exists_owner hr' hk
    obtain ⟨m', a', ha', hidx', ht', hf'⟩ := exists_owner hr' hk'
    obtain ⟨hle, hpos⟩ := tag_position hI hF hR ha hf
    obtain ⟨hle', hpos'⟩ := tag_position hI hF hR ha' hf'
    rw [← ht] at hpos
    rw [← ht', ← he] at hpos'
    have hlt := (List.getElem?_eq_some_iff.mp hpos).1
    have hsame := (List.getElem?_inj hlt hn).mp (hpos.trans hpos'.symm)
    obtain rfl : m = m' := by omega
    obtain rfl : a = a' := Option.some.inj (ha.symm.trans ha')
    exact hidx.symm.trans hidx'
  · -- a slot in a submitter's hands is not on its way through the FREE list
    obtain ⟨m, a, ha, -, ht, hf⟩ := exists_owner hr' hk
    obtain ⟨-, hpos⟩ := tag_position hI hF hR ha hf
    obtain rfl := hI.slots.host_eq (k := j) (by simp [hj])
    refine hdis i (by simp [hj, HostPc.hand]) ?_
    rw [← he, ht]
    exact List.mem_of_getElem? hpos

end

/-! ## A run in which slots go round -/

section
variable {mb : BitVec 32} {s s' : Sys} {d : Desk Nat HostCmd}

/-- No slot was taken twice so far. -/
def Few (s : Sys) : Prop :=
  s.submitted.length ≤ CMD_SLOT_NUM ∧ ∀ h i, s.host h = .taken i → s.submitted.length < CMD_SLOT_NUM

theorem Few.setHost {k : Host} {pc : HostPc} {m : Shm} (hk : ∀ i, s.host k ≠ .taken i)
    (h : Few (s.setHost k pc m)) : Few s := by
  refine ⟨h.1, fun j i hj => h.2 j i ?_⟩
  have hne : j ≠ k := fun e => hk i (e ▸ hj)
  simpa [Sys.setHost, hne] using hj

theorem few_step {l : Lbl} (hs : step mb s l = some s') (h : Few s') :
    Few s ∧ ∀ k, l = .host k .take → s.submitted.length < CMD_SLOT_NUM := by
  cases l with
  | host k a =>
    cases hostStep_cases hs with
    | get hk e => exact ⟨h.setHost (by simp [hk]), by simp⟩
    | wait hk he => exact ⟨h.setHost (by simp [hk]), by simp⟩
    | sync hk hfe he => exact ⟨h.setHost (by simp [hk]), by simp⟩
    | release hk => exact ⟨h.setHost (by simp [hk]), by simp⟩
    | @take i m hk he e =>
      have hlt : s.submitted.length < CMD_SLOT_NUM := h.2 k i (by simp [Sys.setHost])
      exact ⟨⟨Nat.le_of_lt hlt, fun _ _ _ => hlt⟩, fun _ _ => hlt⟩
    | put hk hp e =>
      have hle := h.1
      rw [List.length_append, List.length_singleton] at hle
      exact ⟨⟨by omega, fun _ _ _ => by omega⟩, by simp⟩
  | ftl => cases ftlStep_cases hs <;> exact ⟨h, by simp⟩
  | be => cases beStep_cases hs <;> exact ⟨h, by simp⟩

/-- As long as no slot is taken twice the condition says nothing. -/
theorem few_restrict (hr : (sys mb).Reachable s) (h : Few s) : ((sys mb).restrict SlotRetired).Reachable s := by
  induction hr with
  | start hi => exact .start hi
  | next hr hs ih =>
    obtain ⟨hf, htake⟩ := few_step hs h
    exact (ih hf).next ⟨fun k m a he hlen _ => absurd (htake k he) (by omega), hs⟩

/-- Any step that takes no slot. -/
theorem next_other {l : Lbl} (hr : ((sys mb).restrict SlotRetired).Reachable s) (hl : ∀ k, l ≠ .host k .take)
    (hs : step mb s l = some s') : ((sys mb).restrict SlotRetired).Reachable s' :=
  hr.next ⟨fun k _ _ e => absurd e (hl k), hs⟩

/-- A submission, when the next slot may be taken. -/
theorem submit_restrict {cmd : HostCmd} (hr : ((sys mb).restrict SlotRetired).Reachable s)
    (hret : ∀ m a, s.submitted.length = CMD_SLOT_NUM + m → s.accs[m]? = some a → Finished s a.toJob)
    (he : LTS.exec (step mb) s (submit 0 cmd) = some s') :
    ((sys mb).restrict SlotRetired).Reachable s' ∧ s'.accs = s.accs ∧ s'.log = s.log := by
  simp only [submit, LTS.exec, Option.bind_eq_some_iff] at he
  obtain ⟨s1, e1, s2, e2, s3, e3, s4, e4, he⟩ := he
  cases he
  have r1 := next_other hr (by simp) e1
  change hostStep s (.fio 0) .get = some s1 at e1
  obtain ⟨-, -, a1, l1, -⟩ := hostStep_frame e1
  have hsub : s1.submitted = s.submitted := by
    cases hostStep_cases e1 with
    | get => rfl
  have r2 : ((sys mb).restrict SlotRetired).Reachable s2 := r1.next ⟨fun _ m a _ hlen ha => by
    obtain ⟨e, hin, hfin⟩ := hret m a (hsub ▸ hlen) (a1 ▸ ha)
    exact ⟨e, l1 ▸ hin, hfin⟩, e2⟩
  have r4 := next_other (next_other r2 (by simp) e3) (by simp) e4
  obtain ⟨-, -, a2, l2, -⟩ := hostStep_frame (k := .fio 0) (a := .take) e2
  obtain ⟨-, -, a3, l3, -⟩ := hostStep_frame (k := .fio 0) (a := .put cmd) e3
  obtain ⟨-, -, a4, l4, -⟩ := hostStep_frame (k := .fio 0) (a := .release) e4
  exact ⟨r4, by rw [a4, a3, a2, a1], by rw [l4, l3, l2, l1]⟩

/-- Entry `k` is allocated and names slot `j`. -/
structure Allots (s s' : Sys) (k j : Nat) : Prop where
  clear : bit s.dev.hcl k = false
  bits : ∀ m, bit s'.dev.hcl m = (decide (m = k) || bit s.dev.hcl m)
  tag : tag s' k = j
  tags : ∀ m, m ≠ k → ReusedSlot.tag s' m = ReusedSlot.tag s m

/-- One command, submitted and accepted. -/
theorem accept_one {i j : Nat} {free : List Nat} (hO : Open mb s d)
    (hr : ((sys mb).restrict SlotRetired).Reachable s) (hp : s.ftl = .poll i) (hi : i < MAX_POLLING_NUM)
    (hrdy : d.rdy = []) (hf : d.free = j :: free) (hroom : ∃ m < HCMD_NUM, bit s.dev.hcl m = false)
    (hret : ∀ m a, s.submitted.length = CMD_SLOT_NUM + m → s.accs[m]? = some a → Finished s a.toJob)
    (cmd : HostCmd) :
    ∃ s' d' k, Open mb s' d' ∧ ((sys mb).restrict SlotRetired).Reachable s' ∧ s'.ftl = .poll (i + 1) ∧
      d'.rdy = [] ∧ d'.free = free ++ [j] ∧ Allots s s' k j ∧ s'.submitted = s.submitted ++ [cmd] ∧
      s.accs <+: s'.accs ∧ s.log <+: s'.log := by
  obtain ⟨_, hI⟩ := hO.desk
  have hj : j < CMD_SLOT_NUM := by
    refine List.mem_range.mp (hI.slots.slots.mem_iff.mp ?_)
    simp [hf]
  obtain ⟨s1, hO1, hp1, hd1, he1⟩ := hO.submit hf cmd
  obtain ⟨r1, a1, l1⟩ := submit_restrict hr hret he1
  obtain ⟨s2, c, hO2, hp2, hc, hd2, hs2⟩ := hO1.get (hp1.trans hp) hi (by rw [hrdy]; rfl)
  have r2 := next_other r1 (by simp) hs2
  have hlt : allocated s2.dev.hcl < HCMD_NUM := by
    obtain ⟨m, hm, hb⟩ := hroom
    refine Nat.lt_of_le_of_ne (allocated_le _) fun e => ?_
    rw [← hd1, ← hd2, allocated_full.mp e m hm] at hb
    cases hb
  obtain ⟨k, hcl, hg⟩ := getHostCmdEntry_of_lt hlt
  obtain ⟨s4, hO4, hp4, hd4, he4⟩ := hO2.accept hp2 hg
  simp only [LTS.exec, Option.bind_eq_some_iff] at he4
  obtain ⟨s3, e3, _, e4, he⟩ := he4
  cases he
  have r4 := next_other (next_other r2 (by simp) e3) (by simp) e4
  obtain ⟨-, ga2, gl2⟩ := step_grows hs2
  obtain ⟨-, ga3, gl3⟩ := step_grows e3
  obtain ⟨-, ga4, gl4⟩ := step_grows e4
  obtain ⟨-, hclear, -, hbits, hqueue⟩ := getHostCmdEntry_some hg
  obtain ⟨_, hI4⟩ := hO4.desk
  refine ⟨s4, _, k, hO4, r4, hp4, rfl, rfl, ⟨?_, fun m => ?_, ?_, fun m hm => ?_⟩, ?_,
    a1 ▸ (ga2.trans ga3).trans ga4, l1 ▸ (gl2.trans gl3).trans gl4⟩
  · rw [← hd1, ← hd2]
    exact hclear
  · rw [hd4, ← hd1, ← hd2]
    exact hbits m
  · have hj' : j < 4294967296 := Nat.lt_trans hj (by decide)
    simpa [ReusedSlot.tag, hd4, acceptInto, Dev.entry, fillEntry] using hj'
  · simp [ReusedSlot.tag, hd4, acceptInto, Dev.entry, hm, hqueue, hd2, hd1]
  · rw [hI4.submitted, hI.submitted]

/-- The slots come round in the order in which they were accepted. -/
theorem free_of_ready (h : Ready mb s d) (hr : ((sys mb).restrict SlotRetired).Reachable s)
    (hl : s.submitted.length = CMD_SLOT_NUM) : d.free = s.accs.map fun a => a.entry.nvmeCmdSlot.toNat := by
  obtain ⟨k, d', hI', hF, -⟩ := (retired_inv mb).reachable s hr
  obtain ⟨h', hI⟩ := h.desk
  have hlen : ∀ {j : Host} {e : Desk Nat HostCmd}, OnDesk s j e → slotsOf s.shm .free = e.free := fun hj =>
    slotsOf_eq hj.slots.lists.freeL (by have := hj.slots.slots.length_eq; simp at this; omega)
  have htaken : d'.taken = none := by
    have := hI'.taken
    rw [h.all_idle k] at this
    exact Option.toList_eq_nil_iff.mp this.symm
  have hhand : d'.hand = .empty := by rw [← hI'.hand, h.poll]; rfl
  have htakes : d'.takes = CMD_SLOT_NUM := by
    rw [Desk.takes, ← hI'.submitted, hl, htaken]
    rfl
  have hslots := hF.slots
  rw [hhand, htakes, ← hI'.accepted, List.drop_left' (by simp), List.map_map] at hslots
  rw [← hlen hI, hlen hI']
  exact (List.append_nil _).symm.trans hslots

end

/-- 256 reads of one page, each submitted when the one before was finished. -/
theorem exists_round : ∃ s d, Ready 0 s d ∧ ((sys 0).restrict SlotRetired).Reachable s ∧
    s.submitted.length = CMD_SLOT_NUM ∧ s.accs.length = CMD_SLOT_NUM ∧ (∀ i, bit s.dev.hcl i = false) ∧
    ∀ a ∈ s.accs, Finished s a.toJob := by
  obtain ⟨s, d, hs, hq, hd⟩ := LeakedCommand.exists_served 0
    (List.replicate CMD_SLOT_NUM ⟨SHM_READ_OPS, 20, 16384⟩) (by decide +kernel)
  obtain ⟨_, hI⟩ := hs.desk
  have hcmds := hI.accs_cmds.trans hd
  have hfit : ∀ a ∈ s.accs, LeakedCommand.Fits a.cmd := fun a ha => by
    have := List.mem_map_of_mem (f := fun a : Acc => a.cmd) ha
    rw [hcmds] at this
    rw [List.eq_of_mem_replicate this]
    decide
  have hlen : s.accs.length = CMD_SLOT_NUM := by simpa using congrArg List.length hcmds
  have hsub : s.submitted.length = CMD_SLOT_NUM := by
    rw [hI.submitted_length, hs.rdy, hs.poll, hlen]
    rfl
  obtain ⟨n, hn, h⟩ := reachable_sim hs.reach
  refine ⟨s, d, hs, few_restrict hs.reach ⟨hsub.le, fun k i hk => ?_⟩, hsub, hlen, fun i => ?_,
    fun a ha => LeakedCommand.finished_of_fits hn h hq ha (hfit a ha)⟩
  · rw [hs.all_idle k] at hk
    cases hk
  · by_contra hb
    obtain ⟨j, hj, -⟩ := List.mem_map.mp ((h.dev.entries.bit i).mp (by simpa using hb))
    obtain ⟨hin, hnot⟩ := (LeakedCommand.mem_live_iff hn h hq).mp hj
    rw [← h.accs] at hin
    obtain ⟨a, ha, rfl⟩ := List.mem_map.mp hin
    exact hnot (hfit a ha)

/-- 256 reads one after the other, and then two more: their slots are those of
the first two, taken again after `FTL_handle_finish`, and both entries are in
use. -/
theorem exists_reused : ∃ s k k', ((sys 0).restrict SlotRetired).Reachable s ∧
    s.submitted.length = CMD_SLOT_NUM + 2 ∧ k ≠ k' ∧ bit s.dev.hcl k = true ∧ bit s.dev.hcl k' = true ∧
    (s.accs.take 2).map (fun a => a.entry.nvmeCmdSlot.toNat) = [tag s k, tag s k'] := by
  obtain ⟨s, d, hs, hr, hsub, hlen, hbits, hfin⟩ := exists_round
  have hfree := free_of_ready hs hr hsub
  obtain ⟨a, b, rest, hacc⟩ : ∃ a b rest, s.accs = a :: b :: rest := by
    rcases e : s.accs with _ | ⟨a, _ | ⟨b, rest⟩⟩
    · rw [e] at hlen; cases hlen
    · rw [e] at hlen; cases hlen
    · exact ⟨a, b, rest, rfl⟩
  rw [hacc] at hfree
  obtain ⟨s1, d1, k, hO1, r1, hp1, hrdy1, hf1, hk, hsub1, ga1, gl1⟩ := accept_one hs.toOpen hr hs.poll (by decide)
    hs.rdy hfree ⟨0, by decide, hbits 0⟩ (fun m x _ hx => hfin x (List.mem_of_getElem? hx))
    ⟨SHM_READ_OPS, 20, 16384⟩
  have hret : ∀ m x, s1.submitted.length = CMD_SLOT_NUM + m → s1.accs[m]? = some x → Finished s1 x.toJob := by
    intro m x hm hx
    rw [hsub1, List.length_append, List.length_singleton] at hm
    obtain rfl : m = 1 := by omega
    obtain ⟨u, hu⟩ := ga1
    rw [← hu, hacc] at hx
    obtain rfl : b = x := by simpa using hx
    obtain ⟨e, he, hfe⟩ := hfin b (by simp [hacc])
    exact ⟨e, gl1.subset he, hfe⟩
  have hroom : ∃ m < HCMD_NUM, bit s1.dev.hcl m = false := by
    by_cases h0 : k = 0
    · exact ⟨1, by decide, by rw [hk.bits, hbits, h0]; rfl⟩
    · exact ⟨0, by decide, by rw [hk.bits, hbits]; simp [Ne.symm h0]⟩
  obtain ⟨s2, d2, k', -, r2, -, -, -, hk', hsub2, ga2, -⟩ := accept_one hO1 r1 hp1 (by decide) hrdy1 hf1 hroom
    hret ⟨SHM_WRITE_OPS, 40, 16384⟩
  have hb : bit s1.dev.hcl k = true := by simp [hk.bits]
  have hne : k ≠ k' := fun e => by rw [e, hk'.clear] at hb; cases hb
  refine ⟨s2, k, k', r2, ?_, hne, by simp [hk'.bits, hb], by simp [hk'.bits], ?_⟩
  · rw [hsub2, hsub1, List.length_append, List.length_append, hsub]
    rfl
  · obtain ⟨u, hu⟩ := ga1.trans ga2
    rw [← hu, hacc, hk'.tags k hne, hk.tag, hk'.tag]
    rfl

/-- Then the two tags are different, and nobody is about to write into the
slots. -/
theorem tags_ok_reused : ∃ s k k', ((sys 0).restrict SlotRetired).Reachable s ∧
    s.submitted.length = CMD_SLOT_NUM + 2 ∧ k ≠ k' ∧ bit s.dev.hcl k = true ∧ bit s.dev.hcl k' = true ∧
    (s.accs.take 2).map (fun a => a.entry.nvmeCmdSlot.toNat) = [tag s k, tag s k'] ∧ tag s k ≠ tag s k' ∧
    TagsOk s := by
  obtain ⟨s, k, k', hr, hn, hne, hk, hk', ht⟩ := exists_reused
  have hok := tags_ok hr
  exact ⟨s, k, k', hr, hn, hne, hk, hk', ht, fun e => hne (hok.unique k k' hk hk' e), hok⟩

/-- A read right after its acceptance. -/
def acceptedSchedule : List Lbl := submit 0 ⟨SHM_READ_OPS, 20, 16384⟩ ++ [.ftl, .ftl, .ftl]

/-- **Counterexample**: the slot of a read that has just been accepted, its
entry allocated, is the last of the FREE list. With the slots before it taken
by further submissions, the next submitter writes into it. -/
theorem slot_rewritten : ¬ ∀ s, (sys 0).Reachable s → TagsOk s := by
  intro hall
  obtain ⟨s, hr, hs⟩ := exists_run 0
    (P := fun s => bit s.dev.hcl 0 && decide (tag s 0 = 0) && !s.shm.ctrl && shmListEmpty s.shm .rdy &&
      decide (s.ftl = .poll 1)) acceptedSchedule (by decide +kernel)
  simp only [Bool.and_eq_true, decide_eq_true_eq, Bool.not_eq_true'] at hs
  obtain ⟨⟨⟨⟨hb, ht⟩, hc⟩, he⟩, hp⟩ := hs
  obtain ⟨h, d, hI⟩ := exists_desk hr
  have hO : Open 0 s d := ⟨hr, ⟨h, hI⟩, hc⟩
  have hin : 0 ∈ d.free := by
    have hm : 0 ∈ d.free ++ d.rdy.map Prod.fst ++ (s.host h).hand ++ s.ftl.hand :=
      hI.slots.slots.mem_iff.mpr (List.mem_range.mpr (by decide))
    have hrdy := hI.slots.lists.rdyL.empty_iff.mp he
    rw [hrdy, hO.all_idle h, hp] at hm
    simpa [HostPc.hand, FtlPc.hand] using hm
  obtain ⟨pre, free, hf⟩ := List.append_of_mem hin
  obtain ⟨s1, d1, hO1, hf1, -, hd1⟩ := hO.submit_until hf
  obtain ⟨s2, r2, -, hk2, -, hd2, -⟩ := hO1.taking hf1
  obtain ⟨s3, h3⟩ := put_progress r2 hk2 ⟨SHM_READ_OPS, 0, 16384⟩
  have hdev : s2.dev = s.dev := hd2.trans hd1
  refine (hall s2 r2).kept (.fio 0) 0 _ s3 hk2 h3 0 ?_ ?_
  · rw [hdev]
    exact hb
  · rw [tag, hdev]
    exact ht

end OpenSSDEmu.Bugs.ReusedSlot
