import OpenSSDEmu.Bugs.SharedNode

/-!
# Releasing the buffers of a command can go on for ever

`L2P_hcmd_free_buf` (src/buffer/buffer.c:335-347) deletes the tail of the
command's list until the list is empty. `list_delete` leaves a node with
`NULL` links alone, and such a node can be in the list: when another command
has added the same buffer on a cache hit (`SharedNode`) and released it, the
node is `NULL` while the first command's head still points to it. Every round
then deletes nothing.

Counterexample (`release_never_ends`): command 1 adds page 10, command 2 adds
it too and releases it; the release of command 1 does not return.

Holds when: every `L2P_hcmd_add_buffer` gets a buffer that no command has in
its list at that moment (`Unshared`).

* `release_local`: in every run that meets it, the release of any command
  ends, empties its list and touches no other command's.
-/
namespace OpenSSDEmu.Bugs.StuckRelease
open L2.List L3.Buffer SharedNode

/-- The release of `h` ends with the list of `h` empty and its count 0, and every
other command has the head, the nodes and the count it had. -/
def Releases (u : Users) (h : Nat) : Prop :=
  ∃ fuel heap, freeLoop (.head .hcmd h) fuel u.buf.heap = some heap ∧
    let s := { u.buf with heap := heap }.setCnt h 0
    listEmpty s.heap (.head .hcmd h) = true ∧ s.cnt h = 0 ∧
    ∀ k, k ≠ h → s.cnt k = u.buf.cnt k ∧ s.heap (.head .hcmd k) = u.buf.heap (.head .hcmd k) ∧
      ∀ e ∈ u.added k, s.heap (.node .hcmd e.1.toNat) = u.buf.heap (.node .hcmd e.1.toNat)

/-- **A release ends and is local**, in every run that adds a buffer only while
no command has it. -/
theorem release_local {u : Users} (hr : (users.restrict Unshared).Reachable u) (h : Nat) :
    Releases u h := by
  have hi := (inv_reachable u hr).listed
  obtain ⟨heap, e, hl⟩ := freeLoop_spec (ids u.added h) (BUFFER_NUMBER + 1) u.buf.heap _ hi.lists rfl
    (Nat.lt_succ_of_le (hi.length_le h))
  have hempty : listEmpty heap (.head .hcmd h) = true := by
    rw [(hl.list h).empty_iff, Function.update_self]
    rfl
  have hloc := freeLoop_local (List.mem_cons_self ..) _ _ _ (hi.lists.list h).within e
  have hcnt : ∀ k, k ≠ h → ({ u.buf with heap := heap }.setCnt h 0).cnt k = u.buf.cnt k :=
    fun k hk => if_neg hk
  have hother : ∀ k, k ≠ h → ∀ a ∈ Addr.head .hcmd k :: (ids u.added k).map (Addr.node .hcmd),
      heap a = u.buf.heap a :=
    fun k hk a ha => hloc.frame a fun hm => (chains_iff_pool.mp hi.lists).apart k h hk ha hm
  refine ⟨_, heap, e, hempty, if_pos rfl,
    fun k hk => ⟨hcnt k hk, hother k hk _ List.mem_cons_self, fun x hx => ?_⟩⟩
  exact hother k hk _ (List.mem_cons_of_mem _ (List.mem_map_of_mem (List.mem_map_of_mem hx)))

/-- Two commands with two pages each: each one's release. -/
theorem release_local_two : ∃ u, (users.restrict Unshared).Reachable u ∧
    u.added 1 = [(0, 10), (2, 30)] ∧ u.added 2 = [(1, 20), (3, 40)] ∧ Releases u 1 ∧ Releases u 2 := by
  obtain ⟨u, hr, h1, h2⟩ := exists_two
  exact ⟨u, hr, h1, h2, release_local hr 1, release_local hr 2⟩

/-! ## Counterexample -/

/-- A round that deletes nothing is repeated. -/
theorem freeLoop_stuck {head : Addr} {h : Heap Addr} (hne : listEmpty h head = false)
    (hsame : listDeleteTail h head = some h) (fuel : Nat) : freeLoop head fuel h = none := by
  induction fuel with
  | zero => rfl
  | succ fuel ih =>
    rw [freeLoop, hne, hsame]
    exact ih

/-- Command 2 adds the page of command 1 and releases it. -/
def trace : List Op := page 1 10 ++ [.check 2 10, .add 2, .free 2]

/-- **Counterexample**: the release of command 1 never ends. -/
theorem release_never_ends : ∃ u, users.Reachable u ∧ ¬ Releases u 1 := by
  have hrun : (initBuffer.bind fun s => (LTS.exec Users.step (Users.start s) trace).map fun u =>
      (listEmpty u.buf.heap (.head .hcmd 1), (u.buf.heap (.head .hcmd 1)).prev,
        (u.buf.heap (.node .hcmd 0)).next)) =
      some (false, some (.node .hcmd 0), none) := by decide +kernel
  obtain ⟨s, hs, hrun⟩ := Option.bind_eq_some_iff.mp hrun
  obtain ⟨u, hu, hrun⟩ := Option.map_eq_some_iff.mp hrun
  simp only [Prod.mk.injEq] at hrun
  obtain ⟨hne, hprev, hnull⟩ := hrun
  have hsame : listDeleteTail u.buf.heap (.head .hcmd 1) = some u.buf.heap := by
    simp only [listDeleteTail, hprev, listDelete, hnull]
  refine ⟨u, LTS.Reachable.exec (fun _ _ _ h => h) (.start ⟨s, hs, rfl⟩) hu, ?_⟩
  rintro ⟨fuel, heap, e, -⟩
  rw [freeLoop_stuck hne hsame] at e
  cases e

end OpenSSDEmu.Bugs.StuckRelease
