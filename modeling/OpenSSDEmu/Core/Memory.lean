import Mathlib.Algebra.GroupWithZero.Nat
import Mathlib.Logic.Function.Basic
import OpenSSDEmu.Core.Bitmap

/-!
# Words in a 32-bit address space

Memory maps the address of each aligned word to its value. Addresses are
given as offsets from a base (`addr`), so that two accesses are told apart by
their offsets: `store_addr` and `memset_addr` say what is read where.
-/
namespace OpenSSDEmu.Memory

abbrev Mem := BitVec 32 → BitVec 32

def addr (base : BitVec 32) (off : Nat) : BitVec 32 := base + BitVec.ofNat 32 off

/-- `p[i]` of a `u32 *p` -/
def words (m : Mem) (p : BitVec 32) : Bitmap.Words := fun i => m (p + BitVec.ofNat 32 (4 * i))

/-- `p[i] = v` -/
def setWord (m : Mem) (p : BitVec 32) (i : Nat) (v : BitVec 32) : Mem :=
  Function.update m (p + BitVec.ofNat 32 (4 * i)) v

/-- `memset(p, c, n)`, where `v` is the word of four bytes `c`. -/
def memset (m : Mem) (p v : BitVec 32) (n : Nat) : Mem := fun a => if (a - p).toNat < n then v else m a

variable {base v : BitVec 32} {m : Mem} {i n o p : Nat}

theorem addr_add (base : BitVec 32) (o k : Nat) : addr base o + BitVec.ofNat 32 k = addr base (o + k) := by
  rw [addr, addr, BitVec.add_assoc, BitVec.ofNat_add]

theorem addr_sub (base : BitVec 32) (hp : p ≤ o) : addr base o - addr base p = BitVec.ofNat 32 (o - p) := by
  obtain ⟨k, rfl⟩ := Nat.exists_eq_add_of_le hp
  rw [← addr_add, BitVec.add_comm, BitVec.add_sub_cancel, Nat.add_sub_cancel_left]

theorem addr_inj (ho : o < 2 ^ 32) (hp : p < 2 ^ 32) : addr base o = addr base p ↔ o = p := by
  constructor
  · intro h
    have := congrArg BitVec.toNat ((BitVec.add_right_inj base).mp h)
    rwa [BitVec.toNat_ofNat, BitVec.toNat_ofNat, Nat.mod_eq_of_lt ho, Nat.mod_eq_of_lt hp] at this
  · exact congrArg (addr base)

theorem words_addr (m : Mem) (base : BitVec 32) (o i : Nat) :
    words m (addr base o) i = m (addr base (o + 4 * i)) := by rw [words, addr_add]

theorem setWord_addr (ho : o < 2 ^ 32) (hp : p + 4 * i < 2 ^ 32) :
    setWord m (addr base p) i v (addr base o) = if o = p + 4 * i then v else m (addr base o) := by
  rw [setWord, addr_add, Function.update_apply]
  simp only [addr_inj ho hp]

theorem memset_addr (ho : o < 2 ^ 32) (hp : p + n ≤ 2 ^ 32) :
    memset m (addr base p) v n (addr base o) = if p ≤ o ∧ o < p + n then v else m (addr base o) := by
  have hd : (addr base o - addr base p).toNat = (2 ^ 32 - p + o) % 2 ^ 32 := by
    simp only [addr, BitVec.toNat_sub, BitVec.toNat_add, BitVec.toNat_ofNat]
    omega
  rw [memset, hd]
  refine if_congr ?_ rfl rfl
  omega

end OpenSSDEmu.Memory
