import OpenSSDEmu.L2Machine.List

/-!
# The buffer manager

`buffer/buffer.h` and `buffer/buffer.c` (`BYPASS_BUFFER != YES`): 1500
buffers on a free list or an LRU list, a hash table from page number to
buffer, and one list of buffers per host command. All four are threaded
through the same records, with one node of each kind in a record, so a node
address is a kind (`Member`) and a buffer or a head index.

`none` is a step that does not return: a `NULL` dereference, a
`container_of` on an address that is no such node of a buffer (a walk that
has left its list through somebody else's node reads memory that is no
buffer from there on), a function that falls off its end without a value,
or a loop that does not end. The loops run on a bound that a walk which
ends cannot exceed.

Left out: `dirty`, `valid` and `cur_buf_id`, which nobody reads, the dump
functions, and the logging.
-/
namespace OpenSSDEmu.L3.Buffer
open L2.List

/-- mirrors src/config/config.h:71 -/
def BUFFER_NUMBER : Nat := 1500

/-- mirrors src/buffer/buffer.h:8-9 -/
def HASH_TABLE_SIZE : Nat := 1000
def INVALID_ID : UInt32 := 0xffffffff

/-- The length of the tables in `hcmd_buf_table`, a bare 256 in the source.
mirrors src/buffer/buffer.h:16-21 -/
def hcmdTableEntries : Nat := 256

/-- Which of the four list nodes of a `buffer_entry`. -/
inductive Member | free | lru | hash | hcmd
  deriving DecidableEq, Repr

/-- Where a list node is: a list head, or inside `buffer_entry[b]`. -/
inductive Addr
  | head (m : Member) (i : Nat)
  | node (m : Member) (b : Nat)
  deriving DecidableEq, Repr

def Addr.member : Addr → Member
  | .head m _ => m
  | .node m _ => m

/-- `free_buf_list_head` and `lru_buf_list_head`. -/
abbrev freeHead : Addr := .head .free 0
abbrev lruHead : Addr := .head .lru 0

/-- mirrors src/lib/list.h:12-14 -/
def containerOf (m : Member) : Addr → Option Nat
  | .node m' b => if m' = m then some b else none
  | .head _ _ => none

structure Buf where
  heap : Heap Addr
  lpn : Nat → UInt32
  bufId : Nat → UInt32
  cnt : Nat → UInt32

def Buf.setLpn (s : Buf) (b : Nat) (lpn : UInt32) : Buf :=
  { s with lpn := fun c => if c = b then lpn else s.lpn c }

def Buf.setCnt (s : Buf) (h : Nat) (n : UInt32) : Buf :=
  { s with cnt := fun k => if k = h then n else s.cnt k }

/-- Every head points to itself, every node is `NULL`.
mirrors src/buffer/buffer.c:19-20,44-54,191-200,241-252; the node the
initialisation does not set is in memory that `main` cleared. -/
def bufferZero : Buf where
  heap
    | .head m i => ⟨some (.head m i), some (.head m i)⟩
    | .node _ _ => ⟨none, none⟩
  lpn _ := 0xffffffff
  bufId b := UInt32.ofNat b
  cnt _ := 0

/-- mirrors src/buffer/buffer.c:30-63 -/
def initBuffer : Option Buf := do
  let heap ← (List.range BUFFER_NUMBER).foldlM
    (fun h i => listAddTail h (.node .free i) freeHead) bufferZero.heap
  return { bufferZero with heap := heap }

/-- `list_for_each_entry` from node `a` up to the first buffer `p` accepts;
`p` is also given the number of buffers passed. The inner `none` is the end
of the list.
mirrors src/lib/list.h:16-19 -/
def forEachEntry (h : Heap Addr) (m : Member) (head : Addr) (p : Nat → Nat → Bool) :
    Nat → Nat → Option Addr → Option (Option Nat)
  | 0, _, _ => none
  | fuel + 1, passed, a => do
    let a ← a
    if a = head then return none
    else
      let b ← containerOf m a
      if p passed b then return some b
      else forEachEntry h m head p fuel (passed + 1) (h a).next

/-! ## The hash table -/

/-- mirrors src/buffer/buffer.c:186-189 -/
def getHashCode (key : UInt32) : Nat := key.toNat % HASH_TABLE_SIZE

/-- mirrors src/buffer/buffer.c:202-206 -/
def insertHashTableEntry (s : Buf) (key : UInt32) (b : Nat) : Option Buf := do
  let heap ← listAddTail s.heap (.node .hash b) (.head .hash (getHashCode key))
  return { s with heap := heap }

/-- The inner `none` is `NULL`.
mirrors src/buffer/buffer.c:208-222 -/
def searchHashTableEntry (s : Buf) (key : UInt32) : Option (Option Nat) :=
  let head := Addr.head .hash (getHashCode key)
  forEachEntry s.heap .hash head (fun _ b => s.lpn b == key) (BUFFER_NUMBER + 1) 0 (s.heap head).next

/-- mirrors src/buffer/buffer.c:224-238 -/
def deleteHashTableEntry (s : Buf) (key : UInt32) : Option Buf := do
  match ← searchHashTableEntry s key with
  | some b =>
    let heap ← listDelete s.heap (some (.node .hash b))
    return { s with heap := heap }
  | none => return s

/-! ## The cache -/

/-- mirrors src/buffer/buffer.c:65-90 -/
def checkBufHit (s : Buf) (lpn : UInt32) : Option UInt32 := do
  match ← searchHashTableEntry s lpn with
  | none => return INVALID_ID
  | some b => return s.bufId b

/-- mirrors src/buffer/buffer.c:93-147 -/
def allocateBuf (s : Buf) (lpn : UInt32) : Option (UInt32 × Buf) := do
  if listEmpty s.heap freeHead then
    let tail ← (s.heap lruHead).prev
    let b ← containerOf .lru tail
    let s ← deleteHashTableEntry s (s.lpn b)
    let s := s.setLpn b lpn
    let s ← insertHashTableEntry s lpn b
    let heap ← listDeleteTail s.heap lruHead
    let heap ← listAddHead heap (.node .lru b) lruHead
    let s := { s with heap := heap }
    let s := s.setLpn b lpn
    return (s.bufId b, s)
  else
    let first ← (s.heap freeHead).next
    let b ← containerOf .free first
    let heap ← listDeleteHead s.heap freeHead
    let heap ← listAddHead heap (.node .lru b) lruHead
    let s := { s with heap := heap }
    let s ← insertHashTableEntry s lpn b
    let s := s.setLpn b lpn
    return (s.bufId b, s)

/-! ## The buffers of a host command -/

/-- mirrors src/buffer/buffer.c:254-262 -/
def getHcmdBuffCnt (s : Buf) (hcmd : Nat) : UInt32 := s.cnt hcmd

/-- mirrors src/buffer/buffer.c:265-281 -/
def hcmdAddBuffer (s : Buf) (hcmd : Nat) (buffer : UInt32) (lpn : UInt32) : Option Buf := do
  let s := s.setLpn buffer.toNat lpn
  let heap ← listAddTail s.heap (.node .hcmd buffer.toNat) (.head .hcmd hcmd)
  let s := { s with heap := heap }
  return s.setCnt hcmd (s.cnt hcmd + 1)

/-- The buffer `offset` places into the list of `hcmd`.
mirrors src/buffer/buffer.c:321-331 -/
def hcmdEntryAt (s : Buf) (hcmd offset : Nat) : Option Nat :=
  let head := Addr.head .hcmd hcmd
  (forEachEntry s.heap .hcmd head (fun passed _ => decide (offset ≤ passed)) (offset + 1) 0
    (s.heap head).next).join

/-- mirrors src/buffer/buffer.c:306-333 -/
def hcmdGetBuffer (s : Buf) (hcmd offset : Nat) : Option UInt32 := (hcmdEntryAt s hcmd offset).map s.bufId

/-- mirrors src/buffer/buffer.c:283-304 -/
def hcmdBufGetLpn (s : Buf) (hcmd offset : Nat) : Option UInt32 := (hcmdEntryAt s hcmd offset).map s.lpn

/-- The `while` loop. A round that unlinks a node leaves it `NULL`, and one
that does not changes nothing, so a run of more rounds than there are nodes
and heads goes on for ever.
mirrors src/buffer/buffer.c:340-343 -/
def freeLoop (head : Addr) : Nat → Heap Addr → Option (Heap Addr)
  | 0, _ => none
  | fuel + 1, h =>
    if listEmpty h head then some h else (listDeleteTail h head).bind (freeLoop head fuel)

/-- mirrors src/buffer/buffer.c:335-347 -/
def hcmdFreeBuf (s : Buf) (hcmd : Nat) : Option Buf := do
  let heap ← freeLoop (.head .hcmd hcmd) (BUFFER_NUMBER + hcmdTableEntries + 1) s.heap
  return { s with heap := heap }.setCnt hcmd 0

end OpenSSDEmu.L3.Buffer
