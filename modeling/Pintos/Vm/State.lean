import Mathlib.Algebra.Order.Ring.Int
import Mathlib.Data.List.AList
import Mathlib.Logic.Function.Basic

/-! # The state of the Project 3 virtual memory

The data of `vm/frame.h`, `vm/page.h`, `vm/swap.h` and of the thread fields
they use. Pointers to supplemental page table entries and to open files are
kept as pointers into a heap, because several structures share them: the frame
table, the supplemental page table and the list of mappings of a process.

What Pintos itself provides (page directories, the page allocator, the block
device, the file system) is represented by what its contracts speak about: a
page directory maps user pages to entries, the user pool is its list of free
pages, a file is its bytes. `hist` is a history variable that no operation
reads.
-/

namespace Pintos.Vm

/-! ## Addresses and pages -/

abbrev Tid := ℕ

/-- A user virtual address. -/
abbrev Vaddr := UInt32

/-- A page of the user pool. -/
abbrev Frame := ℕ

/-- A pointer to a `struct suppl_page_tbl_ent`. -/
abbrev Ptr := ℕ

/-- A pointer to a `struct file`. -/
abbrev FilePtr := ℕ

/-- The number of an inode. -/
abbrev Inode := ℕ

@[reducible] def pgSize : ℕ := 4096

instance neZero_pgSize : NeZero pgSize := ⟨by decide⟩

/-- The contents of a page. -/
abbrev Page := Fin pgSize → UInt8

def zeroPage : Page := fun _ => 0

def physBase : Vaddr := 0xc0000000
def userVaddrBottom : Vaddr := 0x08048000
def stackH : Vaddr := 32
def maxStackSize : Vaddr := 0x800000

/-- `pg_round_down`. -/
def pgRoundDown (va : Vaddr) : Vaddr := va - va % 4096

/-- `pg_ofs`. -/
def pgOfs (va : Vaddr) : Fin pgSize := ⟨va.toNat % pgSize, Nat.mod_lt _ (by decide)⟩

theorem pgRoundDown_toNat {va : Vaddr} : (pgRoundDown va).toNat = va.toNat - va.toNat % 4096 := by
  unfold pgRoundDown
  have hle : va % 4096 ≤ va := by
    rw [UInt32.le_iff_toNat_le, UInt32.toNat_mod]
    exact Nat.mod_le _ _
  rw [UInt32.toNat_sub_of_le _ _ hle, UInt32.toNat_mod]
  rfl

/-- The offset of an address in its page. -/
theorem pgRoundDown_add (va : Vaddr) : (pgRoundDown va).toNat + (pgOfs va).val = va.toNat := by
  rw [pgRoundDown_toNat]
  exact Nat.sub_add_cancel (Nat.mod_le ..)

theorem toNat_aligned {va : Vaddr} (h : va % 4096 = 0) : va.toNat % 4096 = 0 := by
  have hmod := congrArg UInt32.toNat h
  rwa [UInt32.toNat_mod] at hmod

/-- `is_user_vaddr`. -/
@[reducible] def isUserVaddr (va : Vaddr) : Prop := va < physBase

/-! ## The structures -/

/-- `FILE`, `SWAP`, `MMAP` and `HASH_ERROR`. -/
inductive PageType where
  | file
  | swap
  | mmap
  | hashError
deriving DecidableEq, Repr

/-- `struct suppl_page_tbl_ent`. -/
structure Spte where
  unusedVirtualAddress : Vaddr
  type : PageType
  writable : Bool
  isLoaded : Bool
  pinned : Bool
  file : FilePtr
  offset : UInt32
  readBytes : UInt32
  zeroBytes : UInt32
  swapIndex : ℕ
deriving DecidableEq, Repr

/-- A present page directory entry. -/
structure Pte where
  frame : Frame
  writable : Bool
  accessed : Bool
  dirty : Bool
deriving DecidableEq, Repr

/-- `struct frame_tbl_ent`. -/
structure FrameTblEnt where
  frame : Frame
  thread : Tid
  spte : Ptr
deriving DecidableEq, Repr

/-- `struct mmap_file`. -/
structure MmapFile where
  spte : Ptr
  mapid : ℤ
deriving DecidableEq, Repr

/-- `struct process_file`. -/
structure ProcessFile where
  file : FilePtr
  fd : ℤ
deriving DecidableEq, Repr

/-- `struct file`: an open handle on an inode; `denyWrite` while this handle
denies writes to it. -/
structure OpenFile where
  inode : Inode
  denyWrite : Bool
deriving DecidableEq, Repr

/-- The bytes of a file; their number is an `off_t`. -/
structure FileData where
  bytes : List UInt8
  length_lt : bytes.length < 2 ^ 31
deriving DecidableEq, Repr

/-- A sector of the block device. -/
abbrev Sector := Fin 512 → UInt8

@[reducible] def sectorsPerPage : ℕ := 8

/-- `swap_block`, with its size in sectors, and `swap_map`; a bit is set while
its slot is `SWAP_IN_USE`. -/
structure Swap where
  blockSize : ℕ
  disk : ℕ → Sector
  map : List Bool
  map_length : map.length = blockSize / sectorsPerPage

/-- The life of a process: `killed` from the moment it calls `exit` or is
killed to its `process_exit`, `exiting` inside `process_exit`. -/
inductive ProcessStatus where
  | absent
  | alive
  | killed
  | exiting
deriving DecidableEq, Repr

/-- What the history variable records. -/
inductive Event where
  /-- An entry for the page at `uva` enters the supplemental page table of `t`;
  `page` is the page's initial contents. -/
  | map (t : Tid) (uva : Vaddr) (page : Page)
  /-- Process `t` stores `byte` at `va`. -/
  | store (t : Tid) (va : Vaddr) (byte : UInt8)

/-- The state. The fields of `struct thread` are maps from threads, the kernel
heap is `sptes` and `files`, and `hist` is newest first. `listed` says whether
`init_thread` makes lists of `file_list` and `mmap_list` by `list_init` (and of
`child_list`, which is left out here); the source does not, so that its `memset` leaves null
links there. -/
structure Kernel where
  listed : Bool
  status : Tid → ProcessStatus
  pagedir : Tid → AList fun _ : Vaddr => Pte
  spt : Tid → List Ptr
  mmapList : Tid → List MmapFile
  mapid : Tid → ℤ
  fileList : Tid → List ProcessFile
  fd : Tid → ℤ
  executable : Tid → Option FilePtr
  sptes : Ptr → Option Spte
  files : AList fun _ : FilePtr => OpenFile
  inodes : Inode → Option FileData
  frameTblList : List FrameTblEnt
  userPool : List Frame
  freePages : List Frame
  mem : Frame → Page
  swap : Option Swap
  hist : List Event

/-- What the rest of the kernel answers during one operation: the addresses
`malloc` returns for the entries and for file handles (an address in use
counts as a failed allocation), whether its other allocations and `pagedir_create`
succeed, which free page `palloc_get_page` picks and what is in it, and for how many
rounds loops without a bound are followed. -/
structure Env where
  malloc : ℕ → Option Ptr
  mallocFile : Option FilePtr
  mallocFte : Bool
  mallocMmap : ℕ → Bool
  pagedirCreate : Bool
  setPage : Bool
  pick : ℕ
  garbage : Page
  rounds : ℕ

/-! ## Errors -/

/-- The `PANIC` of `kill` for a fault in the kernel, such as following a null
pointer. -/
def kernelBug : String := "Kernel bug - unexpected interrupt in kernel"

/-- What `list_next` asserts of an element. -/
def isNextable : String := "is_head (elem) || is_interior (elem)"

/-- What `list_insert` asserts of the element behind a new one. -/
def isInsertable : String := "is_interior (before) || is_tail (before)"

/-- Follow a pointer. -/
def deref {α : Type} : Option α → Except String α
  | some a => .ok a
  | none => .error kernelBug

theorem deref_ok {α : Type} {o : Option α} {a : α} (h : deref o = .ok a) : o = some a := by
  cases o with
  | none => cases h
  | some b => rw [Except.ok.inj h]

/-! ## Writing single fields -/

namespace Kernel

/-- The entry of a page in the page directory of `t`. -/
def pteOf (k : Kernel) (t : Tid) (va : Vaddr) : Option Pte := (k.pagedir t).lookup va

def setPte (k : Kernel) (t : Tid) (va : Vaddr) (pte : Pte) : Kernel :=
  { k with pagedir := Function.update k.pagedir t ((k.pagedir t).insert va pte) }

def clearPte (k : Kernel) (t : Tid) (va : Vaddr) : Kernel :=
  { k with pagedir := Function.update k.pagedir t ((k.pagedir t).erase va) }

def setSpte (k : Kernel) (p : Ptr) (e : Option Spte) : Kernel :=
  { k with sptes := Function.update k.sptes p e }

def setSpt (k : Kernel) (t : Tid) (l : List Ptr) : Kernel :=
  { k with spt := Function.update k.spt t l }

def setMem (k : Kernel) (f : Frame) (page : Page) : Kernel :=
  { k with mem := Function.update k.mem f page }

def setStatus (k : Kernel) (t : Tid) (s : ProcessStatus) : Kernel :=
  { k with status := Function.update k.status t s }

def setMmapList (k : Kernel) (t : Tid) (l : List MmapFile) : Kernel :=
  { k with mmapList := Function.update k.mmapList t l }

def log (k : Kernel) (e : Event) : Kernel := { k with hist := e :: k.hist }

/-- The bytes of an inode. -/
def bytesOf (k : Kernel) (i : Inode) : List UInt8 := (k.inodes i).elim [] (·.bytes)

end Kernel

end Pintos.Vm
