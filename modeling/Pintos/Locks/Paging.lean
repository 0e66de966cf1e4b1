import Mathlib.Data.Fintype.Defs
import Mathlib.Data.Finset.Insert
import Pintos.Lib.LockCode

/-! # The locks of the virtual memory

What `frame.c`, `swap.c`, `page.c` and the page fault handler do to `file_lock`,
`frame_tbl_lock` and `swap_lock`. A function takes as arguments what it finds
and what the functions it calls return; these decide which branches it takes.
`reach` marks the beginning of `load_page` and of `stack_growth`.

Accesses to a frame by its kernel address do not fault. Nor does the access of
`swap_in` to the user address of its page, which has just been installed and is
pinned.
-/

namespace Pintos.Locks

/-- The locks. -/
inductive Lock where
  | fileLock
  | frameTblLock
  | swapLock
deriving DecidableEq, Repr

instance : Fintype Lock where
  elems := {.fileLock, .frameTblLock, .swapLock}
  complete := by
    intro l
    cases l <;> decide

/-! ## What the functions find -/

/-- What happens in `swap_out`: there is no swap partition, or it is full, or a slot
is written. -/
inductive SwapOut where
  | noPartition
  | full
  | written
deriving DecidableEq, Repr

/-- What happens in `evict_frame`: every frame is pinned; or the frame it evicts is
clean, or a dirty one of a mapping, or goes to the swap partition. -/
inductive Eviction where
  | allPinned
  | clean
  | mmap
  | swap (o : SwapOut)
deriving DecidableEq, Repr

/-- What happens in `frame_alloc`: the evictions until `palloc_get_page` succeeds,
none if it does so at once, and whether `malloc` returns a frame table entry. -/
structure Allocation where
  evictions : List Eviction
  malloc : Bool
deriving DecidableEq, Repr

/-- What happens in `load_file`: the number of bytes to read, whether they are all
read, and whether `install_page` succeeds. -/
structure FileLoad where
  allocation : Allocation
  readBytes : ℕ
  readOk : Bool
  installed : Bool
deriving DecidableEq, Repr

/-- What happens in `swap_in`: there is no swap partition, or the slot is free, or it
is read. -/
inductive SwapIn where
  | noPartition
  | free
  | read
deriving DecidableEq, Repr

/-- What happens in `load_swap`. -/
structure SwapLoad where
  allocation : Allocation
  installed : Bool
  swapIn : SwapIn
deriving DecidableEq, Repr

/-- What `load_page` finds: a page that is loaded, or one of a type. -/
inductive PageLoad where
  | loaded
  | file (o : FileLoad)
  | swap (o : SwapLoad)
  | mmap (o : FileLoad)
  | hashError
deriving DecidableEq, Repr

/-- What happens in `stack_growth`: whether the address is within the maximal size
of a stack, what `malloc` returns, and whether the page gets installed and into
the supplemental page table. -/
structure StackGrowth where
  inRange : Bool
  malloc : Bool
  allocation : Allocation
  installed : Bool
  inserted : Bool
deriving DecidableEq, Repr

/-- What `page_fault` finds: an access it does not serve, a page with an entry, or
one to grow the stack by. -/
inductive Fault where
  | invalid
  | page (p : PageLoad)
  | growth (g : StackGrowth)
deriving DecidableEq, Repr

/-- The places in the code that are marked. -/
inductive Place where
  | loadPage (p : PageLoad)
  | stackGrowth (g : StackGrowth)
  | loadReturns
  | threadExit
  | userMode
deriving DecidableEq, Repr

abbrev Op := Sync.Op Lock Place

abbrev Code := Sync.Code Lock Place

def lockAcquire (l : Lock) : Code Unit := .acquire l

def lockRelease (l : Lock) : Code Unit := .release l

def reach (p : Place) : Code Unit := .reach p

/-- A `PANIC`, a fault in the kernel that is not served, or an endless loop. -/
def stop {α : Type} : Code α := .stop

/-! ## swap.c -/

/-- `swap_in`. -/
def swapIn : SwapIn → Code Unit
  | .noPartition => pure ()
  | .free => do
      lockAcquire .swapLock
      stop
  | .read => do
      lockAcquire .swapLock
      lockRelease .swapLock

/-- `swap_out`. -/
def swapOut : SwapOut → Code Unit
  | .noPartition => stop
  | .full => do
      lockAcquire .swapLock
      stop
  | .written => do
      lockAcquire .swapLock
      lockRelease .swapLock

/-! ## frame.c -/

/-- `add_frame_to_tbl`; it follows the pointer from `malloc` without a check. -/
def addFrameToTbl (malloc : Bool) : Code Unit := do
  if malloc then
    lockAcquire .frameTblLock
    lockRelease .frameTblLock
  else
    stop

/-- `evict_frame`, which returns with `frame_tbl_lock` held. -/
def evictFrame (o : Eviction) : Code Unit := do
  lockAcquire .frameTblLock
  match o with
  | .allPinned => stop
  | .clean => pure ()
  | .mmap => do
      lockAcquire .fileLock
      lockRelease .fileLock
  | .swap o => swapOut o

/-- The loop of `frame_alloc`. -/
def evictLoop : List Eviction → Code Unit
  | [] => pure ()
  | o :: rest => do
      evictFrame o
      lockRelease .frameTblLock
      evictLoop rest

/-- `frame_alloc` with `PAL_USER`; it does not return without a frame. -/
def frameAlloc (o : Allocation) : Code Unit := do
  evictLoop o.evictions
  addFrameToTbl o.malloc

/-- `free_frame`. -/
def freeFrame : Code Unit := do
  lockAcquire .frameTblLock
  lockRelease .frameTblLock

/-! ## page.c -/

/-- `load_file` from `install_page` on. -/
def installFile (o : FileLoad) : Code Bool := do
  if o.installed then
    return true
  else
    freeFrame
    return false

/-- `load_file`. -/
def loadFile (o : FileLoad) : Code Bool := do
  frameAlloc o.allocation
  if o.readBytes > 0 then
    lockAcquire .fileLock
    if o.readOk then
      lockRelease .fileLock
      installFile o
    else
      lockRelease .fileLock
      freeFrame
      return false
  else
    installFile o

/-- `load_swap`. -/
def loadSwap (o : SwapLoad) : Code Bool := do
  frameAlloc o.allocation
  if o.installed then
    swapIn o.swapIn
    return true
  else
    freeFrame
    return false

/-- `load_page`. -/
def loadPage (p : PageLoad) : Code Bool := do
  reach (.loadPage p)
  match p with
  | .loaded => return false
  | .file o => loadFile o
  | .swap o => loadSwap o
  | .mmap o => loadFile o
  | .hashError => return false

/-- `stack_growth`. -/
def stackGrowth (g : StackGrowth) : Code Bool := do
  reach (.stackGrowth g)
  if g.inRange = true ∧ g.malloc = true then
    frameAlloc g.allocation
    if g.installed then
      return g.inserted
    else
      freeFrame
      return false
  else
    return false

/-! ## The page fault handler -/

/-- `page_fault`; `kill` is what `kill` does. -/
def pageFault (kill : Code Unit) (f : Fault) : Code Unit := do
  let load ←
    match f with
    | .invalid => pure false
    | .page p => loadPage p
    | .growth g => stackGrowth g
  if load then pure () else kill

/-- The kernel accesses user memory, with the page faults it takes. `kill` panics for
a fault in the kernel. -/
def access : List Fault → Code Unit
  | [] => pure ()
  | f :: rest => do
      pageFault stop f
      access rest

/-! ## What takes `file_lock` -/

/-- `evict_frame` returns. -/
def Eviction.returns : Eviction → Bool
  | .allPinned => false
  | .clean => true
  | .mmap => true
  | .swap o => o = .written

/-- A dirty page of a mapping is written back. -/
def writesMapping : List Eviction → Bool
  | [] => false
  | o :: rest => o = .mmap || o.returns && writesMapping rest

/-- `frame_alloc` returns. -/
def Allocation.returns (o : Allocation) : Bool := o.evictions.all Eviction.returns && o.malloc

/-- `load_file` reads bytes from the file, or writes a dirty page of a mapping back
to get a frame. -/
def FileLoad.usesFile (o : FileLoad) : Bool :=
  writesMapping o.allocation.evictions || o.allocation.returns && 0 < o.readBytes

/-- Loading the page reads from a file or writes to one. -/
def PageLoad.usesFile : PageLoad → Bool
  | .loaded => false
  | .file o => o.usesFile
  | .swap o => writesMapping o.allocation.evictions
  | .mmap o => o.usesFile
  | .hashError => false

/-- Growing the stack writes to a file. -/
def StackGrowth.usesFile (g : StackGrowth) : Bool :=
  g.inRange && g.malloc && writesMapping g.allocation.evictions

end Pintos.Locks
