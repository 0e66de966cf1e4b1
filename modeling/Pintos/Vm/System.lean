import Pintos.Vm.Process

/-! # The virtual memory as a labelled transition system

One label for each operation, performed by a process `t`: its accesses to
memory, its page faults, the system calls on files and mappings, and its end.
Evictions happen inside the operations that allocate a frame.
-/

namespace Pintos.Vm

/-! ## Accesses to memory -/

/-- A load by process `t` from an address whose page is present. -/
def userLoad (k : Kernel) (t : Tid) (va : Vaddr) : Except String Kernel := do
  let pte ← deref (k.pteOf t (pgRoundDown va))
  return k.setPte t (pgRoundDown va) { pte with accessed := true }

/-- A store by process `t` to an address whose page is present and writable. -/
def userStore (k : Kernel) (t : Tid) (va : Vaddr) (byte : UInt8) : Except String Kernel := do
  let pte ← deref (k.pteOf t (pgRoundDown va))
  if pte.writable then
    let k := k.setMem pte.frame (Function.update (k.mem pte.frame) (pgOfs va) byte)
    let k := k.setPte t (pgRoundDown va) { pte with accessed := true, dirty := true }
    return k.log (.store t va byte)
  else
    .error kernelBug

/-- `page_fault` for an access of process `t` to `faultAddr` with stack pointer
`esp`. If the page does not get loaded the process is killed. -/
def pageFault (env : Env) (k : Kernel) (t : Tid) (faultAddr esp : Vaddr) :
    Except String Kernel := do
  let notPresent := (k.pteOf t (pgRoundDown faultAddr)).isNone
  let (load, k) ←
    if notPresent = true ∧ faultAddr > userVaddrBottom ∧ isUserVaddr faultAddr then
      match getSpte k t faultAddr with
      | some p => do
          let (load, k) ← loadPage env k t p
          let e ← deref (k.sptes p)
          pure (load, k.setSpte p (some { e with pinned := false }))
      | none =>
          if faultAddr ≥ esp - stackH then stackGrowth env 0 k t faultAddr else pure (false, k)
    else
      pure (false, k)
  return if load then k else k.setStatus t .killed

/-- `check_valid_ptr`; where it calls `exit` the process is killed. -/
def checkValidPtr (env : Env) (k : Kernel) (t : Tid) (va esp : Vaddr) : Except String Kernel :=
  if ¬ isUserVaddr va ∨ va < userVaddrBottom then
    .ok (k.setStatus t .killed)
  else do
    let (load, k) ←
      match getSpte k t va with
      | some p => do
          let (_, k) ← loadPage env k t p
          let e ← deref (k.sptes p)
          pure (e.isLoaded, k)
      | none => if va ≥ esp - stackH then stackGrowth env 0 k t va else pure (false, k)
    return if load then k else k.setStatus t .killed

/-- `unpin_ptr`. -/
def unpinPtr (k : Kernel) (t : Tid) (va : Vaddr) : Except String Kernel :=
  match getSpte k t va with
  | none => .ok k
  | some p => do
      let e ← deref (k.sptes p)
      return k.setSpte p (some { e with pinned := false })

/-! ## The labels -/

inductive Act where
  /-- A process is started and its executable loaded. -/
  | load (t : Tid) (exe : Inode) (segments : List Segment) (env : Env)
  | userLoad (t : Tid) (va : Vaddr)
  | userStore (t : Tid) (va : Vaddr) (byte : UInt8)
  | pageFault (t : Tid) (faultAddr esp : Vaddr) (env : Env)
  | checkValidPtr (t : Tid) (va esp : Vaddr) (env : Env)
  | unpinPtr (t : Tid) (va : Vaddr)
  /-- `filesys_open` and `process_add_file`. -/
  | openFile (t : Tid) (i : Inode) (env : Env)
  | closeFile (t : Tid) (fd : ℤ)
  /-- `file_write` to an open file of the process. -/
  | writeFile (t : Tid) (fd : ℤ) (data : ℕ → UInt8) (size ofs : ℕ)
  | mmap (t : Tid) (fd : ℤ) (addr : Vaddr) (env : Env)
  | munmap (t : Tid) (mapping : ℤ)
  /-- The process calls `exit`, or is killed for another reason than a fault. -/
  | exit (t : Tid)
  | processExit (t : Tid)

/-- The process that performs a label. -/
def Act.process : Act → Tid
  | .load t _ _ _ => t
  | .userLoad t _ => t
  | .userStore t _ _ => t
  | .pageFault t _ _ _ => t
  | .checkValidPtr t _ _ _ => t
  | .unpinPtr t _ => t
  | .openFile t _ _ => t
  | .closeFile t _ => t
  | .writeFile t _ _ _ _ => t
  | .mmap t _ _ _ => t
  | .munmap t _ => t
  | .exit t => t
  | .processExit t => t

/-- `filesys_open` followed by `process_add_file`. The descriptors here are those
of `file_list`, the list that `process_get_file` looks `mmap`'s descriptor up in. -/
def openFile (env : Env) (k : Kernel) (t : Tid) (i : Inode) : Except String Kernel :=
  match fileOpen env k i with
  | (none, k) => .ok k
  | (some f, k) => if k.listed then .ok (processAddFile k t f) else .error isInsertable

/-- `close` for a descriptor of `file_list`, with the loop `syscall.c` has for its
own list `files`: the first descriptor with this number. -/
def close (k : Kernel) (t : Tid) (fd : ℤ) : Except String Kernel :=
  match (k.fileList t).find? fun pf => pf.fd = fd with
  | none => .ok k
  | some pf => do
      let k ← fileClose k pf.file
      return { k with fileList := Function.update k.fileList t ((k.fileList t).erase pf) }

/-- `file_write` at position `ofs` of an open file; an unknown descriptor is
ignored. -/
def writeFile (k : Kernel) (t : Tid) (fd : ℤ) (data : ℕ → UInt8) (size ofs : ℕ) :
    Except String Kernel := do
  match ← processGetFile k t fd with
  | none => return k
  | some f => fileWriteAt k f data size ofs

/-- The status of the process that performs a label: a process is started in a new
thread, a process that runs makes system calls and faults, and one that has
been killed or has called `exit` runs `process_exit`. -/
def Act.requires : Act → ProcessStatus
  | .load _ _ _ _ => .absent
  | .processExit _ => .killed
  | _ => .alive

/-- When a label can occur. -/
def Enabled (k : Kernel) (a : Act) : Prop := k.status a.process = a.requires

instance (k : Kernel) (a : Act) : Decidable (Enabled k a) :=
  inferInstanceAs (Decidable (k.status a.process = a.requires))

/-- What a label does. -/
def perform (k : Kernel) : Act → Except String Kernel
  | .load t exe segments env => load env k t exe segments
  | .userLoad t va => userLoad k t va
  | .userStore t va byte => userStore k t va byte
  | .pageFault t faultAddr esp env => pageFault env k t faultAddr esp
  | .checkValidPtr t va esp env => checkValidPtr env k t va esp
  | .unpinPtr t va => unpinPtr k t va
  | .openFile t i env => openFile env k t i
  | .closeFile t fd => close k t fd
  | .writeFile t fd data size ofs => writeFile k t fd data size ofs
  | .mmap t fd addr env => do
      let (_, k) ← mmap env k t fd addr
      return k
  | .munmap t mapping => munmap k t mapping
  | .exit t => .ok (k.setStatus t .killed)
  | .processExit t => processExit k t

/-- One step of the system. -/
def Step (k : Kernel) (a : Act) (k' : Kernel) : Prop := Enabled k a ∧ perform k a = .ok k'

/-- Perform a label that can occur. -/
def next (k : Kernel) (a : Act) : Except String Kernel :=
  if Enabled k a then perform k a else .error "not enabled"

/-- The final state of a run that is given by its labels. -/
def runActs (k : Kernel) (as : List Act) : Except String Kernel := as.foldlM next k

theorem step_of_next {k k' : Kernel} {a : Act} (h : next k a = .ok k') : Step k a k' := by
  unfold next at h
  split at h
  next hen => exact ⟨hen, h⟩
  next => cases h

theorem run_of_runActs {k k' : Kernel} {as : List Act} (h : runActs k as = .ok k') :
    Lts.Run Step k as k' :=
  (Lts.run_of_foldlM next h).mono fun _ _ _ hn => step_of_next hn

/-- The state at start-up: no processes, a user pool of free pages, a swap block
or none, and files. -/
def boot (listed : Bool) (pool : List Frame) (mem : Frame → Page) (swap : Option Swap)
    (inodes : Inode → Option FileData) : Kernel where
  listed := listed
  status := fun _ => .absent
  pagedir := fun _ => ∅
  spt := fun _ => []
  mmapList := fun _ => []
  mapid := fun _ => 0
  fileList := fun _ => []
  fd := fun _ => 2
  executable := fun _ => none
  sptes := fun _ => none
  files := ∅
  inodes := inodes
  frameTblList := []
  userPool := pool
  freePages := pool
  mem := mem
  swap := swap
  hist := []

/-- What the machine has at start-up: the pages of the user pool are distinct,
and a swap block is found empty by `start_swap`. Its kernel makes the lists `file_list`
and `mmap_list` of a thread or, as the source does, leaves them without `list_init`. -/
structure Machine where
  listed : Bool
  pool : List Frame
  pool_nodup : pool.Nodup
  mem : Frame → Page
  swapBlock : Option (ℕ × (ℕ → Sector))
  inodes : Inode → Option FileData

/-- The state `start_swap` and `frame_tbl_init` leave behind. -/
def Machine.boot (m : Machine) : Kernel :=
  Vm.boot m.listed m.pool m.mem (m.swapBlock.map fun b => startSwap b.1 b.2) m.inodes

/-- The states reachable on a machine. Unless it is `listed` nothing is ever mapped, and
no process gets through its `process_exit`. -/
def Reachable (m : Machine) (k : Kernel) : Prop := Lts.Reaches Step m.boot k

end Pintos.Vm
