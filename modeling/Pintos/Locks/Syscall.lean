import Pintos.Locks.Paging
import Pintos.Vm.Process

/-! # The locks of processes and system calls

What `process.c` and `syscall.c` do to the locks. The data of the process decide
which descriptors and mappings are found; what the file system, `malloc` and the
page fault handler answer are further arguments, as are the faults of each
access to user memory.
-/

namespace Pintos.Locks

open Vm (Vaddr FilePtr ProcessFile isUserVaddr userVaddrBottom closeAll)

/-! ## The process -/

/-- `struct file_descriptor`. -/
structure FileDescriptor where
  file : FilePtr
  fd : ℤ
deriving DecidableEq, Repr

/-- A page of a mapping, as `process_remove_mmap` finds it, with the faults of the
access to it when it is written back. -/
structure MmapPage where
  mapid : ℤ
  isLoaded : Bool
  dirty : Bool
  faults : List Fault
deriving DecidableEq, Repr

/-- What the lock operations of a process depend on: which pages are present, the
descriptors in `files` and the address of the first element of that list, the
descriptors in `file_list`, the pages of its mappings, and which of its other
pages are loaded. -/
structure Process where
  present : Vaddr → Bool
  files : List FileDescriptor
  filesFirst : FilePtr
  fileList : List ProcessFile
  mmapList : List MmapPage
  pages : List Bool

/-- `not_valid`. -/
def notValid (p : Process) (pointer : Vaddr) : Bool :=
  ¬ isUserVaddr pointer ∨ pointer = 0 ∨ p.present pointer = false

/-- What `get_file` takes for a descriptor at the tail element of `files`: the `prev`
and `next` pointers of the head element, which are null and the address of the
first element. -/
def tailDescriptor (p : Process) : FileDescriptor := { file := p.filesFirst, fd := 0 }

/-- `get_file`, which scans `files` backwards from its tail element. -/
def getFile (p : Process) (fd : ℤ) : Option FilePtr :=
  ((tailDescriptor p :: p.files.reverse).find? fun fileD => fileD.fd = fd).map (·.file)

/-- `process_get_file`. -/
def processGetFile (p : Process) (fd : ℤ) : Option FilePtr :=
  (p.fileList.find? fun pf => pf.fd = fd).map (·.file)

/-! ## Leaving -/

/-- Close the file of a mapping, if there is one to be closed. -/
def closePending (f : Bool) : Code Unit := do
  if f then
    lockAcquire .fileLock
    lockRelease .fileLock

/-- The part of `process_remove_mmap` for a resident page. -/
def unloadMmap (mm : MmapPage) : Code Unit := do
  if mm.dirty then
    lockAcquire .fileLock
    access mm.faults
    lockRelease .fileLock
  freeFrame

/-- The loop of `process_remove_mmap`; `f` tells whether a file is still to be closed
and `close` the mapping it belongs to. -/
def removeMmapLoop (mapping : ℤ) : List MmapPage → Bool → ℤ → Code Unit
  | [], f, _ => closePending f
  | mm :: rest, f, close =>
      if mm.mapid = mapping ∨ mapping = closeAll then do
        if mm.isLoaded then unloadMmap mm
        if mm.mapid ≠ close then do
          closePending f
          removeMmapLoop mapping rest true mm.mapid
        else
          removeMmapLoop mapping rest f close
      else
        removeMmapLoop mapping rest f close

/-- `process_remove_mmap`. -/
def processRemoveMmap (mmapList : List MmapPage) (mapping : ℤ) : Code Unit :=
  removeMmapLoop mapping mmapList false 0

/-- `page_table_rm`. -/
def pageTableRm : List Bool → Code Unit
  | [] => pure ()
  | isLoaded :: rest => do
      if isLoaded then freeFrame
      pageTableRm rest

/-- `process_exit`. -/
def processExit (p : Process) : Code Unit := do
  lockAcquire .fileLock
  lockRelease .fileLock
  processRemoveMmap p.mmapList closeAll
  pageTableRm p.pages

/-- `thread_exit`. -/
def threadExit {α : Type} (p : Process) : Code α := do
  reach .threadExit
  processExit p
  .leave

/-- `exit`. -/
def exit {α : Type} (p : Process) : Code α := threadExit p

/-! ## System calls on files -/

/-- `exec`; the new process has a thread of its own. -/
def exec (p : Process) (cmdLine : Vaddr) (name : List Fault) : Code Unit := do
  if notValid p cmdLine then exit p
  access name

/-- `create`. -/
def create (p : Process) (file : Vaddr) (name : List Fault) : Code Unit := do
  if notValid p file then exit p
  lockAcquire .fileLock
  access name
  lockRelease .fileLock

/-- `remove`; `opened` tells whether the file exists. -/
def remove (p : Process) (file : Vaddr) (name : List Fault) (opened : Bool)
    (nameAgain : List Fault) : Code Unit := do
  if notValid p file then exit p
  lockAcquire .fileLock
  access name
  if opened then access nameAgain
  lockRelease .fileLock

/-- `open`; it follows the pointer from `malloc` without a check. -/
def openFile (p : Process) (file : Vaddr) (malloc : Bool) (name : List Fault)
    (opened : Bool) : Code Unit := do
  if notValid p file then exit p
  lockAcquire .fileLock
  access name
  if opened then
    if malloc then
      lockRelease .fileLock
    else
      stop
  else
    lockRelease .fileLock

/-- `filesize`. -/
def filesize : Code Unit := do
  lockAcquire .fileLock
  lockRelease .fileLock

/-- `STDIN_FILENO` and `STDOUT_FILENO`. -/
def stdinFileno : ℤ := 0
def stdoutFileno : ℤ := 1

/-- `read`. -/
def read (p : Process) (fd : ℤ) (buffer : Vaddr) (size : UInt32) (faults : List Fault) :
    Code Unit := do
  if notValid p buffer ∨ notValid p (buffer + size) ∨ fd = stdoutFileno then exit p
  lockAcquire .fileLock
  if fd = stdinFileno then
    access faults
  else
    match getFile p fd with
    | none => pure ()
    | some _ => access faults
  lockRelease .fileLock

/-- `write`. -/
def write (p : Process) (fd : ℤ) (buffer : Vaddr) (size : UInt32) (faults : List Fault) :
    Code Unit := do
  if notValid p buffer ∨ notValid p (buffer + size) ∨ fd = stdinFileno then exit p
  lockAcquire .fileLock
  if fd = stdoutFileno then
    access faults
  else
    match getFile p fd with
    | none => pure ()
    | some _ => access faults
  lockRelease .fileLock

/-- `seek`. -/
def seek (p : Process) (fd : ℤ) : Code Unit := do
  lockAcquire .fileLock
  match getFile p fd with
  | none => exit p
  | some _ => lockRelease .fileLock

/-- `tell`. -/
def tell : Code Unit := do
  lockAcquire .fileLock
  lockRelease .fileLock

/-- `close`. -/
def close : Code Unit := do
  lockAcquire .fileLock
  lockRelease .fileLock

/-! ## Mappings -/

/-- What happens in `mmap` once it has found the file: whether `file_reopen`
succeeds, the length of the file, whether all pages can be added, and if not, the
number of the mapping and the pages of all mappings. -/
structure Mapping where
  reopened : Bool
  length : ℕ
  added : Bool
  mapid : ℤ
  mmapList : List MmapPage
deriving DecidableEq, Repr

/-- `munmap`. -/
def munmap (p : Process) (mapping : ℤ) : Code Unit := processRemoveMmap p.mmapList mapping

/-- `mmap`. -/
def mmap (p : Process) (fd : ℤ) (addr : Vaddr) (o : Mapping) : Code Unit := do
  match processGetFile p fd with
  | none => pure ()
  | some _ =>
      if ¬ isUserVaddr addr ∨ addr < userVaddrBottom ∨ addr % 4096 ≠ 0 then
        pure ()
      else if o.reopened = false ∨ o.length = 0 then
        pure ()
      else if o.added then
        pure ()
      else
        processRemoveMmap o.mmapList o.mapid

/-! ## The system call handler -/

/-- What `check_valid_ptr` finds at an address. -/
inductive Pointer where
  | outside
  | page (p : PageLoad)
  | growth (g : StackGrowth)
  | unmapped
deriving DecidableEq, Repr

/-- `check_valid_ptr`. -/
def checkValidPtr (p : Process) (ptr : Pointer) : Code Unit := do
  let load ←
    match ptr with
    | .outside => exit p
    | .page o => do
        let success ← loadPage o
        pure (success || o = .loaded)
    | .growth g => stackGrowth g
    | .unmapped => pure false
  if load then pure () else exit p

/-- `get_arg`: each argument is checked and then read. -/
def getArg (p : Process) : List (Pointer × List Fault) → Code Unit
  | [] => pure ()
  | (ptr, faults) :: rest => do
      checkValidPtr p ptr
      access faults
      getArg p rest

/-- A system call with its arguments and what it finds. -/
inductive Syscall where
  | halt
  | exit
  | exec (cmdLine : Vaddr) (name : List Fault)
  | wait
  | create (file : Vaddr) (name : List Fault)
  | remove (file : Vaddr) (name : List Fault) (opened : Bool) (nameAgain : List Fault)
  | openFile (file : Vaddr) (malloc : Bool) (name : List Fault) (opened : Bool)
  | filesize
  | read (fd : ℤ) (buffer : Vaddr) (size : UInt32) (faults : List Fault)
  | write (fd : ℤ) (buffer : Vaddr) (size : UInt32) (faults : List Fault)
  | seek (fd : ℤ)
  | tell
  | close
  | mmap (args : List (Pointer × List Fault)) (fd : ℤ) (addr : Vaddr) (o : Mapping)
  | munmap (args : List (Pointer × List Fault)) (mapping : ℤ)
  | invalid

/-- The part of a system call that `syscall_handler` executes after it has read the
number of the call. -/
def Syscall.code (p : Process) : Syscall → Code Unit
  | .halt => stop
  | .exit => Locks.exit p
  | .exec cmdLine name => Locks.exec p cmdLine name
  | .wait => pure ()
  | .create file name => Locks.create p file name
  | .remove file name opened nameAgain => Locks.remove p file name opened nameAgain
  | .openFile file malloc name opened => Locks.openFile p file malloc name opened
  | .filesize => Locks.filesize
  | .read fd buffer size faults => Locks.read p fd buffer size faults
  | .write fd buffer size faults => Locks.write p fd buffer size faults
  | .seek fd => Locks.seek p fd
  | .tell => Locks.tell
  | .close => Locks.close
  | .mmap args fd addr o => do
      getArg p args
      Locks.mmap p fd addr o
  | .munmap args mapping => do
      getArg p args
      Locks.munmap p mapping
  | .invalid => threadExit p

/-- The rest of `syscall_handler` and the return from the interrupt. -/
def serve (p : Process) (c : Syscall) : Code Unit := do
  c.code p
  reach .userMode

/-- `syscall_handler`; `reads` are the faults of its accesses to the user stack. -/
def syscallHandler (p : Process) (esp : Vaddr) (reads : List Fault) (c : Syscall) :
    Code Unit := do
  if notValid p esp then exit p
  access reads
  serve p c

/-! ## Loading an executable -/

/-- What happens in `setup_stack`: the growth of the stack, what `malloc` returns for
`argv`, for each argument the faults of storing it and whether `realloc` succeeds
(if it is called), and the faults of the other stores. -/
structure StackSetup where
  growth : StackGrowth
  malloc : Bool
  args : List (Bool × List Fault)
  pushes : List Fault
deriving DecidableEq, Repr

/-- The loop of `setup_stack` that stores the arguments. -/
def pushArgs : List (Bool × List Fault) → Code Bool
  | [] => return true
  | (realloc, faults) :: rest => do
      if realloc then
        access faults
        pushArgs rest
      else
        return false

/-- `setup_stack`. -/
def setupStack (o : StackSetup) : Code Bool := do
  if ← stackGrowth o.growth then
    if o.malloc then
      if ← pushArgs o.args then
        access o.pushes
        return true
      else
        return false
    else
      return false
  else
    return false

/-- What happens in `load`: whether there is a page directory, whether the file is
found, whether its header and each of its program headers is accepted, and what
`setup_stack` does. -/
structure Loading where
  pagedir : Bool
  opened : Bool
  header : Bool
  phdrs : List Bool
  stack : StackSetup
deriving DecidableEq, Repr

/-- The part of `load` between `lock_acquire` and `done`. -/
def loadFileBody (o : Loading) : Code Bool := do
  if o.opened = true ∧ o.header = true ∧ o.phdrs.all id then
    setupStack o.stack
  else
    return false

/-- `load`. -/
def load (o : Loading) : Code Bool := do
  let success ←
    if o.pagedir then do
      lockAcquire .fileLock
      loadFileBody o
    else
      pure false
  -- `done`
  lockRelease .fileLock
  reach .loadReturns
  return success

/-- `start_process`. -/
def startProcess (p : Process) (o : Loading) : Code Unit := do
  if ← load o then
    reach .userMode
  else
    threadExit p

/-! ## Faults in user mode -/

/-- A page fault of a process, which is killed if the fault is not served. -/
def userFault (p : Process) (f : Fault) : Code Unit := do
  pageFault (threadExit p) f
  reach .userMode

/-- What a thread of a user process does in the kernel. -/
inductive Activity where
  | syscall (p : Process) (esp : Vaddr) (reads : List Fault) (c : Syscall)
  | userFault (p : Process) (f : Fault)
  | startProcess (p : Process) (o : Loading)

/-- The lock operations of an activity. -/
def Activity.ops : Activity → List Op
  | .syscall p esp reads c => (syscallHandler p esp reads c).ops
  | .userFault p f => (Locks.userFault p f).ops
  | .startProcess p o => (Locks.startProcess p o).ops

end Pintos.Locks
