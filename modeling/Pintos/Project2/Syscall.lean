import Mathlib.Data.Fintype.Defs
import Pintos.Lib.LockCode
import Pintos.Vm.State

/-! # System calls of Project 2

The system calls on files in `syscall.c` of Project 2, with what they do to `LOCK`.
What the file system and `malloc` answer are arguments of a call, and so is
whether an access to user memory faults; a fault in the kernel stops it. So do
assertions that fail. The arguments are arbitrary: `syscall_handler` has only the
first of them read from the stack.
-/

namespace Pintos.Project2

open Vm (Vaddr FilePtr isUserVaddr)

/-- `LOCK`. -/
inductive Lock where
  | lock
deriving DecidableEq, Repr

instance : Fintype Lock where
  elems := {.lock}
  complete := by
    intro l
    cases l
    decide

abbrev Op := Sync.Op Lock Unit

abbrev Code := Sync.Code Lock Unit

/-- `lock_acquire (&LOCK)`. -/
def lockAcquire : Code Unit := .acquire .lock

/-- `lock_release (&LOCK)`. -/
def lockRelease : Code Unit := .release .lock

/-- `thread_exit`. -/
def threadExit : Code Unit := .leave

/-- `MAX_FILE_SIZE` and `MAX_FILE_NAME_LENGTH`. -/
def maxFileSize : UInt32 := 204800
def maxFileNameLength : UInt32 := 64

/-! ## User memory -/

/-- An access to user memory. -/
def access (faults : Bool) : Code Unit := if faults then .stop else pure ()

/-- A string in user memory, with its length unless reading it faults. -/
structure UserString where
  addr : Vaddr
  length : Option UInt32
deriving DecidableEq, Repr

def strlen (s : UserString) : Code UInt32 :=
  match s.length with
  | none => .stop
  | some n => pure n

/-- `validaddr`; the sum wraps around. -/
def validaddr (va : Vaddr) (size : UInt32) : Bool := isUserVaddr (va + size)

/-- The check of a file name in `create`, `remove` and `open`. -/
def checkAddress (file : UserString) : Code Unit := do
  if validaddr file.addr 0 = false then
    threadExit
  else
    let n ← strlen file
    if validaddr file.addr n = false then threadExit

/-! ## Open files -/

/-- `struct process_file`. -/
structure ProcessFile where
  file : Option FilePtr
  fd : ℤ
deriving DecidableEq, Repr

/-- The members `file_list` and `fd` of a thread. -/
structure Process where
  fileList : List ProcessFile
  fd : ℤ
deriving DecidableEq, Repr

/-- The loop of `file_check`. It moves on twice in a round: after the last element it
calls `list_next` for the tail, which fails an assertion. -/
def fileCheckLoop (fd : ℤ) : List ProcessFile → Code (Option FilePtr)
  | [] => pure none
  | pf :: rest =>
      if fd = pf.fd then
        pure pf.file
      else
        match rest with
        | [] => .stop
        | _ :: rest => fileCheckLoop fd rest

/-- `file_check`. -/
def fileCheck (p : Process) (fd : ℤ) : Code (Option FilePtr) := fileCheckLoop fd p.fileList

/-- `process_file_add`, which does not check what `malloc` returns. -/
def processFileAdd (p : Process) (f : Option FilePtr) (malloc : Bool) : Code (ℤ × Process) := do
  access (!malloc)
  return (p.fd, { fileList := p.fileList ++ [{ file := f, fd := p.fd }], fd := p.fd + 1 })

/-- `process_file_get`. -/
def processFileGet (p : Process) (fd : ℤ) : Option FilePtr :=
  (p.fileList.find? fun pf => fd = pf.fd).bind (·.file)

/-- `file_seek`, which asserts that the position is not negative as an `off_t`. -/
def fileSeek (position : UInt32) : Code Unit := access (decide (2 ^ 31 ≤ position.toNat))

/-! ## System calls -/

/-- `create`; `created` is what `filesys_create` returns. -/
def create (file : UserString) (initialSize : UInt32) (created : Bool) : Code Bool := do
  checkAddress file
  lockAcquire
  if initialSize ≤ maxFileSize then
    if (← strlen file) > maxFileNameLength then
      pure ()
    else if (← strlen file) = 0 then
      pure ()
    else
      lockRelease
      return created
  lockRelease
  return false

/-- `remove`; `removed` is what `filesys_remove` returns. -/
def remove (file : UserString) (removed : Bool) : Code Bool := do
  checkAddress file
  lockAcquire
  lockRelease
  return removed

/-- `open`; `opened` is what `filesys_open` returns. -/
def openFile (p : Process) (file : UserString) (opened : Option FilePtr) (malloc : Bool) :
    Code (ℤ × Process) := do
  checkAddress file
  lockAcquire
  if (← strlen file) = 0 then
    return (-1, p)
  else
    if opened = none then lockRelease
    let added ← processFileAdd p opened malloc
    lockRelease
    return added

/-- `filesize`; `length` is what `file_length` returns. -/
def filesize (p : Process) (fd : ℤ) (length : ℤ) : Code ℤ := do
  lockAcquire
  if processFileGet p fd ≠ none then
    lockRelease
    return length
  else
    lockRelease
    return -1

/-- `read`. -/
def read (fd : ℤ) (buffer : Vaddr) (size : UInt32) (faults : Bool) : Code ℤ := do
  if validaddr buffer size = false then threadExit
  lockAcquire
  let mut returnVal : ℤ := -1
  if fd = 0 then
    access faults
    returnVal := size.toInt32.toInt
  lockRelease
  return returnVal

/-- `write`; `written` is what `file_write` returns. -/
def write (p : Process) (fd : ℤ) (buffer : Vaddr) (size : UInt32) (faults : Bool) (written : ℤ) :
    Code ℤ := do
  if validaddr buffer size = false then threadExit
  lockAcquire
  if fd = 1 then
    access faults
    return size.toInt32.toInt
  if (← fileCheck p fd) = none then
    lockRelease
    return -1
  else
    access faults
    lockRelease
    return written

/-- `seek`. -/
def seek (p : Process) (fd : ℤ) (position : UInt32) : Code Unit := do
  lockAcquire
  if (← fileCheck p fd) ≠ none then fileSeek position
  lockRelease

/-- `tell`; `pos` is what `file_tell` returns. -/
def tell (p : Process) (fd : ℤ) (pos : ℤ) : Code ℤ := do
  lockAcquire
  if (← fileCheck p fd) = none then
    lockRelease
    return -1
  else
    lockRelease
    return pos

/-- A system call, with what decides the branches it takes. -/
inductive Call where
  | create (file : UserString) (initialSize : UInt32) (created : Bool)
  | remove (file : UserString) (removed : Bool)
  | open (file : UserString) (opened : Option FilePtr) (malloc : Bool)
  | filesize (fd length : ℤ)
  | read (fd : ℤ) (buffer : Vaddr) (size : UInt32) (faults : Bool)
  | write (fd : ℤ) (buffer : Vaddr) (size : UInt32) (faults : Bool) (written : ℤ)
  | seek (fd : ℤ) (position : UInt32)
  | tell (fd pos : ℤ)
deriving DecidableEq, Repr

/-- The part of `syscall_handler` for a call: the open files after it, and what is
stored in `eax`, if something is. -/
def syscallHandler (p : Process) : Call → Code (Process × Option ℤ)
  | .create file initialSize created => do
      let file_created ← create file initialSize created
      return (p, some file_created.toInt)
  | .remove file removed => do
      let file_removed ← remove file removed
      return (p, some file_removed.toInt)
  | .open file opened malloc => do
      let (fd, p') ← openFile p file opened malloc
      return (p', some fd)
  | .filesize fd length => do
      let eax ← filesize p fd length
      return (p, some eax)
  | .read fd buffer size faults => do
      let eax ← read fd buffer size faults
      return (p, some eax)
  | .write fd buffer size faults written => do
      let _ ← write p fd buffer size faults written
      return (p, none)
  | .seek fd position => do
      seek p fd position
      return (p, none)
  | .tell fd pos => do
      let eax ← tell p fd pos
      return (p, some eax)

end Pintos.Project2
