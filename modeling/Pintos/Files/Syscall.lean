import Pintos.Lib.IntrusiveList
import Pintos.Vm.Process

/-! # The file descriptors of a process

`get_file`, `open` and `close` of `syscall.c`, which keep the descriptors of a
process in its list `files`, and the calls on mappings, which do not: they look
descriptors up in `file_list`. `file_lock` is left out, and so are the checks of
user addresses before the calls.
-/

namespace Pintos.Files

open Intrusive Vm

/-- The nodes of the list `files`: its sentinels, and the `elem` of the descriptor at
an address. -/
inductive Node where
  | head
  | tail
  | elem (p : Ptr)
deriving DecidableEq, Repr

/-- `cur->files`. -/
def files : Ends Node := ⟨.head, .tail⟩

/-- `struct file_descriptor`, without its links. -/
structure FileDescriptor where
  fd : ℤ
  file : FilePtr
deriving DecidableEq, Repr

/-- What a word that is read as a `struct file *` points to. -/
inductive Word where
  | file (f : FilePtr)
  | node (n : Node)
deriving DecidableEq, Repr

/-- The kernel, with the links and the descriptors of one process. -/
structure State where
  kernel : Kernel
  links : Links Node
  descriptors : AList fun _ : Ptr => FileDescriptor

/-- A process starts with an empty list, made by `init_thread`. -/
def State.start (k : Kernel) : State where
  kernel := k
  links := listInit ⟨fun _ => none, fun _ => none⟩ files
  descriptors := ∅

/-! ## `get_file` -/

/-- The fields `fd` and `file` of `list_entry (e, struct file_descriptor, elem)`. The
tail is the second half of the list: what stands before it is the first half, so
that `fd` is the link before the head, which is null, and `file` the link behind it. -/
def State.descriptorAt (s : State) : Node → Option (ℤ × Option Word)
  | .head => none
  | .tail => if s.links.prev .head = none then some (0, (s.links.next .head).map .node) else none
  | .elem p => (s.descriptors.lookup p).map fun d => (d.fd, some (.file d.file))

/-- The test of the loops of `get_file` and `close`. -/
def State.hasFd (s : State) (fd : ℤ) (e : Node) : Bool := (s.descriptorAt e).any (·.1 = fd)

/-- The loop of `get_file`, from the tail backwards: the nodes it reads, and the one
it finds. There are no more than the descriptors and the two sentinels. -/
def getFileLoop (s : State) (fd : ℤ) : Option (List Node × Option Node) :=
  search s.links.prev .head (s.hasFd fd) (s.descriptors.entries.length + 2) .tail

/-- `get_file`; the inner `none` is a null pointer. -/
def getFile (s : State) (fd : ℤ) : Option (Option Word) :=
  (getFileLoop s fd).map fun r => do (← s.descriptorAt (← r.2)).2

/-! ## `open` and `close` -/

/-- The next `int`. -/
def nextInt (x : ℤ) : ℤ := if x = 2 ^ 31 - 1 then -2 ^ 31 else x + 1

/-- `filesys_open`: the name is one of a file or not. -/
def filesysOpen (env : Env) (k : Kernel) : Option Inode → Option FilePtr × Kernel
  | none => (none, k)
  | some i => fileOpen env k i

/-- `open`; `desc` is what `malloc` returns for the descriptor, which is written to
without a check. -/
def sysOpen (env : Env) (desc : Option Ptr) (s : State) (t : Tid) (file : Option Inode) :
    Except String (ℤ × State) :=
  match filesysOpen env s.kernel file with
  | (none, k) => .ok (error, { s with kernel := k })
  | (some f, k) => do
      let p ← deref (desc.filter (· ∉ s.descriptors))
      let fd := k.fd t
      let links ← deref (listPushBack s.links files (.elem p))
      return (fd, {
        kernel := { k with fd := Function.update k.fd t (nextInt fd) }
        links := links
        descriptors := s.descriptors.insert p { fd := fd, file := f } })

/-- `close`: the first descriptor with this number, from the front. -/
def sysClose (s : State) (fd : ℤ) : Except String State := do
  let begin ← deref (s.links.next .head)
  match ← deref (search s.links.next .tail (s.hasFd fd) (s.descriptors.entries.length + 1)
      begin) with
  | (_, none) => return s
  | (_, some .head) => .error kernelBug
  | (_, some .tail) => .error kernelBug
  | (_, some (.elem p)) => do
      let d ← deref (s.descriptors.lookup p)
      let k ← fileClose s.kernel d.file
      let links ← deref (listRemove s.links (.elem p))
      return { kernel := k, links := links, descriptors := s.descriptors.erase p }

/-! ## The calls on mappings -/

/-- `mmap`. -/
def sysMmap (env : Env) (s : State) (t : Tid) (fd : ℤ) (addr : Vaddr) :
    Except String (ℤ × State) := do
  let (id, k) ← mmap env s.kernel t fd addr
  return (id, { s with kernel := k })

/-- `munmap`. -/
def sysMunmap (s : State) (t : Tid) (mapping : ℤ) : Except String State := do
  let k ← munmap s.kernel t mapping
  return { s with kernel := k }

/-- The system calls, with what they return. -/
inductive Call where
  /-- `open`, and the file it has obtained. -/
  | openFile (fd : ℤ) (file : Option FilePtr)
  | close (fd : ℤ)
  | mmap (fd : ℤ) (addr : Vaddr) (result : ℤ)
  | munmap (mapping : ℤ)
deriving DecidableEq, Repr

/-- A system call of the process. -/
def Performs (t : Tid) (s : State) : Call → State → Prop
  | .openFile fd f, s' => ∃ env desc file, (filesysOpen env s.kernel file).1 = f ∧
      sysOpen env desc s t file = .ok (fd, s')
  | .close fd, s' => sysClose s fd = .ok s'
  | .mmap fd addr id, s' => ∃ env, sysMmap env s t fd addr = .ok (id, s')
  | .munmap mapping, s' => sysMunmap s t mapping = .ok s'

end Pintos.Files
