import Pintos.Lib.Run
import Pintos.Vm.Page

/-! # process.c and the system calls on mappings

`load`, with the loadable segments of the program headers as an argument, the mapping
system calls and `process_exit`. Unless `file_list` and `mmap_list` are lists (`listed`),
the first link from their heads is null, and what follows it panics.
`pd` and other fields of `struct thread` that the virtual memory does not use
are left out.
-/

namespace Pintos.Vm

/-- `CLOSE_ALL`. -/
def closeAll : ℤ := -1

/-- `ERROR`. -/
def error : ℤ := -1

/-! ## Open files -/

/-- `process_add_file`. -/
def processAddFile (k : Kernel) (t : Tid) (f : FilePtr) : Kernel :=
  { k with
    fileList := Function.update k.fileList t (k.fileList t ++ [{ file := f, fd := k.fd t }])
    fd := Function.update k.fd t (k.fd t + 1) }

/-- `process_get_file`. -/
def processGetFile (k : Kernel) (t : Tid) (fd : ℤ) : Except String (Option FilePtr) :=
  if k.listed then .ok (((k.fileList t).find? fun pf => pf.fd = fd).map (·.file))
  else .error kernelBug

theorem processGetFile_ok {k : Kernel} {t : Tid} {fd : ℤ} {f : Option FilePtr} :
    processGetFile k t fd = .ok f ↔
      k.listed = true ∧ ((k.fileList t).find? fun pf => pf.fd = fd).map (·.file) = f := by
  unfold processGetFile
  rw [Lts.guard_eq_ok, Except.ok.injEq]

/-- The loop of `process_close_file`. -/
def closeFileLoop (t : Tid) (fd : ℤ) : List ProcessFile → Kernel → Except String Kernel
  | [], k => .ok k
  | pf :: rest, k =>
      if fd = pf.fd ∨ fd = closeAll then do
        let k ← fileClose k pf.file
        let k := { k with fileList := Function.update k.fileList t ((k.fileList t).erase pf) }
        if fd ≠ closeAll then return k else closeFileLoop t fd rest k
      else
        closeFileLoop t fd rest k

/-- `process_close_file`. -/
def processCloseFile (k : Kernel) (t : Tid) (fd : ℤ) : Except String Kernel :=
  if k.listed then closeFileLoop t fd (k.fileList t) k else .error isNextable

theorem processCloseFile_ok {k k' : Kernel} {t : Tid} {fd : ℤ} :
    processCloseFile k t fd = .ok k' ↔
      k.listed = true ∧ closeFileLoop t fd (k.fileList t) k = .ok k' :=
  Lts.guard_eq_ok

/-! ## Mappings -/

/-- The part of `process_remove_mmap` for a resident page: write it back if it
is dirty, and free its frame. -/
def unloadMmap (k : Kernel) (t : Tid) (e : Spte) : Except String Kernel := do
  let k ←
    match k.pteOf t e.unusedVirtualAddress with
    | none => pure k
    | some pte =>
        if pte.dirty then
          fileWriteAt k e.file (pageByte (k.mem pte.frame)) e.readBytes.toNat e.offset.toNat
        else pure k
  let k := freeFrame k (pagedirGetPage k t e.unusedVirtualAddress)
  return pagedirClearPage k t e.unusedVirtualAddress

/-- Close a file unless the pointer is null. -/
def closePending (k : Kernel) : Option FilePtr → Except String Kernel
  | none => .ok k
  | some f => fileClose k f

/-- The loop of `process_remove_mmap`. It closes the file of a mapping when it
gets to the next mapping: `f` is the file that is still to be closed and
`close` the mapping it belongs to. -/
def removeMmapLoop (t : Tid) (mapping : ℤ) :
    List MmapFile → Option FilePtr → ℤ → Kernel → Except String Kernel
  | [], f, _, k => closePending k f
  | mm :: rest, f, close, k =>
      if mm.mapid = mapping ∨ mapping = closeAll then do
        let e ← deref (k.sptes mm.spte)
        let k := k.setSpte mm.spte (some { e with pinned := true })
        let k ← if e.isLoaded then unloadMmap k t e else pure k
        let k := if e.type ≠ .hashError then hashDelete k t e.unusedVirtualAddress else k
        let k := k.setMmapList t ((k.mmapList t).erase mm)
        if mm.mapid ≠ close then do
          let k ← closePending k f
          removeMmapLoop t mapping rest (some e.file) mm.mapid (k.setSpte mm.spte none)
        else
          removeMmapLoop t mapping rest f close (k.setSpte mm.spte none)
      else
        removeMmapLoop t mapping rest f close k

/-- `process_remove_mmap`. -/
def processRemoveMmap (k : Kernel) (t : Tid) (mapping : ℤ) : Except String Kernel :=
  if k.listed then removeMmapLoop t mapping (k.mmapList t) none 0 k else .error isNextable

theorem processRemoveMmap_ok {k k' : Kernel} {t : Tid} {mapping : ℤ} :
    processRemoveMmap k t mapping = .ok k' ↔
      k.listed = true ∧ removeMmapLoop t mapping (k.mmapList t) none 0 k = .ok k' :=
  Lts.guard_eq_ok

/-- `munmap`. -/
def munmap (k : Kernel) (t : Tid) (mapping : ℤ) : Except String Kernel :=
  processRemoveMmap k t mapping

/-- The loop of `mmap`, one page after the other; false if a page could not be
added. The first argument counts the pages of the mapping so far; the second
one bounds the rounds, and the length of the file is enough. -/
def mmapLoop (env : Env) (t : Tid) (file : FilePtr) :
    ℕ → ℕ → UInt32 → Vaddr → UInt32 → Kernel → Bool × Kernel
  | _, 0, _, _, _, k => (true, k)
  | n, rounds + 1, ofs, addr, readBytes, k =>
      if readBytes > 0 then
        let pageReadBytes := if readBytes < 4096 then readBytes else 4096
        let pageZeroBytes := 4096 - pageReadBytes
        match addMmapPageTbl env n k t file ofs addr pageReadBytes pageZeroBytes with
        | (false, k) => (false, k)
        | (true, k) =>
            mmapLoop env t file (n + 1) rounds (ofs + pageReadBytes) (addr + 4096)
              (readBytes - pageReadBytes) k
      else
        (true, k)

/-- `mmap`. -/
def mmap (env : Env) (k : Kernel) (t : Tid) (fd : ℤ) (addr : Vaddr) :
    Except String (ℤ × Kernel) := do
  match ← processGetFile k t fd with
  | none => return (error, k)
  | some oldFile =>
      if ¬ isUserVaddr addr ∨ addr < userVaddrBottom ∨ addr % 4096 ≠ 0 then
        return (error, k)
      else
        let o ← deref (k.files.lookup oldFile)
        match fileOpen env k o.inode with
        | (none, k) => return (error, k)
        | (some file, k) =>
            let length ← fileLength k oldFile
            if length = 0 then
              return (error, k)
            else
              let k := { k with mapid := Function.update k.mapid t (k.mapid t + 1) }
              let readBytes ← fileLength k file
              match mmapLoop env t file 0 readBytes 0 addr (UInt32.ofNat readBytes) k with
              | (true, k) => return (k.mapid t, k)
              | (false, k) => do
                  let k ← munmap k t (k.mapid t)
                  return (error, k)

/-! ## Loading an executable -/

/-- The arguments of a `load_segment` call. -/
structure Segment where
  ofs : UInt32
  upage : Vaddr
  readBytes : UInt32
  zeroBytes : UInt32
  writable : Bool
deriving DecidableEq, Repr

/-- The number of pages of a segment. -/
def Segment.pages (s : Segment) : ℕ := (s.readBytes.toNat + s.zeroBytes.toNat) / pgSize

/-- The `i`-th page from `upage` on. -/
def pageAt (upage : Vaddr) (i : ℕ) : Vaddr := upage + UInt32.ofNat (pgSize * i)

/-- The loop of `load_segment`, as long as there are bytes left; also the
number of entries allocated so far. -/
def loadSegmentLoop (env : Env) (t : Tid) (file : FilePtr) (writable : Bool) :
    ℕ → ℕ → UInt32 → Vaddr → UInt32 → UInt32 → Kernel → Bool × ℕ × Kernel
  | n, 0, _, _, _, _, k => (true, n, k)
  | n, rounds + 1, ofs, upage, readBytes, zeroBytes, k =>
      if readBytes > 0 ∨ zeroBytes > 0 then
        let pageReadBytes := if readBytes < 4096 then readBytes else 4096
        let pageZeroBytes := 4096 - pageReadBytes
        match addFilePageTbl env n k t file ofs upage pageReadBytes pageZeroBytes writable with
        | (false, k) => (false, n, k)
        | (true, k) =>
            loadSegmentLoop env t file writable (n + 1) rounds (ofs + pageReadBytes)
              (upage + 4096) (readBytes - pageReadBytes) (zeroBytes - pageZeroBytes) k
      else
        (true, n, k)

/-- `load_segment`; each round takes a page of the bytes that are left. -/
def loadSegment (env : Env) (n : ℕ) (k : Kernel) (t : Tid) (file : FilePtr) (s : Segment) :
    Except String (Bool × ℕ × Kernel) :=
  if (s.readBytes + s.zeroBytes) % 4096 ≠ 0 then
    .error "(read_bytes + zero_bytes) % PGSIZE == 0"
  else if pgOfs s.upage ≠ 0 then
    .error "pg_ofs (upage) == 0"
  else if s.ofs % 4096 ≠ 0 then
    .error "ofs % PGSIZE == 0"
  else
    .ok (loadSegmentLoop env t file s.writable n
      ((s.readBytes.toNat + s.zeroBytes.toNat) / pgSize) s.ofs s.upage s.readBytes s.zeroBytes k)

/-- The loop of `load` over the loadable segments. -/
def loadSegments (env : Env) (t : Tid) (file : FilePtr) :
    ℕ → List Segment → Kernel → Except String (Bool × ℕ × Kernel)
  | n, [], k => .ok (true, n, k)
  | n, s :: rest, k => do
      match ← loadSegment env n k t file s with
      | (false, n, k) => return (false, n, k)
      | (true, n, k) => loadSegments env t file n rest k

/-- A new thread, with the fields `init_thread` gives it. There is nothing in its lists of
files and of mappings; whether they are lists at all says `listed`. -/
def initThread (k : Kernel) (t : Tid) : Kernel :=
  { k with
    status := Function.update k.status t .alive
    mapid := Function.update k.mapid t 0
    fd := Function.update k.fd t 2
    fileList := Function.update k.fileList t []
    mmapList := Function.update k.mmapList t []
    executable := Function.update k.executable t none }

/-- `load` of the executable `exe` in the new thread `t`, up to and including
the page `setup_stack` allocates for the stack. Only a load that gets there is
followed; one that fails before is reported as an error. What `setup_stack` pushes
then are stores of the thread, and if it has no memory for `argv` the thread ends
after some of them, as by `exit`. -/
def load (env : Env) (k : Kernel) (t : Tid) (exe : Inode) (segments : List Segment) :
    Except String Kernel :=
  if env.pagedirCreate = false then
    .error "lock_held_by_current_thread (lock)"
  else
    match fileOpen env (initThread k t) exe with
    | (none, _) => .error "load: open failed"
    | (some file, k) => do
        let k ← fileDenyWrite k file
        let k := { k with executable := Function.update k.executable t (some file) }
        match ← loadSegments env t file 0 segments k with
        | (false, _, _) => .error "load failed"
        | (true, n, k) =>
            match ← stackGrowth env n k t (physBase - 4096) with
            | (false, _) => .error "load failed"
            | (true, k) => return k

/-! ## Leaving -/

/-- `process_exit` up to the closing of the files. -/
def closeFiles (k : Kernel) (t : Tid) : Except String Kernel := do
  let k ← processCloseFile k t closeAll
  closePending k (k.executable t)

/-- `process_exit`. -/
def processExit (k : Kernel) (t : Tid) : Except String Kernel := do
  let k ← closeFiles (k.setStatus t .exiting) t
  let k ← processRemoveMmap k t closeAll
  let k ← pageTableRm k t
  return (pagedirDestroy k t).setStatus t .absent

end Pintos.Vm
