import Pintos.Vm.Frame

/-! # page.c

The supplemental page table and the ways a page gets into a frame. A hash
table is the list of the entries in it; entries are equal to `hash_find` and
`hash_insert` if their user addresses are. `intr_context ()` is false in the
page fault handler and in system calls, so `stack_growth` leaves its page
pinned.
-/

namespace Pintos.Vm

/-! ## The supplemental page table -/

/-- The address an entry is filed under. -/
def addressOf (k : Kernel) (p : Ptr) : Option Vaddr := (k.sptes p).map (·.unusedVirtualAddress)

/-- `hash_find`. -/
def hashFind (k : Kernel) (t : Tid) (upage : Vaddr) : Option Ptr :=
  (k.spt t).find? fun p => addressOf k p = some upage

/-- `hash_insert` of the entry at `p` for the page at `upage`, whose initial
contents are `page`; false if there is an entry for that address. -/
def hashInsert (k : Kernel) (t : Tid) (p : Ptr) (upage : Vaddr) (page : Page) : Bool × Kernel :=
  match hashFind k t upage with
  | some _ => (false, k)
  | none => (true, (k.setSpt t (k.spt t ++ [p])).log (.map t upage page))

/-- `hash_delete` of an entry for the page at `upage`. -/
def hashDelete (k : Kernel) (t : Tid) (upage : Vaddr) : Kernel :=
  k.setSpt t ((k.spt t).eraseP fun p => addressOf k p = some upage)

/-- `get_spte`. -/
def getSpte (k : Kernel) (t : Tid) (va : Vaddr) : Option Ptr := hashFind k t (pgRoundDown va)

/-- `malloc (sizeof (struct suppl_page_tbl_ent))`, the `n`-th of the operation. -/
def mallocSpte (env : Env) (n : ℕ) (k : Kernel) : Option Ptr :=
  (env.malloc n).filter fun p => k.sptes p = none

/-- What a page of a file starts with: `read_bytes` bytes of the file and zeros. -/
def filePage (k : Kernel) (e : Spte) : Page := fun b =>
  if b.val < e.readBytes.toNat then
    (k.bytesOf ((k.files.lookup e.file).elim 0 (·.inode))).getD (e.offset.toNat + b.val) 0
  else 0

/-- `add_file_page_tbl`. -/
def addFilePageTbl (env : Env) (n : ℕ) (k : Kernel) (t : Tid) (file : FilePtr) (ofs : UInt32)
    (upage : Vaddr) (readBytes zeroBytes : UInt32) (writable : Bool) : Bool × Kernel :=
  match mallocSpte env n k with
  | none => (false, k)
  | some p =>
      let e : Spte :=
        { unusedVirtualAddress := upage, type := .file, writable := writable, isLoaded := false,
          pinned := false, file := file, offset := ofs, readBytes := readBytes,
          zeroBytes := zeroBytes, swapIndex := 0 }
      hashInsert (k.setSpte p (some e)) t p upage (filePage k e)

/-- `process_add_mmap`. -/
def processAddMmap (env : Env) (n : ℕ) (k : Kernel) (t : Tid) (p : Ptr) : Bool × Kernel :=
  if env.mallocMmap n then
    (true, k.setMmapList t (k.mmapList t ++ [{ spte := p, mapid := k.mapid t }]))
  else
    (false, k)

/-- `add_mmap_page_tbl`. An entry that does not fit into the table stays in the
list of mappings, marked `HASH_ERROR`. -/
def addMmapPageTbl (env : Env) (n : ℕ) (k : Kernel) (t : Tid) (file : FilePtr) (ofs : UInt32)
    (upage : Vaddr) (readBytes zeroBytes : UInt32) : Bool × Kernel :=
  match mallocSpte env n k with
  | none => (false, k)
  | some p =>
      let e : Spte :=
        { unusedVirtualAddress := upage, type := .mmap, writable := true, isLoaded := false,
          pinned := false, file := file, offset := ofs, readBytes := readBytes,
          zeroBytes := zeroBytes, swapIndex := 0 }
      match processAddMmap env n (k.setSpte p (some e)) t p with
      | (false, k) => (false, k.setSpte p none)
      | (true, k) =>
          match hashInsert k t p upage (filePage k e) with
          | (true, k) => (true, k)
          | (false, k) => (false, k.setSpte p (some { e with type := .hashError }))

/-! ## Loading pages -/

/-- `install_page`. -/
def installPage (env : Env) (k : Kernel) (t : Tid) (upage : Vaddr) (frame : Frame)
    (writable : Bool) : Bool × Kernel :=
  if pagedirGetPage k t upage = none then pagedirSetPage env k t upage frame writable
  else (false, k)

/-- `load_swap`. -/
def loadSwap (env : Env) (k : Kernel) (t : Tid) (p : Ptr) : Except String (Bool × Kernel) := do
  let (frame, k) ← frameAlloc env false k t p
  let e ← deref (k.sptes p)
  match installPage env k t e.unusedVirtualAddress frame e.writable with
  | (false, k) => return (false, freeFrame k (some frame))
  | (true, k) =>
      let k ← swapIn k t e.swapIndex e.unusedVirtualAddress
      return (true, k.setSpte p (some { e with isLoaded := true }))

/-- `memset (frame + read_bytes, 0, zero_bytes)`. -/
def memsetZero (page : Page) (readBytes zeroBytes : ℕ) : Page := fun b =>
  if readBytes ≤ b.val ∧ b.val < readBytes + zeroBytes then 0 else page b

/-- The part of `load_file` that fills the frame, for a page that reads from
its file; false if the file is too short. -/
def readPage (k : Kernel) (frame : Frame) (e : Spte) : Except String (Bool × Kernel) :=
  if e.readBytes.toNat = 0 then
    .ok (true, k)
  else do
    let (count, page) ← fileReadAt k e.file (k.mem frame) e.readBytes.toNat e.offset.toNat
    if count = e.readBytes.toNat then
      return (true, k.setMem frame (memsetZero page e.readBytes.toNat e.zeroBytes.toNat))
    else
      return (false, k.setMem frame page)

/-- `load_file`. -/
def loadFile (env : Env) (k : Kernel) (t : Tid) (p : Ptr) : Except String (Bool × Kernel) := do
  let e ← deref (k.sptes p)
  let (frame, k) ← frameAlloc env (e.readBytes.toNat = 0) k t p
  let e ← deref (k.sptes p)
  match ← readPage k frame e with
  | (false, k) => return (false, freeFrame k (some frame))
  | (true, k) =>
      match installPage env k t e.unusedVirtualAddress frame e.writable with
      | (false, k) => return (false, freeFrame k (some frame))
      | (true, k) => return (true, k.setSpte p (some { e with isLoaded := true }))

/-- `load_page`. -/
def loadPage (env : Env) (k : Kernel) (t : Tid) (p : Ptr) : Except String (Bool × Kernel) := do
  let e ← deref (k.sptes p)
  let k := k.setSpte p (some { e with pinned := true })
  if e.isLoaded then
    return (false, k)
  else
    match e.type with
    | .file => loadFile env k t p
    | .swap => loadSwap env k t p
    | .mmap => loadFile env k t p
    | .hashError => return (false, k)

/-- `stack_growth`; its entry is the `n`-th allocation of the operation. The
fields of a file are left as `malloc` gave them, which nobody reads. -/
def stackGrowth (env : Env) (n : ℕ) (k : Kernel) (t : Tid) (va : Vaddr) :
    Except String (Bool × Kernel) :=
  if physBase - pgRoundDown va > maxStackSize then
    .ok (false, k)
  else
    match mallocSpte env n k with
    | none => .ok (false, k)
    | some p => do
        let upage := pgRoundDown va
        let e : Spte :=
          { unusedVirtualAddress := upage, type := .swap, writable := true, isLoaded := true,
            pinned := true, file := 0, offset := 0, readBytes := 0, zeroBytes := 0, swapIndex := 0 }
        let (frame, k) ← frameAlloc env false (k.setSpte p (some e)) t p
        match installPage env k t upage frame true with
        | (false, k) => return (false, freeFrame (k.setSpte p none) (some frame))
        | (true, k) => return hashInsert k t p upage (k.mem frame)

/-! ## Removing the table -/

/-- `page_function`, called by the thread `t` whose table is destroyed. -/
def pageFunction (k : Kernel) (t : Tid) (p : Ptr) : Except String Kernel := do
  let e ← deref (k.sptes p)
  if e.isLoaded then
    let k := freeFrame k (pagedirGetPage k t e.unusedVirtualAddress)
    let k := pagedirClearPage k t e.unusedVirtualAddress
    return k.setSpte p none
  else
    return k.setSpte p none

/-- The loop of `hash_destroy`: it takes each entry out and destroys it. -/
def hashDestroy (t : Tid) : List Ptr → Kernel → Except String Kernel
  | [], k => .ok k
  | p :: rest, k => do
      let k ← pageFunction (k.setSpt t rest) t p
      hashDestroy t rest k

/-- `page_table_rm`. -/
def pageTableRm (k : Kernel) (t : Tid) : Except String Kernel := hashDestroy t (k.spt t) k

end Pintos.Vm
