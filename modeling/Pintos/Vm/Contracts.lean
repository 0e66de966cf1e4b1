import Pintos.Vm.State

/-! # What Pintos provides

The contracts of the page allocator, the page directories and the file system,
as far as the virtual memory uses them.
-/

namespace Pintos.Vm

/-! ## The page allocator -/

/-- `palloc_get_page` with `PAL_USER`: some free page, zeroed if `zero` is given
(`PAL_ZERO`) and with any contents otherwise. -/
def pallocGetPage (env : Env) (zero : Bool) (k : Kernel) : Option Frame × Kernel :=
  match k.freePages[env.pick % k.freePages.length]? with
  | none => (none, k)
  | some f =>
      (some f, { k with freePages := k.freePages.erase f }.setMem f
        (if zero then zeroPage else env.garbage))

/-- `palloc_free_page`. -/
def pallocFreePage (k : Kernel) (f : Frame) : Kernel :=
  { k with freePages := f :: k.freePages }

/-! ## Page directories -/

/-- `pagedir_get_page` for the address of a page. -/
def pagedirGetPage (k : Kernel) (t : Tid) (upage : Vaddr) : Option Frame :=
  (k.pteOf t upage).map (·.frame)

/-- `pagedir_set_page`, which fails when a page table cannot be allocated. -/
def pagedirSetPage (env : Env) (k : Kernel) (t : Tid) (upage : Vaddr) (frame : Frame)
    (writable : Bool) : Bool × Kernel :=
  if env.setPage then
    (true, k.setPte t upage
      { frame := frame, writable := writable, accessed := false, dirty := false })
  else
    (false, k)

/-- `pagedir_clear_page`. -/
def pagedirClearPage (k : Kernel) (t : Tid) (upage : Vaddr) : Kernel := k.clearPte t upage

/-- `pagedir_is_dirty`. -/
def pagedirIsDirty (k : Kernel) (t : Tid) (upage : Vaddr) : Bool :=
  (k.pteOf t upage).elim false (·.dirty)

/-- `pagedir_is_accessed`. -/
def pagedirIsAccessed (k : Kernel) (t : Tid) (upage : Vaddr) : Bool :=
  (k.pteOf t upage).elim false (·.accessed)

/-- `pagedir_set_accessed`. -/
def pagedirSetAccessed (k : Kernel) (t : Tid) (upage : Vaddr) (accessed : Bool) : Kernel :=
  match k.pteOf t upage with
  | none => k
  | some pte => k.setPte t upage { pte with accessed := accessed }

/-- `pagedir_destroy` frees the pages that are still mapped. -/
def pagedirDestroy (k : Kernel) (t : Tid) : Kernel :=
  { k with
    freePages := (k.pagedir t).entries.map (·.2.frame) ++ k.freePages
    pagedir := Function.update k.pagedir t ∅ }

/-! ## Files -/

/-- Writes to an inode are denied while some open handle on it denies them. -/
@[reducible] def WritesDenied (k : Kernel) (i : Inode) : Prop :=
  ∃ e ∈ k.files.entries, e.2.inode = i ∧ e.2.denyWrite = true

/-- A new handle on an inode; `struct file` comes from `malloc`, so this can
fail. -/
def fileOpen (env : Env) (k : Kernel) (i : Inode) : Option FilePtr × Kernel :=
  match env.mallocFile with
  | none => (none, k)
  | some f =>
      if k.inodes i ≠ none ∧ f ∉ k.files then
        (some f, { k with files := k.files.insert f { inode := i, denyWrite := false } })
      else
        (none, k)

/-- `file_deny_write`. -/
def fileDenyWrite (k : Kernel) (f : FilePtr) : Except String Kernel := do
  let o ← deref (k.files.lookup f)
  return { k with files := k.files.insert f { o with denyWrite := true } }

/-- `file_close`; it does nothing more to a handle that denied writes than to
any other, since the denial ends with the handle. -/
def fileClose (k : Kernel) (f : FilePtr) : Except String Kernel := do
  let _ ← deref (k.files.lookup f)
  return { k with files := k.files.erase f }

/-- `file_length`. -/
def fileLength (k : Kernel) (f : FilePtr) : Except String ℕ := do
  let o ← deref (k.files.lookup f)
  return (k.bytesOf o.inode).length

/-- `file_read_at` into a page: the number of bytes read, fewer than `size` at
the end of the file, and the page they are in. -/
def fileReadAt (k : Kernel) (f : FilePtr) (buffer : Page) (size ofs : ℕ) :
    Except String (ℕ × Page) := do
  let o ← deref (k.files.lookup f)
  let bytes := k.bytesOf o.inode
  let count := min size (bytes.length - ofs)
  return (count, fun b => if b.val < count then bytes.getD (ofs + b.val) 0 else buffer b)

/-- Overwrite `size` bytes from `ofs` on, as far as there are any; the length
stays. -/
def overwrite (bytes : List UInt8) (ofs size : ℕ) (data : ℕ → UInt8) : List UInt8 :=
  bytes.mapIdx fun i b => if ofs ≤ i ∧ i < ofs + size then data (i - ofs) else b

@[simp] theorem length_overwrite (bytes : List UInt8) (ofs size : ℕ) (data : ℕ → UInt8) :
    (overwrite bytes ofs size data).length = bytes.length := List.length_mapIdx

theorem getD_overwrite {bytes : List UInt8} {ofs size : ℕ} {data : ℕ → UInt8} {j : ℕ} :
    (overwrite bytes ofs size data).getD j 0 =
      if j < bytes.length ∧ ofs ≤ j ∧ j < ofs + size then data (j - ofs) else bytes.getD j 0 := by
  unfold overwrite
  rw [List.getD_eq_getElem?_getD, List.getD_eq_getElem?_getD, List.getElem?_mapIdx]
  by_cases hj : j < bytes.length
  · rw [List.getElem?_eq_getElem hj]
    by_cases hin : ofs ≤ j ∧ j < ofs + size
    · simp [hj, hin]
    · simp [hin]
  · rw [List.getElem?_eq_none (by omega)]
    simp [hj]

/-- A byte that is overwritten. -/
theorem getElem?_overwrite {bytes : List UInt8} {ofs size : ℕ} {data : ℕ → UInt8} {j : ℕ}
    (hj : j < size) (hin : ofs + size ≤ bytes.length) :
    (overwrite bytes ofs size data)[ofs + j]? = some (data j) := by
  unfold overwrite
  have hlt : ofs + j < bytes.length := by omega
  rw [List.getElem?_mapIdx, List.getElem?_eq_getElem hlt, Option.map_some,
    if_pos ⟨Nat.le_add_right .., by omega⟩, Nat.add_sub_cancel_left]

/-- Overwrite bytes of a file. -/
def FileData.write (d : FileData) (ofs size : ℕ) (data : ℕ → UInt8) : FileData :=
  ⟨overwrite d.bytes ofs size data, by rw [length_overwrite]; exact d.length_lt⟩

/-- Write to an inode: nothing while writes are denied, nothing beyond the end
of the file (files do not grow). -/
def inodeWriteAt (k : Kernel) (i : Inode) (data : ℕ → UInt8) (size ofs : ℕ) : Kernel :=
  if WritesDenied k i then k
  else { k with inodes := Function.update k.inodes i ((k.inodes i).map (·.write ofs size data)) }

/-- `file_write_at`. -/
def fileWriteAt (k : Kernel) (f : FilePtr) (data : ℕ → UInt8) (size ofs : ℕ) :
    Except String Kernel := do
  let o ← deref (k.files.lookup f)
  return inodeWriteAt k o.inode data size ofs

/-- The bytes of a page, for a write of at most a page. -/
def pageByte (page : Page) (i : ℕ) : UInt8 := if h : i < pgSize then page ⟨i, h⟩ else 0

end Pintos.Vm
