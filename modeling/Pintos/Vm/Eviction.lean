import Pintos.Lib.Run
import Pintos.Vm.Frame

/-! # An eviction and the owner of the page

`evict_frame` of `frame.c` statement by statement, for the page it comes to evict,
with the block writes of `swap_out` and of `file_write_at` one by one. As long as
its page directory maps the page, the owner can read it and store to it between any
two of these statements.
-/

namespace Pintos.Eviction

open Vm

/-- The statement `evict_frame` comes to next. -/
inductive Pc where
  /-- `if (!fte->spte->pinned)`. -/
  | pinned
  /-- `if (pagedir_is_accessed (…))`. -/
  | accessed
  /-- `pagedir_set_accessed (…, false)`. -/
  | setAccessed
  /-- `pagedir_is_dirty (…)`. -/
  | dirty
  /-- `|| fte->spte->type == SWAP`. -/
  | type
  /-- `if (fte->spte->type == MMAP)`. -/
  | save
  /-- The loop of `file_write_at`, with so many bytes written. -/
  | fileWrite (written : ℕ)
  /-- `fte->spte->type = SWAP`. -/
  | setType
  /-- `bitmap_scan_and_flip` of `swap_out`. -/
  | scan
  /-- The loop over `block_write` of `swap_out`. -/
  | sector (index i : ℕ)
  /-- `fte->spte->swap_index = …`. -/
  | setIndex (index : ℕ)
  /-- `fte->spte->is_loaded = false`. -/
  | unload
  /-- `list_remove (&fte->elem)`. -/
  | unlink
  /-- `pagedir_clear_page (…)`. -/
  | clearPage
  /-- The mapping is cleared. -/
  | cleared
deriving DecidableEq, Repr

/-- The entry of the page, its frame, its entry in the owner's page directory, the swap
block, and the inode of its file, to which writes may be denied. -/
structure State where
  pc : Pc
  entry : Spte
  page : Page
  pte : Option Pte
  swap : Option Swap
  inode : FileData
  denied : Bool

inductive Act where
  /-- The next statement of `evict_frame`. -/
  | evict
  /-- The owner reads from the page. -/
  | read
  /-- The owner stores a byte. -/
  | store (b : Fin pgSize) (v : UInt8)
  /-- A system call of the owner pins the page, or it is no longer pinned. -/
  | pin (x : Bool)
deriving DecidableEq, Repr

/-! ## `evict_frame` -/

/-- How many bytes the next block write of `inode_write_at` writes: not beyond the size,
the end of the file or the end of the sector. -/
def chunk (s : State) (written : ℕ) : ℕ :=
  min (s.entry.readBytes.toNat - written)
    (min (s.inode.bytes.length - (s.entry.offset.toNat + written))
      (512 - (s.entry.offset.toNat + written) % 512))

/-- The next statement of `evict_frame`; `none` for a panic. What is pinned or accessed
is passed over, and comes up again in the next round. -/
def evict (s : State) : Option State :=
  match s.pc with
  | .pinned => if s.entry.pinned then some s else some { s with pc := .accessed }
  | .accessed =>
      some { s with pc := if s.pte.elim false (·.accessed) then .setAccessed else .dirty }
  | .setAccessed =>
      some { s with pte := s.pte.map fun pte => { pte with accessed := false }, pc := .pinned }
  | .dirty => some { s with pc := if s.pte.elim false (·.dirty) then .save else .type }
  | .type => some { s with pc := if s.entry.type = .swap then .save else .unload }
  | .save => some { s with pc := if s.entry.type = .mmap then .fileWrite 0 else .setType }
  | .fileWrite written =>
      if s.denied ∨ chunk s written = 0 then some { s with pc := .unload }
      else some { s with
        inode := s.inode.write (s.entry.offset.toNat + written) (chunk s written)
          fun i => pageByte s.page (written + i)
        pc := .fileWrite (written + chunk s written) }
  | .setType => some { s with entry := { s.entry with type := .swap }, pc := .scan }
  | .scan => do
      let w ← s.swap
      let index ← w.map.findIdx? (fun inUse => !inUse)
      return { s with swap := some (w.setSlot index true), pc := .sector index 0 }
  | .sector index i =>
      if h : i < sectorsPerPage then do
        let w ← s.swap
        let disk := Function.update w.disk (index * sectorsPerPage + i) (sectorOf s.page ⟨i, h⟩)
        return { s with swap := some { w with disk := disk }, pc := .sector index (i + 1) }
      else some { s with pc := .setIndex index }
  | .setIndex index => some { s with entry := { s.entry with swapIndex := index }, pc := .unload }
  | .unload => some { s with entry := { s.entry with isLoaded := false }, pc := .unlink }
  | .unlink => some { s with pc := .clearPage }
  | .clearPage => some { s with pte := none, pc := .cleared }
  | .cleared => none

/-- A step of either thread. -/
def perform (s : State) : Act → Option State
  | .evict => evict s
  | .read => s.pte.map fun pte => { s with pte := some { pte with accessed := true } }
  | .store b v => do
      let pte ← s.pte
      if pte.writable then
        return { s with
          page := Function.update s.page b v
          pte := some { pte with accessed := true, dirty := true } }
      else none
  | .pin x => some { s with entry := { s.entry with pinned := x } }

def Step (s : State) (a : Act) (s' : State) : Prop := perform s a = some s'

/-! ## What a later `load_page` shows -/

/-- The page that `load_file` makes up. -/
def State.filePage (s : State) : Page := fun b =>
  if b.val < s.entry.readBytes.toNat then
    s.inode.bytes.getD (s.entry.offset.toNat + b.val) 0
  else 0

/-- The page in a slot. -/
def State.slotPage (s : State) (index : ℕ) : Page :=
  s.swap.elim zeroPage fun w => blockReadPage w.disk index

/-- The page that `load_page` would make up. -/
def State.loadPage (s : State) : Page :=
  if s.entry.type = .swap then s.slotPage s.entry.swapIndex else s.filePage

/-- What holds when `evict_frame` comes to the entry: the page is mapped and present, and
as its file has it unless it is dirty or has been in swap. A mapping is backed by bytes of
its file, to which writes are not denied. -/
structure Start (s : State) : Prop where
  pc : s.pc = .pinned
  mapped : s.pte ≠ none
  clean : ∀ pte, s.pte = some pte → pte.dirty = false → s.entry.type ≠ .swap →
    s.filePage = s.page
  length : s.entry.type = .mmap →
    s.entry.offset.toNat + s.entry.readBytes.toNat ≤ s.inode.bytes.length
  allowed : s.entry.type = .mmap → s.denied = false

/-- A byte that an eviction saves: of a mapping, those that are in the file. -/
def Saved (s : State) (b : Fin pgSize) : Prop :=
  s.entry.type = .mmap → b.val < s.entry.readBytes.toNat

/-- The eviction will not look at this byte any more. -/
def Passed (s : State) (b : Fin pgSize) : Prop :=
  match s.pc with
  | .pinned | .accessed | .setAccessed | .dirty | .save | .setType | .scan => False
  | .type => s.entry.type ≠ .swap
  | .fileWrite written => b.val < written
  | .sector _ i => b.val / 512 < i
  | .setIndex _ | .unload | .unlink | .clearPage | .cleared => True

instance (s : State) (b : Fin pgSize) : Decidable (Saved s b) :=
  inferInstanceAs (Decidable (_ → _))

instance (s : State) (b : Fin pgSize) : Decidable (Passed s b) := by
  unfold Passed
  split <;> infer_instance

/-- A store is in time if the eviction has still to look at the byte, or leaves it as it
is. -/
def InTime (s : State) : Act → Prop
  | .store b v => Saved s b → Passed s b → v = s.page b
  | _ => True

instance (s : State) (a : Act) : Decidable (InTime s a) := by
  cases a <;> unfold InTime <;> infer_instance

end Pintos.Eviction
