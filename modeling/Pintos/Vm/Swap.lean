import Pintos.Vm.Contracts

/-! # swap.c

A swap slot is eight sectors of the swap block. `swap_in` is called with the
user address of the page, so its reads store through the page directory of
the running process.
-/

namespace Pintos.Vm

/-- A sector of a page. -/
def sectorOf (page : Page) (i : Fin sectorsPerPage) : Sector :=
  fun j => page ⟨i.val * 512 + j.val, by
    have hi : i.val < 8 := i.isLt
    have hj : j.val < 512 := j.isLt
    show i.val * 512 + j.val < 4096
    omega⟩

/-- The page that eight sectors make up. -/
def pageOfSectors (sectors : Fin sectorsPerPage → Sector) : Page := fun b =>
  sectors ⟨b.val / 512, Nat.div_lt_of_lt_mul b.isLt⟩ ⟨b.val % 512, Nat.mod_lt _ (by decide)⟩

/-- The loop over `block_write`. -/
def blockWritePage (disk : ℕ → Sector) (index : ℕ) (page : Page) : ℕ → Sector :=
  (List.finRange sectorsPerPage).foldl
    (fun d i => Function.update d (index * sectorsPerPage + i.val) (sectorOf page i)) disk

/-- The bytes the loop over `block_read` reads. -/
def blockReadPage (disk : ℕ → Sector) (index : ℕ) : Page :=
  pageOfSectors fun i => disk (index * sectorsPerPage + i.val)

/-- `start_swap` on a swap block of `blockSize` sectors. -/
def startSwap (blockSize : ℕ) (disk : ℕ → Sector) : Swap where
  blockSize := blockSize
  disk := disk
  map := List.replicate (blockSize / sectorsPerPage) false
  map_length := List.length_replicate

/-- Set a bit of `swap_map`. -/
def Swap.setSlot (s : Swap) (index : ℕ) (inUse : Bool) : Swap where
  blockSize := s.blockSize
  disk := s.disk
  map := s.map.set index inUse
  map_length := by rw [List.length_set]; exact s.map_length

/-- `swap_out`: `bitmap_scan_and_flip` finds the first free slot. -/
def swapOut (k : Kernel) (frame : Frame) : Except String (ℕ × Kernel) :=
  match k.swap with
  | none => .error "Need swap partition but no swap partition present!"
  | some s =>
      match s.map.findIdx? (fun inUse => !inUse) with
      | none => .error "Swap partition is full!"
      | some freeIndex =>
          let s := s.setSlot freeIndex true
          let s := { s with disk := blockWritePage s.disk freeIndex (k.mem frame) }
          .ok (freeIndex, { k with swap := some s })

/-- The kernel stores a page through the user address `upage` of the running
process `t`: it faults if the page is not present or is read-only. -/
def storeUserPage (k : Kernel) (t : Tid) (upage : Vaddr) (page : Page) :
    Except String Kernel := do
  let pte ← deref (k.pteOf t upage)
  if pte.writable then
    return (k.setMem pte.frame page).setPte t upage { pte with accessed := true, dirty := true }
  else
    .error kernelBug

/-- The message of the `PANIC` in `swap_in`. -/
def swapInFree : String := "Trying to swap in a free block! Kernel panicking."

/-- `swap_in`; the loop over `block_read` fills the page at `upage`. -/
def swapIn (k : Kernel) (t : Tid) (usedIndex : ℕ) (upage : Vaddr) : Except String Kernel :=
  match k.swap with
  | none => .ok k
  | some s =>
      match s.map[usedIndex]? with
      | none => .error "bit_idx < b->bit_cnt"
      | some false => .error swapInFree
      | some true =>
          storeUserPage { k with swap := some (s.setSlot usedIndex false) } t upage
            (blockReadPage s.disk usedIndex)

/-! ## A slot holds what was written to it -/

theorem blockWritePage_apply (disk : ℕ → Sector) (index : ℕ) (page : Page) (n : ℕ) :
    blockWritePage disk index page n =
      if n / 8 = index then sectorOf page ⟨n % 8, Nat.mod_lt _ (by decide)⟩ else disk n := by
  have hgen : ∀ (l : List (Fin 8)) (d : ℕ → Sector),
      l.foldl (fun d i => Function.update d (index * 8 + i.val) (sectorOf page i)) d n =
        if n / 8 = index ∧ (⟨n % 8, Nat.mod_lt _ (by decide)⟩ : Fin 8) ∈ l then
          sectorOf page ⟨n % 8, Nat.mod_lt _ (by decide)⟩
        else d n := by
    intro l
    induction l with
    | nil => simp
    | cons i l ih =>
        intro d
        rw [List.foldl_cons, ih]
        have hi : i.val < 8 := i.isLt
        by_cases hn : n = index * 8 + i.val
        · -- this write is the one that hits sector `n`
          have hdiv : n / 8 = index := by omega
          have hmod : (⟨n % 8, Nat.mod_lt _ (by decide)⟩ : Fin 8) = i :=
            Fin.ext (by show n % 8 = i.val; omega)
          rw [hmod]
          simp [hdiv, ← hn]
        · have hne : n / 8 = index → (⟨n % 8, Nat.mod_lt _ (by decide)⟩ : Fin 8) ≠ i := by
            intro hdiv heq
            have hval : n % 8 = i.val := congrArg Fin.val heq
            exact hn (by omega)
          rw [Function.update_of_ne hn]
          by_cases hdiv : n / 8 = index
          · simp [hdiv, hne hdiv]
          · simp [hdiv]
  unfold blockWritePage
  rw [hgen]
  simp

/-- Reading a slot back gives the page that was written to it. -/
theorem blockReadPage_blockWritePage (disk : ℕ → Sector) (index : ℕ) (page : Page) :
    blockReadPage (blockWritePage disk index page) index = page := by
  funext b
  have hb : b.val < 4096 := b.isLt
  unfold blockReadPage pageOfSectors
  dsimp only
  rw [blockWritePage_apply, if_pos (by show (index * 8 + b.val / 512) / 8 = index; omega)]
  unfold sectorOf
  congr 1
  apply Fin.ext
  show (index * 8 + b.val / 512) % 8 * 512 + b.val % 512 = b.val
  omega

/-- Writing one slot leaves the others alone. -/
theorem blockReadPage_blockWritePage_of_ne {disk : ℕ → Sector} {index other : ℕ} {page : Page}
    (h : other ≠ index) :
    blockReadPage (blockWritePage disk index page) other = blockReadPage disk other := by
  funext b
  have hb : b.val < 4096 := b.isLt
  unfold blockReadPage pageOfSectors
  dsimp only
  rw [blockWritePage_apply, if_neg (by show (other * 8 + b.val / 512) / 8 ≠ index; omega)]

end Pintos.Vm
