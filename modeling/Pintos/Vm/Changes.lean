import Pintos.Vm.System

/-! # The elementary changes of the state

Every operation is a sequence of the changes listed in `Change`, in each of
which the frame table, the page directories and the supplemental page tables
move together: a page gets a frame or loses it, an entry is added or removed,
a handle is opened or closed. The invariants are proved change by change; the
operations are taken apart into changes once, in `Effects`.
-/

namespace Pintos.Vm

/-- `p` points to the entry `e` of the supplemental page table of `t`. -/
structure Entry (k : Kernel) (t : Tid) (p : Ptr) (e : Spte) : Prop where
  mem : p ∈ k.spt t
  at_ptr : k.sptes p = some e

/-- No supplemental page table and no list of mappings holds the pointer. -/
structure Unused (k : Kernel) (p : Ptr) : Prop where
  spt : ∀ t, p ∉ k.spt t
  mmap : ∀ t, ∀ mm ∈ k.mmapList t, mm.spte ≠ p

/-- What an open file is used for. -/
inductive Role where
  | executable (t : Tid)
  | descriptor (t : Tid) (fd : ℤ)
  | mapping (t : Tid) (mapid : ℤ)
deriving DecidableEq, Repr

/-- The processes that have not entered `process_exit`. -/
@[reducible] def Kernel.Live (k : Kernel) (t : Tid) : Prop :=
  k.status t = .alive ∨ k.status t = .killed

/-- The file `f` is used in the role `r`. -/
def Holds (k : Kernel) (f : FilePtr) : Role → Prop
  | .executable t => k.Live t ∧ k.executable t = some f
  | .descriptor t fd => { file := f, fd := fd } ∈ k.fileList t
  | .mapping t mapid => ∃ mm ∈ k.mmapList t, mm.mapid = mapid ∧
      ∃ e, k.sptes mm.spte = some e ∧ e.file = f

/-! ## The parts of a change -/

/-- A page loses its frame; its entry becomes `e`. -/
def unmapPage (k : Kernel) (fte : FrameTblEnt) (e : Spte) : Kernel :=
  { k with
    pagedir := Function.update k.pagedir fte.thread
      ((k.pagedir fte.thread).erase e.unusedVirtualAddress)
    sptes := Function.update k.sptes fte.spte (some e)
    frameTblList := k.frameTblList.erase fte
    freePages := fte.frame :: k.freePages }

/-- The page of the entry `e` at `p` gets a frame with the contents `page`; its
page directory entry is `used` if the contents were stored through it. -/
def mapPage (k : Kernel) (t : Tid) (p : Ptr) (e : Spte) (frame : Frame) (page : Page)
    (used : Bool) : Kernel :=
  { k with
    pagedir := Function.update k.pagedir t ((k.pagedir t).insert e.unusedVirtualAddress
      { frame := frame, writable := e.writable, accessed := used, dirty := used })
    sptes := Function.update k.sptes p (some { e with isLoaded := true })
    frameTblList := k.frameTblList ++ [{ frame := frame, thread := t, spte := p }]
    freePages := k.freePages.erase frame
    mem := Function.update k.mem frame page }

/-- The entry at `p` enters the supplemental page table. -/
def insertEntry (k : Kernel) (t : Tid) (p : Ptr) (upage : Vaddr) (page : Page) : Kernel :=
  (k.setSpt t (k.spt t ++ [p])).log (.map t upage page)

/-- The entry at `p` is listed as part of the newest mapping. -/
def listMapping (k : Kernel) (t : Tid) (p : Ptr) : Kernel :=
  k.setMmapList t (k.mmapList t ++ [{ spte := p, mapid := k.mapid t }])

/-- A page of a mapping is removed with its entry. -/
def forgetMapping (k : Kernel) (t : Tid) (mm : MmapFile) (e : Spte) : Kernel :=
  ((if e.type ≠ .hashError then hashDelete k t e.unusedVirtualAddress else k).setMmapList t
    ((k.mmapList t).erase mm)).setSpte mm.spte none

/-- The slot of a page that has been read back is free again. -/
def releaseSlot (k : Kernel) (s : Swap) (index : ℕ) : Kernel :=
  { k with swap := some (s.setSlot index false) }

/-! ## The changes -/

/-- Which mappings, given by their process and number, gain and lose pages, which
pages of a process get an entry, and which entries lose their pin. -/
structure Scope where
  adds : Tid → ℤ → Prop
  removes : Tid → ℤ → Prop
  enters : Tid → Vaddr → Prop
  unpins : Ptr → Prop

/-- None of them. -/
def Scope.none : Scope := ⟨fun _ _ => False, fun _ _ => False, fun _ _ => False, fun _ => False⟩

/-- One elementary change. Only mappings in the scope `R` gain and lose pages, only
pages in it get an entry, and only entries in it lose their pin. No change touches
the status of a process. -/
inductive Change (R : Scope) (k : Kernel) : Kernel → Prop where
  /-- The accessed bit of a present page. -/
  | access {t : Tid} {va : Vaddr} {pte : Pte} (accessed : Bool) (h : k.pteOf t va = some pte) :
      Change R k (k.setPte t va { pte with accessed := accessed })
  /-- The pin of an entry. -/
  | pin {p : Ptr} {e : Spte} (pinned : Bool) (h : k.sptes p = some e)
      (hR : pinned = false → R.unpins p) :
      Change R k (k.setSpte p (some { e with pinned := pinned }))
  /-- A part of the heap that no structure refers to. -/
  | cell {p : Ptr} (o : Option Spte) (h : Unused k p) : Change R k (k.setSpte p o)
  /-- The order and the contents of the free pages. -/
  | free {l : List Frame} {m : Frame → Page} (hl : l.Perm k.freePages)
      (hm : ∀ f, f ∉ k.freePages → m f = k.mem f) :
      Change R k { k with freePages := l, mem := m }
  /-- A page is saved and loses its frame; of a process inside `process_exit` only
  pages of mappings. -/
  | evict {fte : FrameTblEnt} {e e' : Spte} {k' : Kernel} (hfte : fte ∈ k.frameTblList)
      (he : k.sptes fte.spte = some e) (hx : k.status fte.thread ≠ .exiting ∨ e.type = .mmap)
      (hs : savePage k fte e = .ok (e', k')) (hpin : e.pinned = false ∨ e.type = .mmap) :
      Change R k (unmapPage k' fte { e' with isLoaded := false })
  /-- A page of a process inside `process_exit`, with no mappings left, loses its
  frame without being saved. -/
  | discard {fte : FrameTblEnt} {e : Spte} (hfte : fte ∈ k.frameTblList)
      (he : k.sptes fte.spte = some e) (hx : k.status fte.thread = .exiting)
      (hm : k.mmapList fte.thread = []) :
      Change R k (unmapPage k fte { e with isLoaded := false })
  /-- A page is read from its file. -/
  | readIn {t : Tid} {p : Ptr} {e : Spte} {frame : Frame} (he : Entry k t p e)
      (hl : e.isLoaded = false) (hty : e.type = .file ∨ e.type = .mmap)
      (hf : frame ∈ k.freePages) (hpte : k.pteOf t e.unusedVirtualAddress = none) :
      Change R k (mapPage k t p e frame (filePage k e) false)
  /-- A page is read from its swap slot, through the page directory. -/
  | swapIn {t : Tid} {p : Ptr} {e : Spte} {frame : Frame} {s : Swap} (he : Entry k t p e)
      (hl : e.isLoaded = false) (hty : e.type = .swap) (hf : frame ∈ k.freePages)
      (hpte : k.pteOf t e.unusedVirtualAddress = none) (ht : k.status t = .alive)
      (hs : k.swap = some s) (hidx : s.map[e.swapIndex]? = some true) :
      Change R k (mapPage (releaseSlot k s e.swapIndex) t p e frame
        (blockReadPage s.disk e.swapIndex) true)
  /-- Without a swap block `swap_in` reads nothing. -/
  | swapInNothing {t : Tid} {p : Ptr} {e : Spte} {frame : Frame} (page : Page)
      (he : Entry k t p e) (hl : e.isLoaded = false) (hty : e.type = .swap)
      (hf : frame ∈ k.freePages) (hpte : k.pteOf t e.unusedVirtualAddress = none)
      (ht : k.status t = .alive) (hs : k.swap = none) :
      Change R k (mapPage k t p e frame page false)
  /-- A new page of the stack. -/
  | growStack {t : Tid} {p : Ptr} {e : Spte} {frame : Frame} (page : Page) (hp : Unused k p)
      (he : k.sptes p = some e) (hl : e.isLoaded = true) (hty : e.type = .swap)
      (hf : frame ∈ k.freePages) (hpte : k.pteOf t e.unusedVirtualAddress = none)
      (hnew : hashFind k t e.unusedVirtualAddress = none) (ht : k.status t = .alive)
      (hR : R.enters t e.unusedVirtualAddress) :
      Change R k (insertEntry (mapPage k t p e frame page false) t p e.unusedVirtualAddress page)
  /-- A new entry for a page of the executable. -/
  | addFile {t : Tid} {p : Ptr} {e : Spte} (hp : Unused k p) (he : k.sptes p = some e)
      (hl : e.isLoaded = false) (hty : e.type = .file)
      (hnew : hashFind k t e.unusedVirtualAddress = none) (ht : k.status t = .alive)
      (hexe : k.executable t = some e.file)
      (hsize : e.readBytes.toNat + e.zeroBytes.toNat = pgSize)
      (hR : R.enters t e.unusedVirtualAddress) :
      Change R k (insertEntry k t p e.unusedVirtualAddress (filePage k e))
  /-- A new entry for a page of a mapping. -/
  | addMmap {t : Tid} {p : Ptr} {e : Spte} (hp : Unused k p) (he : k.sptes p = some e)
      (hl : e.isLoaded = false) (hty : e.type = .mmap)
      (hnew : hashFind k t e.unusedVirtualAddress = none) (ht : k.status t = .alive)
      (hopen : e.file ∈ k.files) (hrole : ∀ r, Holds k e.file r → r = .mapping t (k.mapid t))
      (hid : 1 ≤ k.mapid t) (hsize : e.readBytes.toNat + e.zeroBytes.toNat = pgSize)
      (hR : R.adds t (k.mapid t)) (henter : R.enters t e.unusedVirtualAddress) :
      Change R k (insertEntry (listMapping k t p) t p e.unusedVirtualAddress (filePage k e))
  /-- An entry of a mapping that overlaps another one is only listed. -/
  | addHashError {t : Tid} {p : Ptr} {e : Spte} (hp : Unused k p) (he : k.sptes p = some e)
      (hl : e.isLoaded = false) (hty : e.type = .hashError) (ht : k.status t = .alive)
      (hopen : e.file ∈ k.files) (hrole : ∀ r, Holds k e.file r → r = .mapping t (k.mapid t))
      (hid : 1 ≤ k.mapid t) (hR : R.adds t (k.mapid t)) : Change R k (listMapping k t p)
  /-- A page of a mapping is removed. -/
  | removeMapping {t : Tid} {mm : MmapFile} {e : Spte} (hmm : mm ∈ k.mmapList t)
      (he : k.sptes mm.spte = some e) (hl : e.isLoaded = false) (hR : R.removes t mm.mapid) :
      Change R k (forgetMapping k t mm e)
  /-- A page of a process inside `process_exit` is removed. -/
  | destroy {t : Tid} {p : Ptr} {rest : List Ptr} {e : Spte} (hx : k.status t = .exiting)
      (hspt : k.spt t = p :: rest) (he : k.sptes p = some e) (hl : e.isLoaded = false)
      (hm : k.mmapList t = []) : Change R k ((k.setSpt t rest).setSpte p none)
  | openFile {f : FilePtr} (i : Inode) (h : f ∉ k.files) :
      Change R k { k with files := k.files.insert f { inode := i, denyWrite := false } }
  | closeFile {f : FilePtr} (h : ∀ r, ¬ Holds k f r) : Change R k { k with files := k.files.erase f }
  | addDescriptor {t : Tid} {f : FilePtr} (ht : k.status t = .alive) (hopen : f ∈ k.files)
      (h : ∀ r, ¬ Holds k f r) : Change R k (processAddFile k t f)
  | removeDescriptor {t : Tid} {pf : ProcessFile} (h : pf ∈ k.fileList t) :
      Change R k { k with
        fileList := Function.update k.fileList t ((k.fileList t).erase pf)
        files := k.files.erase pf.file }
  | newMapid (t : Tid) :
      Change R k { k with mapid := Function.update k.mapid t (k.mapid t + 1) }

/-- A sequence of changes. -/
def Changes (R : Scope) (k k' : Kernel) : Prop :=
  Lts.Reaches (fun k (_ : Unit) k' => Change R k k') k k'

variable {R : Scope}

namespace Changes

variable {k k₁ k₂ : Kernel}

theorem refl (k : Kernel) : Changes R k k := Lts.Reaches.refl k

theorem single (h : Change R k k₁) : Changes R k k₁ := (refl k).tail (a := ()) h

theorem tail (h₁ : Changes R k k₁) (h₂ : Change R k₁ k₂) : Changes R k k₂ :=
  Lts.Reaches.tail (a := ()) h₁ h₂

theorem trans (h₁ : Changes R k k₁) (h₂ : Changes R k₁ k₂) : Changes R k k₂ :=
  Lts.Reaches.trans h₁ h₂

/-- What every change preserves, a sequence of changes preserves. -/
theorem invariant {P : Kernel → Prop} (hstep : ∀ k k', Change R k k' → P k → P k')
    (h : Changes R k k₁) (hk : P k) : P k₁ :=
  Lts.Reaches.invariant (fun _ _ _ h hk => hstep _ _ h hk) h hk

end Changes

/-! ## Saving a page -/

/-- The three ways `evict_frame` saves a page. -/
inductive Saved (k : Kernel) (fte : FrameTblEnt) (e : Spte) : Spte → Kernel → Prop where
  /-- A clean page is not saved. -/
  | clean (hd : pagedirIsDirty k fte.thread e.unusedVirtualAddress = false)
      (hty : e.type ≠ .swap) : Saved k fte e e k
  /-- A dirty page of a mapping goes to its file. -/
  | written {o : OpenFile} (hd : pagedirIsDirty k fte.thread e.unusedVirtualAddress = true)
      (hty : e.type = .mmap) (ho : k.files.lookup e.file = some o) :
      Saved k fte e e (inodeWriteAt k o.inode (pageByte (k.mem fte.frame)) e.readBytes.toNat
        e.offset.toNat)
  /-- Any other page goes to a free swap slot. -/
  | swapped {s : Swap} {index : ℕ} (hd : pagedirIsDirty k fte.thread e.unusedVirtualAddress = true ∨
        e.type = .swap) (hty : e.type ≠ .mmap) (hs : k.swap = some s)
      (hfree : s.map[index]? = some false) :
      Saved k fte e { e with type := .swap, swapIndex := index }
        { k with swap := some { s.setSlot index true with
          disk := blockWritePage s.disk index (k.mem fte.frame) } }

theorem saved_of_savePage {k k' : Kernel} {fte : FrameTblEnt} {e e' : Spte}
    (h : savePage k fte e = .ok (e', k')) : Saved k fte e e' k' := by
  unfold savePage at h
  by_cases hsave : pagedirIsDirty k fte.thread e.unusedVirtualAddress = true ∨ e.type = .swap
  · rw [if_pos hsave] at h
    by_cases hmmap : e.type = .mmap
    · rw [if_pos hmmap] at h
      -- a page of a mapping is not of type `SWAP`, so it is dirty
      have hd : pagedirIsDirty k fte.thread e.unusedVirtualAddress = true := by
        apply hsave.resolve_right
        rw [hmmap]
        decide
      rcases Lts.bind_eq_ok.mp h with ⟨k₁, hw, hret⟩
      rcases Lts.bind_eq_ok.mp hw with ⟨o, ho, hk₁⟩
      cases hk₁
      cases hret
      exact .written hd hmmap (deref_ok ho)
    · rw [if_neg hmmap] at h
      rcases Lts.bind_eq_ok.mp h with ⟨⟨index, k₁⟩, hw, hret⟩
      cases hret
      unfold swapOut at hw
      cases hs : k.swap with
      | none => simp [hs] at hw
      | some s =>
          rw [hs] at hw
          dsimp only at hw
          cases hidx : s.map.findIdx? (fun inUse => !inUse) with
          | none => simp [hidx] at hw
          | some i =>
              rw [hidx] at hw
              cases hw
              refine .swapped hsave hmmap hs ?_
              -- the slot found was marked free
              rcases List.findIdx?_eq_some_iff_getElem.mp hidx with ⟨hlt, hfree, _⟩
              rw [List.getElem?_eq_getElem hlt]
              simpa using hfree
  · rw [if_neg hsave] at h
    cases h
    rw [not_or] at hsave
    exact .clean (by simpa using hsave.1) hsave.2

/-- What changes of an entry never alter: its address and which part of its file
it reads. Its type only ever becomes `SWAP`. -/
structure Spte.Reshaped (e e' : Spte) : Prop where
  address : e'.unusedVirtualAddress = e.unusedVirtualAddress
  file : e'.file = e.file
  offset : e'.offset = e.offset
  readBytes : e'.readBytes = e.readBytes
  zeroBytes : e'.zeroBytes = e.zeroBytes
  type : e'.type = e.type ∨ e.type ≠ .mmap ∧ e.type ≠ .hashError ∧ e'.type = .swap
  error : e.type = .hashError → e'.isLoaded = e.isLoaded

theorem Spte.Reshaped.refl (e : Spte) : e.Reshaped e :=
  ⟨rfl, rfl, rfl, rfl, rfl, .inl rfl, fun _ => rfl⟩

/-- Saving a page only touches the swap block and the files. -/
theorem Saved.frame {k k' : Kernel} {fte : FrameTblEnt} {e e' : Spte} (h : Saved k fte e e' k') :
    ∃ swap inodes, k' = { k with swap := swap, inodes := inodes } := by
  cases h with
  | clean => exact ⟨k.swap, k.inodes, rfl⟩
  | swapped => exact ⟨_, k.inodes, rfl⟩
  | written =>
      unfold inodeWriteAt
      split
      next => exact ⟨k.swap, k.inodes, rfl⟩
      next => exact ⟨k.swap, _, rfl⟩

theorem Saved.spte {k k' : Kernel} {fte : FrameTblEnt} {e e' : Spte} (h : Saved k fte e e' k')
    (hty : e.type ≠ .hashError) : e.Reshaped { e' with isLoaded := false } ∧
      e'.type ≠ .hashError := by
  cases h with
  | clean => exact ⟨⟨rfl, rfl, rfl, rfl, rfl, .inl rfl, fun h => absurd h hty⟩, hty⟩
  | written => exact ⟨⟨rfl, rfl, rfl, rfl, rfl, .inl rfl, fun h => absurd h hty⟩, hty⟩
  | swapped _ hmmap =>
      exact ⟨⟨rfl, rfl, rfl, rfl, rfl, .inr ⟨hmmap, hty, rfl⟩, fun h => absurd h hty⟩, by simp⟩

/-! ## What no change touches -/

theorem forgetMapping_eq (k : Kernel) (t : Tid) (mm : MmapFile) (e : Spte) :
    ∃ spt, forgetMapping k t mm e =
        { k with
          spt := spt
          mmapList := Function.update k.mmapList t ((k.mmapList t).erase mm)
          sptes := Function.update k.sptes mm.spte none } ∧
      ∀ u, (spt u).Sublist (k.spt u) := by
  unfold forgetMapping hashDelete
  split
  next =>
    refine ⟨_, rfl, ?_⟩
    intro u
    by_cases hu : u = t
    · subst hu
      show (Function.update k.spt u _ u).Sublist _
      rw [Function.update_self]
      exact List.eraseP_sublist
    · show (Function.update k.spt t _ u).Sublist _
      rw [Function.update_of_ne hu]
  next => exact ⟨k.spt, rfl, fun u => .refl _⟩

theorem Change.status {k k' : Kernel} (h : Change R k k') : k'.status = k.status := by
  cases h with
  | evict hfte he hx hs =>
      rcases (saved_of_savePage hs).frame with ⟨swap, inodes, rfl⟩
      rfl
  | @removeMapping t mm e =>
      rcases forgetMapping_eq k t mm e with ⟨spt, heq, _⟩
      rw [heq]
  | _ => rfl

theorem Change.executable {k k' : Kernel} (h : Change R k k') : k'.executable = k.executable := by
  cases h with
  | evict hfte he hx hs =>
      rcases (saved_of_savePage hs).frame with ⟨swap, inodes, rfl⟩
      rfl
  | @removeMapping t mm e =>
      rcases forgetMapping_eq k t mm e with ⟨spt, heq, _⟩
      rw [heq]
  | _ => rfl

/-- What the kernel and its machine were made with stays. -/
theorem Change.fixed {k k' : Kernel} (h : Change R k k') :
    k'.listed = k.listed ∧ k'.userPool = k.userPool := by
  cases h with
  | evict hfte he hx hs =>
      rcases (saved_of_savePage hs).frame with ⟨swap, inodes, rfl⟩
      exact ⟨rfl, rfl⟩
  | @removeMapping t mm e =>
      rcases forgetMapping_eq k t mm e with ⟨spt, heq, _⟩
      rw [heq]
      exact ⟨rfl, rfl⟩
  | _ => exact ⟨rfl, rfl⟩

/-- A process that has stopped running gets no new entries, mappings and files. -/
structure Shrinks (k k' : Kernel) (t : Tid) : Prop where
  spt : (k'.spt t).Sublist (k.spt t)
  mmapList : (k'.mmapList t).Sublist (k.mmapList t)
  fileList : (k'.fileList t).Sublist (k.fileList t)

theorem Shrinks.trans {k k₁ k₂ : Kernel} {t : Tid} (h₁ : Shrinks k k₁ t) (h₂ : Shrinks k₁ k₂ t) :
    Shrinks k k₂ t :=
  ⟨h₂.spt.trans h₁.spt, h₂.mmapList.trans h₁.mmapList, h₂.fileList.trans h₁.fileList⟩

/-- A list of another process stays, and this one's gets shorter. -/
theorem sublist_update {α : Type} {f : Tid → List α} {t u : Tid} {l : List α}
    (hl : l.Sublist (f t)) : (Function.update f t l u).Sublist (f u) := by
  by_cases hu : u = t
  · subst hu
    rw [Function.update_self]
    exact hl
  · rw [Function.update_of_ne hu]

/-- Only the lists of a process that runs get longer. -/
theorem sublist_update_of_alive {α : Type} {k : Kernel} {f : Tid → List α} {t u : Tid} {l : List α}
    (ht : k.status t = .alive) (hu : k.status u ≠ .alive) :
    (Function.update f t l u).Sublist (f u) := by
  have hne : u ≠ t := by
    rintro rfl
    exact hu ht
  rw [Function.update_of_ne hne]

theorem Change.shrinks {k k' : Kernel} {u : Tid} (h : Change R k k') (hu : k.status u ≠ .alive) :
    Shrinks k k' u := by
  cases h with
  | evict hfte he hx hs =>
      rcases (saved_of_savePage hs).frame with ⟨swap, inodes, rfl⟩
      exact ⟨.refl _, .refl _, .refl _⟩
  | @removeMapping t mm e =>
      rcases forgetMapping_eq k t mm e with ⟨spt, heq, hsub⟩
      rw [heq]
      exact ⟨hsub u, sublist_update List.erase_sublist, .refl _⟩
  | growStack page hp he hl hty hf hpte hnew ht =>
      exact ⟨sublist_update_of_alive ht hu, .refl _, .refl _⟩
  | addFile hp he hl hty hnew ht =>
      exact ⟨sublist_update_of_alive ht hu, .refl _, .refl _⟩
  | addMmap hp he hl hty hnew ht =>
      exact ⟨sublist_update_of_alive ht hu, sublist_update_of_alive ht hu, .refl _⟩
  | addHashError hp he hl hty ht =>
      exact ⟨.refl _, sublist_update_of_alive ht hu, .refl _⟩
  | destroy hx hspt he hl hm =>
      refine ⟨sublist_update ?_, .refl _, .refl _⟩
      rw [hspt]
      exact List.sublist_cons_self _ _
  | addDescriptor ht =>
      exact ⟨.refl _, .refl _, sublist_update_of_alive ht hu⟩
  | removeDescriptor hpf =>
      exact ⟨.refl _, .refl _, sublist_update List.erase_sublist⟩
  | _ => exact ⟨.refl _, .refl _, .refl _⟩

namespace Changes

variable {k k' : Kernel}

theorem status (h : Changes R k k') : k'.status = k.status :=
  h.invariant (P := fun x => x.status = k.status) (fun _ _ hc heq => hc.status.trans heq) rfl

theorem executable (h : Changes R k k') : k'.executable = k.executable :=
  h.invariant (P := fun x => x.executable = k.executable)
    (fun _ _ hc heq => hc.executable.trans heq) rfl

theorem fixed (h : Changes R k k') : k'.listed = k.listed ∧ k'.userPool = k.userPool :=
  h.invariant (P := fun x => x.listed = k.listed ∧ x.userPool = k.userPool)
    (fun _ _ hc heq => ⟨hc.fixed.1.trans heq.1, hc.fixed.2.trans heq.2⟩) ⟨rfl, rfl⟩

theorem listed (h : Changes R k k') : k'.listed = k.listed := h.fixed.1

theorem userPool (h : Changes R k k') : k'.userPool = k.userPool := h.fixed.2

theorem shrinks {t : Tid} (h : Changes R k k') (ht : k.status t ≠ .alive) : Shrinks k k' t := by
  have hgen : k'.status = k.status ∧ Shrinks k k' t :=
    h.invariant (P := fun x => x.status = k.status ∧ Shrinks k x t)
      (fun x y hc hx => ⟨hc.status.trans hx.1, hx.2.trans (hc.shrinks (by rw [hx.1]; exact ht))⟩)
      ⟨rfl, .refl _, .refl _, .refl _⟩
  exact hgen.2

end Changes

end Pintos.Vm
