import Pintos.Vm.SwapSlots

/-! # Pages keep their contents

The history says what every page started with and what its process has stored
there since. `Content` relates it to the places a page can be in: the frame of
a resident page, the swap slot of one that is swapped out, and the file of one
that is clean. Every change keeps this for every page, whoever owns it; the
only thing to check for a page is what happens to the bytes of its file.
-/

namespace Pintos.Vm

open Ownership

variable {k k' : Kernel} {t u : Tid} {p q : Ptr} {e e' x : Spte} {fte : FrameTblEnt} {a : Act}
  {m : Machine} {f : FilePtr} {i : Inode} {va : Vaddr} {pte : Pte} {page : Page}
  {hist hist' : List Event} {b : Fin pgSize}
  {R : Scope}

/-! ## The history -/

/-- What process `t` stored last at offset `b` of its page at `va`, if it has
stored there since the page was entered. -/
def lastStored : List Event → Tid → Vaddr → Fin pgSize → Option UInt8
  | [], _, _, _ => none
  | .map u upage _ :: hist, t, va, b =>
      if t = u ∧ va = upage then none else lastStored hist t va b
  | .store u a byte :: hist, t, va, b =>
      if t = u ∧ va = pgRoundDown a ∧ b = pgOfs a then some byte else lastStored hist t va b

/-- What was in the page at `va` when it was entered. -/
def initialPage : List Event → Tid → Vaddr → Page
  | [], _, _ => zeroPage
  | .map u upage page :: hist, t, va => if t = u ∧ va = upage then page else initialPage hist t va
  | .store _ _ _ :: hist, t, va => initialPage hist t va

/-- What should be in the page at `va`: the bytes stored there on top of what it
started with. -/
def contents (hist : List Event) (t : Tid) (va : Vaddr) : Page := fun b =>
  (lastStored hist t va b).getD (initialPage hist t va b)

@[simp] theorem initialPage_map : initialPage (.map t va page :: hist) t va = page :=
  if_pos ⟨rfl, rfl⟩

@[simp] theorem contents_map : contents (.map t va page :: hist) t va = page := by
  funext b
  simp [contents, lastStored, initialPage]

theorem contents_store (byte : UInt8) :
    contents (.store t va byte :: hist) t (pgRoundDown va) =
      Function.update (contents hist t (pgRoundDown va)) (pgOfs va) byte := by
  funext b
  by_cases hb : b = pgOfs va
  · subst hb
    simp [contents, lastStored]
  · simp [contents, lastStored, initialPage, hb]

/-- Two histories say the same about the page at `va`. -/
structure SamePage (hist hist' : List Event) (t : Tid) (va : Vaddr) : Prop where
  contents : contents hist' t va = contents hist t va
  initialPage : initialPage hist' t va = initialPage hist t va

theorem SamePage.of_eq (h : hist' = hist) : SamePage hist hist' t va := by
  subst h
  exact ⟨rfl, rfl⟩

/-- Another page is entered. -/
theorem SamePage.map {upage : Vaddr} (h : ¬ (t = u ∧ va = upage)) :
    SamePage hist (.map u upage page :: hist) t va := by
  refine ⟨?_, if_neg h⟩
  funext b
  rw [Vm.contents, lastStored, Vm.initialPage, if_neg h, if_neg h, Vm.contents]

/-- A store to another page. -/
theorem SamePage.store {a : Vaddr} {byte : UInt8} (h : ¬ (t = u ∧ va = pgRoundDown a)) :
    SamePage hist (.store u a byte :: hist) t va := by
  refine ⟨?_, rfl⟩
  funext b
  rw [Vm.contents, lastStored, Vm.initialPage, if_neg fun heq => h ⟨heq.1, heq.2.1⟩, Vm.contents]

/-! ## Where the contents are -/

/-- How many bytes of its page an entry speaks for. What is stored behind the
end of a mapped file is lost with the frame. -/
def Spte.extent (e : Spte) : ℕ := if e.type = .mmap then e.readBytes.toNat else pgSize

/-- The page of an entry is where it should be. -/
structure Content (k : Kernel) (t : Tid) (e : Spte) : Prop where
  resident : ∀ pte, k.pteOf t e.unusedVirtualAddress = some pte → ∀ b : Fin pgSize,
    b.val < e.extent → k.mem pte.frame b = contents k.hist t e.unusedVirtualAddress b
  swapped : e.type = .swap → e.isLoaded = false → ∀ s, k.swap = some s →
    blockReadPage s.disk e.swapIndex = contents k.hist t e.unusedVirtualAddress
  clean : e.type ≠ .swap → pagedirIsDirty k t e.unusedVirtualAddress = false →
    ∀ b : Fin pgSize, b.val < e.extent →
      filePage k e b = contents k.hist t e.unusedVirtualAddress b
  initial : e.type = .file → initialPage k.hist t e.unusedVirtualAddress = filePage k e

/-- The page of the mapping entry `e` stops being dirty. -/
def WrittenBack (k k' : Kernel) (t : Tid) (e : Spte) : Prop :=
  e.type = .mmap ∧ pagedirIsDirty k t e.unusedVirtualAddress = true ∧
    pagedirIsDirty k' t e.unusedVirtualAddress = false

/-- The file of an entry keeps its bytes, except for a page of a mapping that is
written back. -/
structure FileFollows (k k' : Kernel) (t : Tid) (e : Spte) : Prop where
  kept : ¬ WrittenBack k k' t e → ∀ b : Fin pgSize, b.val < e.extent →
    filePage k' e b = filePage k e b
  saved : WrittenBack k k' t e → ∀ pte, k.pteOf t e.unusedVirtualAddress = some pte →
    ∀ b : Fin pgSize, b.val < e.extent → filePage k' e b = k.mem pte.frame b

theorem pagedirIsDirty_eq {k : Kernel} {b : Bool}
    (h : (k'.pteOf t va).map (fun pte => (pte.frame, pte.dirty)) =
      (k.pteOf t va).map fun pte => (pte.frame, pte.dirty)) (hb : pagedirIsDirty k' t va = b) :
    pagedirIsDirty k t va = b := by
  unfold pagedirIsDirty at hb ⊢
  cases hk : k.pteOf t va <;> cases hk' : k'.pteOf t va <;> simp_all

/-- Another page changes. -/
theorem Content.congr (h : Content k t e) (hfile : e.type ≠ .swap → FileFollows k k' t e)
    (hpte : (k'.pteOf t e.unusedVirtualAddress).map (fun pte => (pte.frame, pte.dirty)) =
      (k.pteOf t e.unusedVirtualAddress).map fun pte => (pte.frame, pte.dirty))
    (hmem : ∀ pte, k.pteOf t e.unusedVirtualAddress = some pte →
      k'.mem pte.frame = k.mem pte.frame)
    (hhist : SamePage k.hist k'.hist t e.unusedVirtualAddress)
    (hswap : e.type = .swap → e.isLoaded = false → ∀ s', k'.swap = some s' → ∃ s,
      k.swap = some s ∧ blockReadPage s'.disk e.swapIndex = blockReadPage s.disk e.swapIndex) :
    Content k' t e := by
  have hnot : ¬ WrittenBack k k' t e := by
    rintro ⟨_, hd, hd'⟩
    rw [pagedirIsDirty_eq hpte hd'] at hd
    cases hd
  constructor
  · intro pte hpte' b hb
    rw [hpte'] at hpte
    rcases Option.map_eq_some_iff.mp hpte.symm with ⟨pte₀, hpte₀, hkey⟩
    have hframe : pte.frame = pte₀.frame := (congrArg Prod.fst hkey).symm
    rw [hframe, hmem pte₀ hpte₀, hhist.contents]
    exact h.resident pte₀ hpte₀ b hb
  · intro hty hl s' hs'
    rcases hswap hty hl s' hs' with ⟨s, hs, hread⟩
    rw [hread, hhist.contents]
    exact h.swapped hty hl s hs
  · intro hty hd b hb
    rw [(hfile hty).kept hnot b hb, hhist.contents]
    exact h.clean hty (pagedirIsDirty_eq hpte hd) b hb
  · intro hty
    rw [hhist.initialPage, h.initial hty]
    funext b
    have hne : e.type ≠ .swap := by
      rw [hty]
      decide
    refine ((hfile hne).kept hnot b ?_).symm
    unfold Spte.extent
    rw [if_neg (by rw [hty]; decide)]
    exact b.isLt

/-- Nothing changes that the contents depend on. -/
theorem Content.same (h : Content k t e) (hfile : e.type ≠ .swap → FileFollows k k' t e)
    (hpagedir : k'.pagedir = k.pagedir) (hmem : k'.mem = k.mem)
    (hhist : SamePage k.hist k'.hist t e.unusedVirtualAddress) (hswap : k'.swap = k.swap) :
    Content k' t e := by
  refine h.congr hfile ?_ (fun _ _ => by rw [hmem]) hhist fun _ _ s hs => ⟨s, hswap ▸ hs, rfl⟩
  unfold Kernel.pteOf
  rw [hpagedir]

/-- The page of another entry gets a frame. -/
theorem Content.map (h : Sound k) (hx : Content k t x) {frame : Frame} (hf : frame ∈ k.freePages)
    (hfile : x.type ≠ .swap → FileFollows k k' t x)
    (hpte : k'.pteOf t x.unusedVirtualAddress = k.pteOf t x.unusedVirtualAddress)
    (hmem : k'.mem = Function.update k.mem frame page)
    (hhist : SamePage k.hist k'.hist t x.unusedVirtualAddress)
    (hswap : ∀ s', k'.swap = some s' → ∃ s, k.swap = some s ∧ s'.disk = s.disk) :
    Content k' t x := by
  refine hx.congr hfile (by rw [hpte]) ?_ hhist ?_
  · intro pte hp
    rw [hmem]
    refine Function.update_of_ne ?_ ..
    rintro rfl
    exact h.tables.pte_not_free hp hf
  · intro _ _ s' hs'
    rcases hswap s' hs' with ⟨s, hs, hdisk⟩
    exact ⟨s, hs, by rw [hdisk]⟩

/-! ## Changes -/

/-- Writing to a file touches neither the page directories nor the frames. -/
theorem write_pages {data : ℕ → UInt8} {size ofs : ℕ} :
    (inodeWriteAt k i data size ofs).pagedir = k.pagedir ∧
      (inodeWriteAt k i data size ofs).mem = k.mem ∧
      (inodeWriteAt k i data size ofs).hist = k.hist := by
  unfold inodeWriteAt
  split <;> exact ⟨rfl, rfl, rfl⟩

theorem write_files {data : ℕ → UInt8} {size ofs : ℕ} :
    (inodeWriteAt k i data size ofs).files = k.files := by
  unfold inodeWriteAt
  split <;> rfl

theorem write_mmapList {data : ℕ → UInt8} {size ofs : ℕ} :
    (inodeWriteAt k i data size ofs).mmapList = k.mmapList := by
  unfold inodeWriteAt
  split <;> rfl

theorem pteOf_insertEntry {upage : Vaddr} :
    (insertEntry k t p upage page).pteOf u va = k.pteOf u va := rfl

theorem pagedirIsDirty_unmapPage : pagedirIsDirty (unmapPage k fte e) fte.thread
    e.unusedVirtualAddress = false := by
  unfold pagedirIsDirty
  rw [pteOf_unmapPage, if_pos ⟨rfl, rfl⟩]
  rfl

/-- The page itself is evicted: what was in its frame is in its file or in its
new swap slot. -/
theorem Content.evict (hx : Content k t x) (hl : k.pteOf t x.unusedVirtualAddress = some pte)
    (hframe : pte.frame = fte.frame) (ht : fte.thread = t) (hs : Saved k fte x e' k')
    (hfile : x.type ≠ .swap →
      FileFollows k (unmapPage k' fte { e' with isLoaded := false }) t x) :
    Content (unmapPage k' fte { e' with isLoaded := false }) t { e' with isLoaded := false } := by
  subst ht
  set k₂ := unmapPage k' fte { e' with isLoaded := false } with hk₂
  have hnone : k₂.pteOf fte.thread e'.unusedVirtualAddress = none := by
    rw [hk₂, pteOf_unmapPage, if_pos ⟨rfl, rfl⟩]
  have hclean : pagedirIsDirty k₂ fte.thread e'.unusedVirtualAddress = false :=
    pagedirIsDirty_unmapPage
  have hresident : ∀ pte, k₂.pteOf fte.thread e'.unusedVirtualAddress = some pte →
      ∀ b : Fin pgSize, b.val < e'.extent →
        k₂.mem pte.frame b = contents k₂.hist fte.thread e'.unusedVirtualAddress b := by
    intro pte' hpte'
    rw [hnone] at hpte'
    cases hpte'
  cases hs with
  | clean hd hty =>
      have hkept : ∀ b : Fin pgSize, b.val < e'.extent → filePage k₂ e' b = filePage k e' b := by
        refine (hfile hty).kept ?_
        rintro ⟨_, hd', _⟩
        rw [hd] at hd'
        cases hd'
      refine ⟨hresident, fun hswap => absurd hswap hty, ?_, ?_⟩
      · intro _ _ b hb
        exact (hkept b hb).trans (hx.clean hty hd b hb)
      · intro hf
        refine (hx.initial hf).trans (funext fun b => (hkept b ?_).symm)
        unfold Spte.extent
        rw [if_neg (by rw [hf]; decide)]
        exact b.isLt
  | @written o hd hty ho =>
      rcases write_pages with ⟨_, _, hhist⟩
      refine ⟨hresident, ?_, ?_, ?_⟩
      · intro hswap
        have hty' : e'.type = .swap := hswap
        rw [hty] at hty'
        cases hty'
      · intro _ _ b hb
        -- the file now has what was in the frame
        have hsaved := (hfile (by rw [hty]; decide)).saved ⟨hty, hd, hclean⟩ pte hl b hb
        refine hsaved.trans ((hx.resident pte hl b hb).trans ?_)
        show _ = contents (inodeWriteAt k _ _ _ _).hist _ _ b
        rw [hhist]
      · intro hf
        have hty' : e'.type = .file := hf
        rw [hty] at hty'
        cases hty'
  | @swapped s index hd hty hs hfree =>
      refine ⟨hresident, fun _ _ s' hs' => ?_, fun hne => absurd rfl hne, fun hf => by cases hf⟩
      -- all of the frame is in the slot
      cases hs'
      refine (blockReadPage_blockWritePage ..).trans (funext ?_)
      intro b
      rw [← hframe]
      refine hx.resident pte hl b ?_
      unfold Spte.extent
      rw [if_neg hty]
      exact b.isLt

/-- The page itself gets a frame that holds what it should. -/
theorem Content.load (hx : Content k t x) (hpte : k.pteOf t x.unusedVirtualAddress = none)
    (hpte' : k'.pteOf t x.unusedVirtualAddress = some pte)
    (hmem : ∀ b : Fin pgSize, b.val < x.extent →
      k'.mem pte.frame b = contents k.hist t x.unusedVirtualAddress b)
    (hhist : k'.hist = k.hist) (hfile : x.type ≠ .swap → FileFollows k k' t x) :
    Content k' t { x with isLoaded := true } := by
  have hclean : pagedirIsDirty k t x.unusedVirtualAddress = false := by
    unfold pagedirIsDirty
    rw [hpte]
    rfl
  have hkept : x.type ≠ .swap → ∀ b : Fin pgSize, b.val < x.extent →
      filePage k' x b = filePage k x b := by
    refine fun hty => (hfile hty).kept ?_
    rintro ⟨_, hd, _⟩
    rw [hclean] at hd
    cases hd
  refine ⟨?_, fun _ hl => (by cases hl), ?_, ?_⟩
  · intro pte₁ hpte₁ b hb
    rw [← Option.some.inj (hpte'.symm.trans hpte₁), hhist]
    exact hmem b hb
  · intro hty _ b hb
    rw [hhist]
    exact (hkept hty b hb).trans (hx.clean hty hclean b hb)
  · intro hty
    have hf : x.type = .file := hty
    rw [hhist]
    refine (hx.initial hf).trans (funext fun b => (hkept (by rw [hf]; decide) b ?_).symm)
    unfold Spte.extent
    rw [if_neg (by rw [hf]; decide)]
    exact b.isLt

/-- The page is new. -/
theorem Content.enter (hhist : k'.hist = .map t x.unusedVirtualAddress page :: hist)
    (hresident : ∀ pte, k'.pteOf t x.unusedVirtualAddress = some pte → k'.mem pte.frame = page)
    (hswapped : x.type = .swap → x.isLoaded = true)
    (hfile : x.type ≠ .swap → filePage k' x = page) : Content k' t x where
  resident := by
    intro pte hpte b _
    rw [hhist, contents_map, hresident pte hpte]
  swapped := by
    intro hty hl
    rw [hswapped hty] at hl
    cases hl
  clean := by
    intro hty _ b _
    rw [hhist, contents_map, hfile hty]
  initial := by
    intro hty
    rw [hhist, initialPage_map, hfile (by rw [hty]; decide)]

/-- A page that is swapped out keeps its slot when another page is saved. -/
theorem Saved.slot (h : Saved k fte e e' k') (hi : (slots k).Exclusive) (ht : k.Live t)
    (hx : Entry k t q x) (hty : x.type = .swap) (hl : x.isLoaded = false) {s' : Swap}
    (hs' : k'.swap = some s') : ∃ s, k.swap = some s ∧
      blockReadPage s'.disk x.swapIndex = blockReadPage s.disk x.swapIndex := by
  cases h with
  | clean => exact ⟨s', hs', rfl⟩
  | written =>
      rw [write_fields.1] at hs'
      exact ⟨s', hs', rfl⟩
  | @swapped s index hd hne hs hfree =>
      cases hs'
      refine ⟨s, hs, blockReadPage_blockWritePage_of_ne ?_⟩
      rintro rfl
      -- the slot that is written was free
      rcases hi.used (t, q) _ ⟨ht, swappedOut_of_entry hx hty hl⟩ with ⟨s₁, hs₁, htrue⟩
      rw [Option.some.inj (hs₁.symm.trans hs), hfree] at htrue
      cases htrue

/-- A page is evicted, this one or another one. -/
theorem Content.change_evict (h : Sound k) (hi : (slots k).Exclusive) (hfte : fte ∈ k.frameTblList)
    (he : k.sptes fte.spte = some e) (hs : savePage k fte e = .ok (e', k'))
    (hlive : k.Live t ∨ x.type = .mmap)
    (hx : Entry (unmapPage k' fte { e' with isLoaded := false }) t q x)
    (hold : ∀ e, Entry k t q e → (e.type = .mmap → x.type = .mmap) → Content k t e ∧
      (e.type ≠ .swap → FileFollows k (unmapPage k' fte { e' with isLoaded := false }) t e)) :
    Content (unmapPage k' fte { e' with isLoaded := false }) t x := by
  have hsaved := saved_of_savePage hs
  have haddr : e'.unusedVirtualAddress = e.unusedVirtualAddress :=
    (hsaved.spte (h.type_ne_of_fte hfte he)).1.address
  rcases h.tables.resident_at hfte he with ⟨hy, _, pte, hpte, hframe⟩
  rcases hsaved.frame with ⟨swap, inodes, hk'⟩
  have hspt : (unmapPage k' fte { e' with isLoaded := false }).spt = k.spt := by rw [hk']; rfl
  have hsptes : (unmapPage k' fte { e' with isLoaded := false }).sptes =
      Function.update k.sptes fte.spte (some { e' with isLoaded := false }) := by rw [hk']; rfl
  rcases entry_update hx hspt hsptes with ⟨rfl, hmem, heq⟩ | ⟨hne, hx'⟩
  · cases heq
    -- the page that is saved
    have ht : fte.thread = t := h.tables.apart _ _ _ hy.mem hmem
    have hy' : Entry k t fte.spte e := ht ▸ hy
    have hmmap : e.type = .mmap → e'.type = .mmap := by
      intro hty
      rcases (hsaved.spte (h.type_ne_of_fte hfte he)).1.type with heq | ⟨hne, _⟩
      · exact heq.trans hty
      · exact absurd hty hne
    rcases hold e hy' hmmap with ⟨hcont, hfile⟩
    exact hcont.evict (ht ▸ hpte) hframe ht hsaved hfile
  · -- another page keeps its frame or its slot: the slot that was taken was free
    refine (hold x hx' id).1.congr (hold x hx' id).2 ?_ (fun pte' _ => ?_) (.of_eq ?_)
      fun hty hl s' hs' => ?_
    · rw [pteOf_unmapPage, if_neg]
      · rw [hk']
        rfl
      · rintro ⟨hth, hva⟩
        exact h.tables.address_ne hx' hy hne ⟨hth, hva.trans haddr⟩
    · rw [hk']
      rfl
    · rw [hk']
      rfl
    · have ht : k.Live t := hlive.resolve_right (by rw [hty]; decide)
      exact hsaved.slot hi ht hx' hty hl hs'

/-- An entry for a page of a file is entered, this one or another one. -/
theorem Content.change_insert {l : Tid → List MmapFile} (h : Sound k) (he : k.sptes p = some e)
    (hty : e.type ≠ .swap) (hnew : hashFind k u e.unusedVirtualAddress = none)
    (hx : Entry (insertEntry { k with mmapList := l } u p e.unusedVirtualAddress (filePage k e)) t q x)
    (hold : ∀ y, Entry k t q y → (y.type = .mmap → x.type = .mmap) → Content k t y ∧
      (y.type ≠ .swap → FileFollows k
        (insertEntry { k with mmapList := l } u p e.unusedVirtualAddress (filePage k e)) t y)) :
    Content (insertEntry { k with mmapList := l } u p e.unusedVirtualAddress (filePage k e)) t x := by
  rcases (entry_addMmap he).mp hx with hx' | ⟨rfl, rfl, rfl⟩
  · refine (hold x hx' id).1.same (hold x hx' id).2 rfl rfl (.map ?_) rfl
    rintro ⟨rfl, heq⟩
    exact Tables.not_entry_of_hashFind hnew hx' heq
  · refine .enter rfl (fun pte hpte => ?_) (fun hs => absurd hs hty) fun _ => rfl
    have hnone := h.tables.pteOf_new hnew
    rw [show k.pteOf t x.unusedVirtualAddress = some pte from hpte] at hnone
    cases hnone

/-- A change keeps a page where it should be, if it does so with the file of the
page. -/
theorem Content.change (h : Sound k) (hi : (slots k).Exclusive) (hc : Change R k k')
    (hlive : k.Live t ∨ x.type = .mmap) (hx : Entry k' t q x)
    (hold : ∀ e, Entry k t q e → (e.type = .mmap → x.type = .mmap) → Content k t e ∧
      (e.type ≠ .swap → FileFollows k k' t e)) : Content k' t x := by
  cases hc with
  | @access u va pte accessed hpte =>
      have hx' : Entry k t q x := ⟨hx.mem, hx.at_ptr⟩
      refine (hold x hx' id).1.congr (hold x hx' id).2 ?_ (fun _ _ => rfl) (.of_eq rfl)
        fun _ _ s hs => ⟨s, hs, rfl⟩
      rw [pteOf_setPte]
      split
      next heq =>
        rw [heq.1, heq.2, hpte]
        rfl
      next => rfl
  | @pin p e pinned he =>
      rcases entry_update (k := k) (p := p) hx rfl rfl with ⟨rfl, hmem, heq⟩ | ⟨hne, hx'⟩
      · cases heq
        have hx' : Entry k t q e := ⟨hmem, he⟩
        have hkeep := (hold e hx' id).1.same (hold e hx' id).2 rfl rfl (.of_eq rfl) rfl
        exact ⟨hkeep.resident, hkeep.swapped, hkeep.clean, hkeep.initial⟩
      · exact (hold x hx' id).1.same (hold x hx' id).2 rfl rfl (.of_eq rfl) rfl
  | @cell p o hp =>
      rcases entry_update (k := k) (p := p) hx rfl rfl with ⟨rfl, hmem, _⟩ | ⟨hne, hx'⟩
      · exact absurd hmem (hp.spt t)
      · exact (hold x hx' id).1.same (hold x hx' id).2 rfl rfl (.of_eq rfl) rfl
  | @free l mem hl hm =>
      have hx' : Entry k t q x := ⟨hx.mem, hx.at_ptr⟩
      exact (hold x hx' id).1.congr (hold x hx' id).2 rfl
        (fun pte hpte => hm _ (h.tables.pte_not_free hpte)) (.of_eq rfl)
        fun _ _ s hs => ⟨s, hs, rfl⟩
  | evict hfte he _ hs => exact Content.change_evict h hi hfte he hs hlive hx hold
  | @discard fte e hfte he hst hm =>
      have hy := (h.tables.resident_at hfte he).1
      rcases entry_update (k := k) (p := fte.spte) hx rfl rfl with ⟨rfl, hmem, heq⟩ | ⟨hne, hx'⟩
      · -- the process is not live, and it has no mappings left
        cases heq
        have ht : fte.thread = t := h.tables.apart _ _ _ hy.mem hmem
        subst ht
        have hmmap := hlive.resolve_left (not_live_of_exiting hst)
        rcases h.mappings.covered _ _ _ hy hmmap with ⟨mm, hmm, _⟩
        rw [hm] at hmm
        cases hmm
      · refine (hold x hx' id).1.congr (hold x hx' id).2 ?_ (fun _ _ => rfl) (.of_eq rfl)
          fun _ _ s hs => ⟨s, hs, rfl⟩
        rw [pteOf_unmapPage, if_neg (h.tables.address_ne hx' hy hne)]
  | @readIn u p e frame he hl hty hf hpte =>
      rcases entry_update (k := k) (p := p) hx rfl rfl with ⟨rfl, hmem, heq⟩ | ⟨hne, hx'⟩
      · cases heq
        have ht : u = t := h.tables.apart _ _ _ he.mem hmem
        subst ht
        rcases hold e he id with ⟨hx', hfile⟩
        refine hx'.load hpte (pteOf_mapPage.trans (if_pos ⟨rfl, rfl⟩)) (fun b hb => ?_) rfl hfile
        show Function.update k.mem frame (filePage k e) frame b = _
        rw [Function.update_self]
        refine hx'.clean ?_ ?_ b hb
        · rcases hty with hty | hty <;> rw [hty] <;> decide
        · unfold pagedirIsDirty
          rw [hpte]
          rfl
      · exact (hold x hx' id).1.map h hf (hold x hx' id).2
          (pteOf_mapPage.trans (if_neg (h.tables.address_ne hx' he hne))) rfl (.of_eq rfl)
          fun s hs => ⟨s, hs, rfl⟩
  | @swapIn u p e frame s he hl hty hf hpte ht hs hidx =>
      rcases entry_update (k := k) (p := p) hx rfl rfl with ⟨rfl, hmem, heq⟩ | ⟨hne, hx'⟩
      · cases heq
        have ht : u = t := h.tables.apart _ _ _ he.mem hmem
        subst ht
        rcases hold e he id with ⟨hx', hfile⟩
        refine hx'.load hpte (pteOf_mapPage.trans (if_pos ⟨rfl, rfl⟩)) (fun b hb => ?_) rfl hfile
        show Function.update k.mem frame (blockReadPage s.disk e.swapIndex) frame b = _
        rw [Function.update_self, hx'.swapped hty hl s hs]
      · refine (hold x hx' id).1.map h hf (hold x hx' id).2
          (pteOf_mapPage.trans (if_neg (h.tables.address_ne hx' he hne))) rfl (.of_eq rfl)
          fun s' hs' => ⟨s, hs, ?_⟩
        cases hs'
        rfl
  | @swapInNothing u p e frame page he hl hty hf hpte ht hs =>
      -- there is a swap block, since the page is in one of its slots
      rcases hi.used (u, p) e.swapIndex ⟨.inl ht, swappedOut_of_entry he hty hl⟩ with ⟨s, hs', _⟩
      rw [hs] at hs'
      cases hs'
  | @growStack u p e frame page hp he hl hty hf hpte hnew ht =>
      rcases (entry_growStack hp).mp hx with hx' | ⟨rfl, rfl, rfl⟩
      · have haddr : ¬ (t = u ∧ x.unusedVirtualAddress = e.unusedVirtualAddress) := by
          rintro ⟨rfl, heq⟩
          exact Tables.not_entry_of_hashFind hnew hx' heq
        refine (hold x hx' id).1.map h hf (hold x hx' id).2 ?_ rfl (.map haddr) fun s hs => ⟨s, hs, rfl⟩
        rw [pteOf_insertEntry, pteOf_mapPage, if_neg haddr]
      · refine .enter rfl (fun pte hpte' => ?_) (fun _ => rfl) fun hne => absurd hty hne
        rw [pteOf_insertEntry, pteOf_mapPage, if_pos ⟨rfl, rfl⟩] at hpte'
        cases hpte'
        exact Function.update_self ..
  | addFile hp he hl hty hnew ht =>
      exact Content.change_insert h he (by rw [hty]; decide) hnew hx hold
  | addMmap hp he hl hty hnew ht =>
      exact Content.change_insert h he (by rw [hty]; decide) hnew hx hold
  | @removeMapping u mm e hmm he hl =>
      have hr := h.removes_forgetMapping hmm he
      have hx' := (hr.entry hx).1
      have hrest := hr.rest
      exact (hold x hx' id).1.same (hold x hx' id).2 (by rw [hrest]) (by rw [hrest])
        (.of_eq (by rw [hrest])) (by rw [hrest])
  | @destroy u p rest e hst hspt he hl hm =>
      have hx' := ((h.removes_destroy hspt hm).entry hx).1
      exact (hold x hx' id).1.same (hold x hx' id).2 rfl rfl (.of_eq rfl) rfl
  | _ =>
      -- no page and no entry changes
      have hx' : Entry k t q x := ⟨hx.mem, hx.at_ptr⟩
      exact (hold x hx' id).1.same (hold x hx' id).2 rfl rfl (.of_eq rfl) rfl

/-! ## Executables -/

/-- Where writes are denied, nothing is written. -/
theorem inodes_denied {j : Inode} {data : ℕ → UInt8} {size ofs : ℕ} (hd : WritesDenied k i) :
    (inodeWriteAt k j data size ofs).inodes i = k.inodes i := by
  unfold inodeWriteAt
  split
  next => rfl
  next hno =>
    have hij : i ≠ j := by
      rintro rfl
      exact hno hd
    exact Function.update_of_ne hij ..

theorem Change.inodes_denied (hc : Change R k k') (hd : WritesDenied k i) :
    k'.inodes i = k.inodes i := by
  cases hc with
  | evict hfte he hx hs =>
      cases saved_of_savePage hs with
      | clean => rfl
      | swapped => rfl
      | written => exact Vm.inodes_denied hd
  | @removeMapping t mm e =>
      rcases forgetMapping_eq k t mm e with ⟨spt, heq, _⟩
      rw [heq]
  | _ => rfl

/-- A handle stays open while it is in use, unless as a file descriptor. -/
theorem Change.lookup (h : Sound k) (hc : Change R k k') {r : Role} (hr : Holds k f r)
    (hno : ∀ t fd, r ≠ .descriptor t fd) : k'.files.lookup f = k.files.lookup f := by
  cases hc with
  | evict hfte he hx hs =>
      rcases (saved_of_savePage hs).frame with ⟨swap, inodes, rfl⟩
      rfl
  | @removeMapping t mm e =>
      rcases forgetMapping_eq k t mm e with ⟨spt, heq, _⟩
      rw [heq]
  | openFile i hf =>
      apply AList.lookup_insert_ne
      rintro rfl
      exact hf (h.handles.opened f r hr)
  | closeFile hf =>
      apply AList.lookup_erase_ne
      rintro rfl
      exact hf r hr
  | @removeDescriptor t pf hpf =>
      apply AList.lookup_erase_ne
      rintro rfl
      exact hno t pf.fd (h.handles.unique _ _ _ hr hpf)
  | _ => rfl

/-- The handle on the executable of a live process denies writes. -/
theorem Handles.denied (h : Handles k) (ht : k.Live t) (hexe : k.executable t = some f) :
    ∃ o, k.files.lookup f = some o ∧ WritesDenied k o.inode := by
  rcases h.executable t ht with ⟨g, o, hg, ho, hdeny⟩
  rw [hexe] at hg
  rw [Option.some.inj hg]
  exact ⟨o, ho, ⟨g, o⟩, AList.mem_lookup_iff.mp ho, rfl, hdeny⟩

theorem filePage_congr {o : OpenFile} (ho : k.files.lookup e.file = some o)
    (ho' : k'.files.lookup e.file = some o) (hbytes : k'.bytesOf o.inode = k.bytesOf o.inode) :
    filePage k' e = filePage k e := by
  funext b
  simp [filePage, ho, ho', hbytes]

/-- So the executable of a live process does not change. -/
theorem Sound.filePage_executable (h : Sound k) (ht : k.Live t) (he : Entry k t p e)
    (hty : e.type = .file)
    (hlook : ∀ f, k.executable t = some f → k'.files.lookup f = k.files.lookup f)
    (hinodes : ∀ i, WritesDenied k i → k'.inodes i = k.inodes i) :
    filePage k' e = filePage k e := by
  have hexe := h.handles.filePages t p e ht he hty
  rcases h.handles.denied ht hexe with ⟨o, ho, hd⟩
  refine filePage_congr ho ((hlook _ hexe).trans ho) ?_
  unfold Kernel.bytesOf
  rw [hinodes _ hd]

theorem Change.follows_executable (h : Sound k) (hc : Change R k k') (ht : k.Live t)
    (he : Entry k t p e) (hty : e.type = .file) : FileFollows k k' t e := by
  have hsame : filePage k' e = filePage k e :=
    h.filePage_executable ht he hty
      (fun f hexe => hc.lookup h (r := .executable t) ⟨ht, hexe⟩ fun _ _ => by simp)
      fun i hd => hc.inodes_denied hd
  refine ⟨fun _ b _ => by rw [hsame], ?_⟩
  rintro ⟨hmmap, _⟩
  rw [hty] at hmmap
  cases hmmap

/-- The three types an entry in a supplemental page table can have. -/
theorem Tables.type_file (h : Tables k) (he : Entry k t p e) (hmmap : e.type ≠ .mmap)
    (hswap : e.type ≠ .swap) : e.type = .file := by
  rcases h.allocated t p he.mem with ⟨y, hy, herr⟩
  rw [Option.some.inj (hy.symm.trans he.at_ptr)] at herr
  cases hcase : e.type with
  | file => rfl
  | swap => exact absurd hcase hswap
  | mmap => exact absurd hcase hmmap
  | hashError => exact absurd hcase herr

/-! ## Every page of every process -/

/-- The pages of all live processes, but for those of mappings, are where they
should be. -/
def Faithful (k : Kernel) : Prop :=
  ∀ t p e, k.Live t → Entry k t p e → e.type ≠ .mmap → Content k t e

theorem Faithful.change (h : Sound k) (hi : (slots k).Exclusive) (hf : Faithful k)
    (hc : Change R k k') : Faithful k' := by
  intro t q x ht hx hty
  have ht' : k.Live t := by
    unfold Kernel.Live at ht
    rwa [hc.status] at ht
  refine Content.change h hi hc (.inl ht') hx ?_
  intro e he hmmap
  have hne : e.type ≠ .mmap := fun heq => hty (hmmap heq)
  exact ⟨hf t q e ht' he hne, fun hswap =>
    hc.follows_executable h ht' he (h.tables.type_file he hne hswap)⟩

theorem Faithful.changes (h : Sound k) (hi : (slots k).Exclusive) (hf : Faithful k)
    (hc : Changes R k k') : Faithful k' := by
  have hgen : Sound k' ∧ (slots k').Exclusive ∧ Faithful k' := by
    refine hc.invariant (P := fun x => Sound x ∧ (slots x).Exclusive ∧ Faithful x)
      (fun x y hc hx => ?_) ⟨h, hi, hf⟩
    exact ⟨hx.1.change hc, (slots_change hx.1 hx.2.1 hc).exclusive hx.2.1, hx.2.2.change hx.1 hx.2.1 hc⟩
  exact hgen.2.2

/-- A store changes the page it is to, and no other. -/
theorem Content.store (h : Sound k) {byte : UInt8} (hs : userStore k u va byte = .ok k')
    (he : Entry k t p x) (hx : Content k t x) : Content k' t x := by
  rcases userStore_ok hs with ⟨pte, hpte, _, rfl⟩
  set k' := ((k.setMem pte.frame (Function.update (k.mem pte.frame) (pgOfs va) byte)).setPte u
    (pgRoundDown va) { pte with accessed := true, dirty := true }).log (.store u va byte) with hk'
  have hpte' : ∀ v wa, k'.pteOf v wa = if v = u ∧ wa = pgRoundDown va then
      some { pte with accessed := true, dirty := true } else k.pteOf v wa := fun _ _ => pteOf_setPte
  have hmem : ∀ g, k'.mem g = if g = pte.frame then
      Function.update (k.mem pte.frame) (pgOfs va) byte else k.mem g :=
    fun g => Function.update_apply ..
  by_cases hown : t = u ∧ x.unusedVirtualAddress = pgRoundDown va
  · -- the page stored to: its frame and its contents change at the same byte
    rcases hown with ⟨rfl, haddr⟩
    constructor
    · intro pte₁ hpte₁ b hb
      rw [hpte', if_pos ⟨rfl, haddr⟩] at hpte₁
      cases hpte₁
      rw [hmem, if_pos rfl, haddr]
      show _ = contents (.store t va byte :: k.hist) t (pgRoundDown va) b
      rw [contents_store]
      have hbefore := hx.resident pte (haddr ▸ hpte) b hb
      rw [haddr] at hbefore
      by_cases hofs : b = pgOfs va
      · rw [hofs, Function.update_self, Function.update_self]
      · rw [Function.update_of_ne hofs, Function.update_of_ne hofs, hbefore]
    · -- a page that is stored to is not swapped out
      intro _ hl
      have hnone := h.tables.pteOf_none he hl
      rw [haddr, hpte] at hnone
      cases hnone
    · intro hty hd
      unfold pagedirIsDirty at hd
      rw [hpte', if_pos ⟨rfl, haddr⟩] at hd
      cases hd
    · exact hx.initial
  · -- any other page has a frame of its own
    refine hx.congr (fun _ => ⟨fun _ _ _ => rfl, ?_⟩) ?_ ?_ (.store hown)
      fun _ _ s hs' => ⟨s, hs', rfl⟩
    · rintro ⟨_, hd, hd'⟩
      unfold pagedirIsDirty at hd hd'
      rw [hpte', if_neg hown, hd] at hd'
      cases hd'
    · rw [hpte', if_neg hown]
    · intro pte₁ hpte₁
      rw [hmem, if_neg]
      intro heq
      exact hown (h.tables.frame_unique hpte₁ hpte heq)

/-- What `Content` reads of a state, besides the page itself. -/
theorem Content.of_fields (hx : Content k t x) (hpagedir : k'.pagedir t = k.pagedir t)
    (hmem : k'.mem = k.mem) (hswap : k'.swap = k.swap) (hhist : k'.hist = k.hist)
    (hfile : x.type ≠ .swap → filePage k' x = filePage k x) : Content k' t x := by
  have hpte : ∀ va, k'.pteOf t va = k.pteOf t va := by
    intro va
    unfold Kernel.pteOf
    rw [hpagedir]
  refine hx.congr (fun hty => ⟨fun _ b _ => by rw [hfile hty], ?_⟩) (by rw [hpte])
    (fun _ _ => by rw [hmem]) (.of_eq hhist) fun _ _ s hs => ⟨s, hswap ▸ hs, rfl⟩
  rintro ⟨_, hd, hd'⟩
  unfold pagedirIsDirty at hd hd'
  rw [hpte, hd] at hd'
  cases hd'

theorem Faithful.step (h : Settled k) (hi : (slots k).Exclusive) (hf : Faithful k)
    (hs : Step k a k') : Faithful k' := by
  have heff := step_effect h.sound h.noneExiting hs
  cases heff with
  | changes ha hc => exact hf.changes h.sound hi hc
  | @killed _ k₁ ha ht hc =>
      have hf₁ := hf.changes h.sound hi hc
      intro u q x hu hx hty
      have hx' : Entry k₁ u q x := ⟨hx.mem, hx.at_ptr⟩
      -- a process that has been killed keeps its pages until `process_exit`
      have hu' : k₁.Live u := by
        by_cases hua : u = a.process
        · left
          rw [hc.status, hua]
          exact ht
        · have hl := (live_setStatus_iff (.inl rfl)).mp hu
          rwa [if_neg hua] at hl
      exact (hf₁ u q x hu' hx' hty).of_fields rfl rfl rfl rfl fun _ => rfl
  | store hst =>
      rcases store_fields hst with ⟨_, hstatus, hspt, hsptes⟩
      intro u q x hu hx hty
      have hx' : Entry k u q x := ⟨hspt ▸ hx.mem, hsptes ▸ hx.at_ptr⟩
      have hu' : k.Live u := by
        unfold Kernel.Live at hu ⊢
        rwa [hstatus] at hu
      exact (hf u q x hu' hx' hty).store h.sound hst hx'
  | @write t fd data size ofs f o hget ho =>
      rcases (write_fields : (inodeWriteAt k o.inode data size ofs).swap = _ ∧ _) with
        ⟨hswap, hstatus, hspt, hsptes⟩
      rcases (write_pages : (inodeWriteAt k o.inode data size ofs).pagedir = _ ∧ _) with
        ⟨hpagedir, hmem, hhist⟩
      intro u q x hu hx hty
      have hx' : Entry k u q x := ⟨hspt ▸ hx.mem, hsptes ▸ hx.at_ptr⟩
      have hu' : k.Live u := by
        unfold Kernel.Live at hu ⊢
        rwa [hstatus] at hu
      refine (hf u q x hu' hx' hty).of_fields (by rw [hpagedir]) hmem hswap hhist ?_
      intro hne
      -- the pages that can be written to are not those of an executable, which is denied
      exact h.sound.filePage_executable hu' hx' (h.sound.tables.type_file hx' hty hne)
        (fun g _ => by rw [write_files]) fun j hd => inodes_denied hd
  | @start t exe _ _ file _ ht hfile hc =>
      refine Faithful.changes (h.sound.start ht hfile) (slots_exclusive_start h.sound hi ht) ?_ hc
      intro u q x hu hx hty
      have hx' : Entry k u q x := ⟨hx.mem, hx.at_ptr⟩
      have hut : u ≠ t := by
        rintro rfl
        have hq := hx'.mem
        -- a process that starts has no pages yet
        rw [(h.sound.bare ht).1] at hq
        cases hq
      have hu' : k.Live u := by
        unfold Kernel.Live at hu ⊢
        rwa [show (startProcess k t file exe).status u = k.status u from
          Function.update_of_ne hut ..] at hu
      refine (hf u q x hu' hx' hty).of_fields rfl rfl rfl rfl ?_
      intro hne
      refine h.sound.filePage_executable hu' hx' (h.sound.tables.type_file hx' hty hne)
        (fun g hexe => ?_) fun _ _ => rfl
      apply AList.lookup_insert_ne
      rintro rfl
      exact hfile (h.sound.handles.opened g (.executable u) ⟨hu', hexe⟩)
  | @leave t k₁ ht hc hspt hmmap hfiles =>
      have h₀ := h.sound.setStatus (.inr ht) (s := .exiting) (by decide)
      -- what the process that leaves has does not count
      have hf₀ : Faithful (k.setStatus t .exiting) := by
        intro u q x hu hx hty
        have hl := (live_setStatus_iff (.inr (.inl rfl))).mp hu
        have hut : u ≠ t := by
          intro heq
          rw [if_pos heq] at hl
          cases hl
        rw [if_neg hut] at hl
        exact (hf u q x hl ⟨hx.mem, hx.at_ptr⟩ hty).of_fields rfl rfl rfl rfl fun _ => rfl
      have hf₁ := hf₀.changes h₀ (slots_exclusive_setStatus hi (.inl rfl)) hc
      intro u q x hu hx hty
      have hl := (live_setStatus_iff (k := pagedirDestroy k₁ t) (.inr (.inr rfl))).mp hu
      have hut : u ≠ t := by
        intro heq
        rw [if_pos heq] at hl
        cases hl
      rw [if_neg hut] at hl
      refine (hf₁ u q x hl ⟨hx.mem, hx.at_ptr⟩ hty).of_fields ?_ rfl rfl rfl fun _ => rfl
      exact Function.update_of_ne hut ..

theorem faithful_of_reachable (h : Reachable m k) : Faithful k := by
  have hgen : Settled k ∧ (slots k).Exclusive ∧ Faithful k := by
    refine h.invariant (P := fun x => Settled x ∧ (slots x).Exclusive ∧ Faithful x)
      (fun _ _ _ hs hx => ?_) ⟨settled_boot m, slots_exclusive_of_reachable (.refl m.boot), ?_⟩
    · exact ⟨hx.1.step hs, slots_exclusive_step hx.1 hx.2.1 hs, hx.2.2.step hx.1 hx.2.1 hs⟩
    · intro t p e _ he
      cases he.mem
  exact hgen.2.2

/-- In every reachable state the frame of a resident page of an executable or of
the stack holds what its process stored there last, on top of what the page
started with; a page of an executable started with its part of the file and
zeros. -/
theorem pages_keep_contents (h : Reachable m k) (he : Entry k t p e)
    (hty : e.type = .file ∨ e.type = .swap) (hpte : k.pteOf t e.unusedVirtualAddress = some pte) :
    (∀ b, k.mem pte.frame b = (lastStored k.hist t e.unusedVirtualAddress b).getD
      (initialPage k.hist t e.unusedVirtualAddress b)) ∧
    (e.type = .file → initialPage k.hist t e.unusedVirtualAddress = filePage k e) := by
  have hmmap : e.type ≠ .mmap := by
    rcases hty with hty | hty <;> rw [hty] <;> decide
  have hcont := faithful_of_reachable h t p e ((settled_of_reachable h).live he) he hmmap
  refine ⟨fun b => hcont.resident pte hpte b ?_, hcont.initial⟩
  unfold Spte.extent
  rw [if_neg hmmap]
  exact b.isLt

/-- At the end of `swapRun` the page that went to the swap block and back has the
byte that was stored there. -/
theorem pages_keep_contents_run : ∃ k e pte, Reachable twoFrames k ∧ Entry k 1 100 e ∧
    e.type = .swap ∧ k.pteOf 1 e.unusedVirtualAddress = some pte ∧
    lastStored k.hist 1 e.unusedVirtualAddress 2 = some 42 ∧
    ∀ b, k.mem pte.frame b = (lastStored k.hist 1 e.unusedVirtualAddress b).getD
      (initialPage k.hist 1 e.unusedVirtualAddress b) := by
  have hrun : (runActs twoFrames.boot swapRun).toOption.map (fun k =>
      (decide (100 ∈ k.spt 1), (k.sptes 100).map fun e =>
        (e.type, (k.pteOf 1 e.unusedVirtualAddress).isSome,
          lastStored k.hist 1 e.unusedVirtualAddress 2))) =
      some (true, some (.swap, true, some 42)) := by decide +kernel
  rcases Option.map_eq_some_iff.mp hrun with ⟨k, hk, hstate⟩
  rcases Prod.mk.inj hstate with ⟨hmem, hentry⟩
  rcases Option.map_eq_some_iff.mp hentry with ⟨e, hat, hfields⟩
  rw [Prod.mk.injEq, Prod.mk.injEq] at hfields
  rcases hfields with ⟨hty, hsome, hbyte⟩
  rcases Option.isSome_iff_exists.mp hsome with ⟨pte, hpte⟩
  have hreach : Reachable twoFrames k := ⟨swapRun, run_of_runActs (Lts.eq_ok_of_toOption hk)⟩
  have he : Entry k 1 100 e := ⟨of_decide_eq_true hmem, hat⟩
  exact ⟨k, e, pte, hreach, he, hty, hpte, hbyte,
    (pages_keep_contents hreach he (.inr hty) hpte).1⟩

end Pintos.Vm
