import Pintos.Vm.Contents

/-! # Pages of mappings

What a change does to the pages of a mapping and to its file. A page keeps its
place in the mapping and comes and goes only with the mapping; the file changes
only when `evict_frame` or `process_remove_mmap` writes a dirty page back.
`Mapped` says what this comes to for one mapping: its pages, wherever they are,
make up what the file has to be in the end.
-/

namespace Pintos.Vm

open Ownership

variable {k k' : Kernel} {t u : Tid} {p q : Ptr} {e e' x : Spte} {fte : FrameTblEnt}
  {f : FilePtr} {i : Inode} {va : Vaddr} {pte : Pte} {page : Page} {R : Scope}

/-! ## Entries of mappings -/

/-- The entry `x` at `q` was `e` before: it still belongs to the same mapping, and
its page has not become dirty. -/
structure KeptPage (k k' : Kernel) (t : Tid) (q : Ptr) (e x : Spte) : Prop where
  entry : Entry k t q e
  reshaped : e.Reshaped x
  listed : ∀ j, { spte := q, mapid := j } ∈ k'.mmapList t ↔ { spte := q, mapid := j } ∈ k.mmapList t
  dirty : pagedirIsDirty k' t x.unusedVirtualAddress = true →
    pagedirIsDirty k t x.unusedVirtualAddress = true

theorem pagedirIsDirty_of_pteOf (h : k'.pteOf t va = k.pteOf t va)
    (hd : pagedirIsDirty k' t va = true) : pagedirIsDirty k t va = true := by
  unfold pagedirIsDirty at hd ⊢
  rwa [h] at hd

theorem not_dirty_of_none (h : k.pteOf t va = none) : pagedirIsDirty k t va = false := by
  unfold pagedirIsDirty
  rw [h]
  rfl

/-- Entries, lists of mappings and page directories are the same. -/
theorem KeptPage.same (hx : Entry k' t q x) (hspt : k'.spt = k.spt) (hsptes : k'.sptes = k.sptes)
    (hmmap : k'.mmapList = k.mmapList) (hpagedir : k'.pagedir = k.pagedir) :
    KeptPage k k' t q x x where
  entry := ⟨hspt ▸ hx.mem, hsptes ▸ hx.at_ptr⟩
  reshaped := .refl x
  listed := fun j => by rw [hmmap]
  dirty := pagedirIsDirty_of_pteOf (by unfold Kernel.pteOf; rw [hpagedir])

/-- A page loses its frame, this one or another one. -/
theorem KeptPage.unmap (he : k.sptes fte.spte = some e) (hre : e.Reshaped e')
    (hmmap : k'.mmapList = k.mmapList) (hspt : k'.spt = k.spt)
    (hsptes : k'.sptes = Function.update k.sptes fte.spte (some e'))
    (hpte : ∀ va, k'.pteOf t va = none ∨ k'.pteOf t va = k.pteOf t va) (hx : Entry k' t q x) :
    ∃ y, KeptPage k k' t q y x := by
  have hlisted : ∀ j, { spte := q, mapid := j } ∈ k'.mmapList t ↔
      { spte := q, mapid := j } ∈ k.mmapList t := fun j => by rw [hmmap]
  have hdirty : pagedirIsDirty k' t x.unusedVirtualAddress = true →
      pagedirIsDirty k t x.unusedVirtualAddress = true := by
    rcases hpte x.unusedVirtualAddress with hnone | hsame
    · intro hd
      rw [not_dirty_of_none hnone] at hd
      cases hd
    · exact pagedirIsDirty_of_pteOf hsame
  rcases entry_update hx hspt hsptes with ⟨rfl, hmem, heq⟩ | ⟨_, hx'⟩
  · cases heq
    exact ⟨e, ⟨hmem, he⟩, hre, hlisted, hdirty⟩
  · exact ⟨x, hx', .refl x, hlisted, hdirty⟩

/-- A page gets a frame, this one or another one. -/
theorem KeptPage.map {used : Bool} {frame : Frame} (h : Sound k) (he : Entry k u p e)
    (hused : used = true → e.type ≠ .mmap) (hmmap : k'.mmapList = k.mmapList)
    (hspt : k'.spt = k.spt) (hsptes : k'.sptes = Function.update k.sptes p (some { e with isLoaded := true }))
    (hpte : ∀ v va, k'.pteOf v va = if v = u ∧ va = e.unusedVirtualAddress then
      some { frame := frame, writable := e.writable, accessed := used, dirty := used }
      else k.pteOf v va) (hx : Entry k' t q x) (hty : x.type = .mmap) :
    ∃ y, KeptPage k k' t q y x := by
  have hlisted : ∀ j, { spte := q, mapid := j } ∈ k'.mmapList t ↔
      { spte := q, mapid := j } ∈ k.mmapList t := fun j => by rw [hmmap]
  rcases entry_update hx hspt hsptes with ⟨rfl, hmem, heq⟩ | ⟨hne, hx'⟩
  · cases heq
    have ht : u = t := h.tables.apart _ _ _ he.mem hmem
    subst ht
    refine ⟨e, he, ⟨rfl, rfl, rfl, rfl, rfl, .inl rfl, ?_⟩, hlisted, ?_⟩
    · intro herr
      have hty' : e.type = .mmap := hty
      rw [hty'] at herr
      cases herr
    · intro hd
      unfold pagedirIsDirty at hd
      rw [hpte, if_pos ⟨rfl, rfl⟩] at hd
      exact absurd hty (hused hd)
  · refine ⟨x, hx', .refl x, hlisted, pagedirIsDirty_of_pteOf ?_⟩
    rw [hpte, if_neg (h.tables.address_ne hx' he hne)]

/-- An entry of a mapping was there before, or it has just been added to the
newest mapping of its process. -/
theorem Change.mmap_entry (h : Sound k) (hc : Change R k k') (hx : Entry k' t q x)
    (hty : x.type = .mmap) : (∃ e, KeptPage k k' t q e x) ∨
    pagedirIsDirty k' t x.unusedVirtualAddress = false ∧ R.adds t (k.mapid t) ∧
      (∀ j, { spte := q, mapid := j } ∈ k'.mmapList t → j = k.mapid t) ∧
      ∀ r, Holds k x.file r → r = .mapping t (k.mapid t) := by
  -- the list of mappings gets an element for an entry that was in no table
  have hlist : ∀ {u : Tid} {p : Ptr}, Unused k p → q ∈ k.spt t → ∀ j,
      { spte := q, mapid := j } ∈ (listMapping k u p).mmapList t ↔
        { spte := q, mapid := j } ∈ k.mmapList t := by
    intro u p hp hq j
    rw [mem_listMapping]
    apply or_iff_left
    rintro ⟨rfl, heq⟩
    cases heq
    exact hp.spt t hq
  cases hc with
  | @access u va pte accessed hpte =>
      refine .inl ⟨x, ⟨hx.mem, hx.at_ptr⟩, .refl x, fun _ => Iff.rfl, fun hd => ?_⟩
      unfold pagedirIsDirty at hd ⊢
      rw [pteOf_setPte] at hd
      split at hd
      next heq =>
        rw [heq.1, heq.2, hpte]
        exact hd
      next => exact hd
  | @pin p e pinned he =>
      left
      rcases entry_update (k := k) (p := p) hx rfl rfl with ⟨rfl, hmem, heq⟩ | ⟨_, hx'⟩
      · cases heq
        exact ⟨e, ⟨hmem, he⟩, ⟨rfl, rfl, rfl, rfl, rfl, .inl rfl, fun _ => rfl⟩, fun _ => Iff.rfl, id⟩
      · exact ⟨x, hx', .refl x, fun _ => Iff.rfl, id⟩
  | @cell p o hp =>
      left
      rcases entry_update (k := k) (p := p) hx rfl rfl with ⟨rfl, hmem, _⟩ | ⟨_, hx'⟩
      · exact absurd hmem (hp.spt t)
      · exact ⟨x, hx', .refl x, fun _ => Iff.rfl, id⟩
  | free hl hm => exact .inl ⟨x, .same hx rfl rfl rfl rfl⟩
  | @evict fte e e' k₁ hfte he _ hs =>
      have hsaved := saved_of_savePage hs
      have hre := (hsaved.spte (h.type_ne_of_fte hfte he)).1
      rcases hsaved.frame with ⟨swap, inodes, rfl⟩
      refine .inl (KeptPage.unmap he hre rfl rfl rfl (fun va => ?_) hx)
      rw [pteOf_unmapPage]
      split
      next => exact .inl rfl
      next => exact .inr rfl
  | @discard fte e hfte he hst hm =>
      have hty' := h.type_ne_of_fte hfte he
      have hre : e.Reshaped { e with isLoaded := false } :=
        ⟨rfl, rfl, rfl, rfl, rfl, .inl rfl, fun herr => absurd herr hty'⟩
      refine .inl (KeptPage.unmap he hre rfl rfl rfl (fun va => ?_) hx)
      rw [pteOf_unmapPage]
      split
      next => exact .inl rfl
      next => exact .inr rfl
  | @readIn u p e frame he hl hte hf hpte =>
      exact .inl (KeptPage.map h he (fun hu => by cases hu)
        rfl rfl rfl (fun _ _ => pteOf_mapPage) hx hty)
  | @swapIn u p e frame s he hl hte hf hpte ht hs hidx =>
      exact .inl (KeptPage.map h he
        (fun _ => by rw [hte]; decide) rfl rfl rfl (fun _ _ => pteOf_mapPage) hx hty)
  | @swapInNothing u p e frame page he hl hte hf hpte ht hs =>
      exact .inl (KeptPage.map h he (fun hu => by cases hu)
        rfl rfl rfl (fun _ _ => pteOf_mapPage) hx hty)
  | @growStack u p e frame page hp he hl hte hf hpte hnew ht =>
      rcases (entry_growStack hp).mp hx with hx' | ⟨rfl, rfl, rfl⟩
      · refine .inl ⟨x, hx', .refl x, fun _ => Iff.rfl, pagedirIsDirty_of_pteOf ?_⟩
        rw [pteOf_insertEntry, pteOf_mapPage, if_neg]
        rintro ⟨rfl, heq⟩
        exact Tables.not_entry_of_hashFind hnew hx' heq
      · have hty' : e.type = .mmap := hty
        rw [hte] at hty'
        cases hty'
  | addFile hp he hl hte hnew ht =>
      rcases (entry_insertEntry he).mp hx with hx' | ⟨-, -, rfl⟩
      · exact .inl ⟨x, hx', .refl x, fun _ => Iff.rfl, id⟩
      · rw [hte] at hty
        cases hty
  | @addMmap u p e hp he hl hte hnew ht hopen hrole hid hsize hR =>
      rcases (entry_addMmap he).mp hx with hx' | ⟨rfl, rfl, rfl⟩
      · exact .inl ⟨x, hx', .refl x, hlist hp hx'.mem, id⟩
      · refine .inr ⟨not_dirty_of_none (k := insertEntry (listMapping k t q) t q
          x.unusedVirtualAddress (filePage k x)) (h.tables.pteOf_new hnew), hR, ?_, hrole⟩
        intro j hj
        rcases mem_listMapping.mp hj with hold | ⟨_, heq⟩
        · exact absurd rfl (hp.mmap t _ hold)
        · exact congrArg MmapFile.mapid heq
  | addHashError hp he hl hte ht =>
      exact .inl ⟨x, ⟨hx.mem, hx.at_ptr⟩, .refl x, hlist hp hx.mem, id⟩
  | @removeMapping u mm e hmm he hl =>
      have hr := h.removes_forgetMapping hmm he
      rcases hr.entry hx with ⟨hx', hne⟩
      refine .inl ⟨x, hx', .refl x, fun j => (hr.mmapList t _).trans (and_iff_left hne),
        pagedirIsDirty_of_pteOf ?_⟩
      rw [hr.rest]
      rfl
  | @destroy u p rest e hst hspt he hl hm =>
      have hx' := ((h.removes_destroy hspt hm).entry hx).1
      exact .inl ⟨x, hx', .refl x, fun _ => Iff.rfl, id⟩
  | openFile i hf => exact .inl ⟨x, .same hx rfl rfl rfl rfl⟩
  | closeFile hf => exact .inl ⟨x, .same hx rfl rfl rfl rfl⟩
  | addDescriptor ht hopen hf => exact .inl ⟨x, .same hx rfl rfl rfl rfl⟩
  | removeDescriptor hpf => exact .inl ⟨x, .same hx rfl rfl rfl rfl⟩
  | newMapid u => exact .inl ⟨x, .same hx rfl rfl rfl rfl⟩

/-- One entry of the heap changes its looks. -/
theorem entry_reshaped {y y' : Spte} (he : Entry k t p e) (hspt : k'.spt = k.spt)
    (hsptes : k'.sptes = Function.update k.sptes q (some y')) (hy : k.sptes q = some y)
    (hre : y.Reshaped y') : ∃ e', Entry k' t p e' ∧ e.Reshaped e' := by
  have hmem : p ∈ k'.spt t := hspt ▸ he.mem
  by_cases hp : p = q
  · subst hp
    have hye : y = e := Option.some.inj (hy.symm.trans he.at_ptr)
    subst hye
    exact ⟨y', ⟨hmem, by rw [hsptes, Function.update_self]⟩, hre⟩
  · exact ⟨e, ⟨hmem, by rw [hsptes, Function.update_of_ne hp]; exact he.at_ptr⟩, .refl e⟩

/-- An entry of a mapping stays, or its page is not resident and it is removed
with its mapping. -/
theorem Change.keeps_entry (h : Sound k) (hc : Change R k k') (he : Entry k t p e)
    (hty : e.type = .mmap) : (∃ e', Entry k' t p e' ∧ e.Reshaped e') ∨
    e.isLoaded = false ∧ k'.inodes = k.inodes ∧
      ∃ j, { spte := p, mapid := j } ∈ k.mmapList t ∧ R.removes t j := by
  have hsame : ∀ {x : Kernel}, x.spt t = k.spt t → x.sptes = k.sptes →
      ∃ e', Entry x t p e' ∧ e.Reshaped e' := fun hspt hsptes =>
    ⟨e, ⟨hspt ▸ he.mem, hsptes ▸ he.at_ptr⟩, .refl e⟩
  have hload : ∀ {y : Spte}, y.type ≠ .hashError → y.Reshaped { y with isLoaded := true } :=
    fun hne => ⟨rfl, rfl, rfl, rfl, rfl, .inl rfl, fun herr => absurd herr hne⟩
  cases hc with
  | access accessed hpte => exact .inl (hsame rfl rfl)
  | @pin q y pinned hy =>
      exact .inl (entry_reshaped he rfl rfl hy ⟨rfl, rfl, rfl, rfl, rfl, .inl rfl, fun _ => rfl⟩)
  | @cell q o hq =>
      have hne : p ≠ q := hq.ne he.mem
      exact .inl ⟨e, ⟨he.mem, (Function.update_of_ne hne ..).trans he.at_ptr⟩, .refl e⟩
  | free hl hm => exact .inl (hsame rfl rfl)
  | @evict fte y y' k₁ hfte hy _ hs =>
      have hre := ((saved_of_savePage hs).spte (h.type_ne_of_fte hfte hy)).1
      rcases (saved_of_savePage hs).frame with ⟨swap, inodes, rfl⟩
      exact .inl (entry_reshaped he rfl rfl hy hre)
  | @discard fte y hfte hy hst hm =>
      have hne := h.type_ne_of_fte hfte hy
      exact .inl (entry_reshaped he rfl rfl hy
        ⟨rfl, rfl, rfl, rfl, rfl, .inl rfl, fun herr => absurd herr hne⟩)
  | @readIn u q y frame hy hl hte hf hpte =>
      exact .inl (entry_reshaped he rfl rfl hy.at_ptr
        (hload (by rcases hte with hte | hte <;> rw [hte] <;> decide)))
  | @swapIn u q y frame s hy hl hte hf hpte ht hs hidx =>
      exact .inl (entry_reshaped he rfl rfl hy.at_ptr (hload (by rw [hte]; decide)))
  | @swapInNothing u q y frame page hy hl hte hf hpte ht hs =>
      exact .inl (entry_reshaped he rfl rfl hy.at_ptr (hload (by rw [hte]; decide)))
  | @growStack u q y frame page hq hy hl hte hf hpte hnew ht =>
      have hne : p ≠ q := hq.ne he.mem
      exact .inl ⟨e, ⟨mem_insertEntry.mpr (.inl he.mem),
        (Function.update_of_ne hne ..).trans he.at_ptr⟩, .refl e⟩
  | addFile hq hy hl hte hnew ht =>
      exact .inl ⟨e, ⟨mem_insertEntry.mpr (.inl he.mem), he.at_ptr⟩, .refl e⟩
  | addMmap hq hy hl hte hnew ht =>
      exact .inl ⟨e, ⟨mem_insertEntry.mpr (.inl he.mem), he.at_ptr⟩, .refl e⟩
  | addHashError hq hy hl hte ht => exact .inl (hsame rfl rfl)
  | @removeMapping u mm y hmm hy hl hR =>
      have hr := h.removes_forgetMapping hmm hy
      by_cases hp : p = mm.spte
      · right
        subst hp
        have hye : y = e := Option.some.inj (hy.symm.trans he.at_ptr)
        subst hye
        -- the mapping is one of the process the entry belongs to
        rcases h.mappings.covered t _ y he hty with ⟨mm', hmm', heq⟩
        have ht : t = u := h.mappings.apart t u mm' hmm' mm hmm heq
        subst ht
        rcases forgetMapping_eq k t mm y with ⟨spt, hk', _⟩
        exact ⟨hl, by rw [hk'], mm.mapid, hmm, hR⟩
      · exact .inl ⟨e, ⟨(hr.spt t p).mpr ⟨he.mem, hp⟩, (hr.sptes p hp).trans he.at_ptr⟩, .refl e⟩
  | @destroy u q rest y hst hspt hy hl hm =>
      have hr := h.removes_destroy hspt hm
      have hp : p ≠ q := by
        rintro rfl
        have ht : t = u := h.tables.apart t u p he.mem (by rw [hspt]; exact List.mem_cons_self)
        rcases h.mappings.covered t p e he hty with ⟨mm, hmm, _⟩
        rw [ht, hm] at hmm
        cases hmm
      exact .inl ⟨e, ⟨(hr.spt t p).mpr ⟨he.mem, hp⟩, (hr.sptes p hp).trans he.at_ptr⟩, .refl e⟩
  | openFile i hf => exact .inl (hsame rfl rfl)
  | closeFile hf => exact .inl (hsame rfl rfl)
  | addDescriptor ht hopen hf => exact .inl (hsame rfl rfl)
  | removeDescriptor hpf => exact .inl (hsame rfl rfl)
  | newMapid u => exact .inl (hsame rfl rfl)

/-- The history of a page does not change while its entry is there. -/
theorem Change.samePage (hc : Change R k k') (he : Entry k t p e) :
    SamePage k.hist k'.hist t e.unusedVirtualAddress := by
  have hother : ∀ {u : Tid} {va : Vaddr}, hashFind k u va = none →
      ¬ (t = u ∧ e.unusedVirtualAddress = va) := by
    rintro u va hnew ⟨rfl, heq⟩
    exact Tables.not_entry_of_hashFind hnew he heq
  cases hc with
  | evict hfte hy _ hs =>
      rcases (saved_of_savePage hs).frame with ⟨swap, inodes, rfl⟩
      exact .of_eq rfl
  | growStack page hq hy hl hte hf hpte hnew ht => exact .map (hother hnew)
  | addFile hq hy hl hte hnew ht => exact .map (hother hnew)
  | addMmap hq hy hl hte hnew ht => exact .map (hother hnew)
  | @removeMapping u mm y hmm hy hl hR =>
      rcases forgetMapping_eq k u mm y with ⟨spt, hk', _⟩
      exact .of_eq (by rw [hk'])
  | _ => exact .of_eq rfl

theorem writesDenied_iff : WritesDenied k i ↔
    ∃ f o, k.files.lookup f = some o ∧ o.inode = i ∧ o.denyWrite = true := by
  constructor
  · rintro ⟨⟨f, o⟩, hmem, hino, hdeny⟩
    exact ⟨f, o, AList.mem_lookup_iff.mpr hmem, hino, hdeny⟩
  · rintro ⟨f, o, ho, hino, hdeny⟩
    exact ⟨⟨f, o⟩, AList.mem_lookup_iff.mp ho, hino, hdeny⟩

/-- The handles that are left deny what they denied before. -/
theorem writesDenied_of_lookup (hd : WritesDenied k' i)
    (h : ∀ f o, k'.files.lookup f = some o → o.denyWrite = true → k.files.lookup f = some o) :
    WritesDenied k i := by
  rcases writesDenied_iff.mp hd with ⟨f, o, ho, hino, hdeny⟩
  exact writesDenied_iff.mpr ⟨f, o, h f o ho hdeny, hino, hdeny⟩

theorem lookup_of_erase {files : AList fun _ : FilePtr => OpenFile} {g : FilePtr} {o : OpenFile}
    (h : (files.erase g).lookup f = some o) : files.lookup f = some o := by
  by_cases hf : f = g
  · subst hf
    rw [AList.lookup_erase] at h
    cases h
  · rwa [AList.lookup_erase_ne hf] at h

/-- No change denies writes to a file. -/
theorem Change.denied (hc : Change R k k') (hd : WritesDenied k' i) : WritesDenied k i := by
  refine writesDenied_of_lookup hd ?_
  intro f o ho hdeny
  cases hc with
  | evict hfte hy _ hs =>
      rcases (saved_of_savePage hs).frame with ⟨swap, inodes, rfl⟩
      exact ho
  | @removeMapping u mm y hmm hy hl hR =>
      rcases forgetMapping_eq k u mm y with ⟨spt, hk', _⟩
      rwa [hk'] at ho
  | @openFile g j hg =>
      by_cases hf : f = g
      · subst hf
        rw [AList.lookup_insert] at ho
        cases ho
        cases hdeny
      · rwa [AList.lookup_insert_ne hf] at ho
  | closeFile hf => exact lookup_of_erase ho
  | removeDescriptor hpf => exact lookup_of_erase ho
  | _ => exact ho

/-! ## Writing back -/

/-- The file changes only when a dirty page of a mapping is written back. -/
structure WritesBack (k k' : Kernel) (fte : FrameTblEnt) (e : Spte) (pte : Pte) (o : OpenFile) :
    Prop where
  entry : Entry k fte.thread fte.spte e
  type : e.type = .mmap
  present : k.pteOf fte.thread e.unusedVirtualAddress = some pte
  dirty : pagedirIsDirty k fte.thread e.unusedVirtualAddress = true
  lookup : k.files.lookup e.file = some o
  inodes : k'.inodes =
    (inodeWriteAt k o.inode (pageByte (k.mem pte.frame)) e.readBytes.toNat e.offset.toNat).inodes
  only : ∀ t p x, Entry k t p x → (WrittenBack k k' t x ↔ p = fte.spte)

/-- A page that is dirty stays so when another one gets a frame. -/
theorem dirty_mapPage {k₁ : Kernel} {va : Vaddr} {frame : Frame} {page : Page} {used : Bool}
    (hpagedir : k₁.pagedir = k.pagedir) (hnone : k.pteOf u e.unusedVirtualAddress = none)
    (hd : pagedirIsDirty k t va = true) :
    pagedirIsDirty (mapPage k₁ u q e frame page used) t va = true := by
  have hne : ¬ (t = u ∧ va = e.unusedVirtualAddress) := by
    rintro ⟨rfl, rfl⟩
    rw [not_dirty_of_none hnone] at hd
    cases hd
  unfold pagedirIsDirty Kernel.pteOf at hd
  unfold pagedirIsDirty
  rw [pteOf_mapPage, if_neg hne]
  unfold Kernel.pteOf
  rwa [hpagedir]

/-- The pages of other entries stay as they are when one loses its frame. -/
theorem Sound.dirty_unmapPage {k₁ : Kernel} (h : Sound k) (he : Entry k fte.thread fte.spte e)
    (hpagedir : k₁.pagedir = k.pagedir)
    (haddr : e'.unusedVirtualAddress = e.unusedVirtualAddress) (hx : Entry k t p x)
    (hne : p ≠ fte.spte) : pagedirIsDirty (unmapPage k₁ fte e') t x.unusedVirtualAddress =
      pagedirIsDirty k t x.unusedVirtualAddress := by
  unfold pagedirIsDirty
  rw [pteOf_unmapPage, haddr, if_neg (h.tables.address_ne hx he hne)]
  unfold Kernel.pteOf
  rw [hpagedir]

theorem Change.file_cases (h : Sound k) (hc : Change R k k') :
    k'.inodes = k.inodes ∧ (∀ t p x, Entry k t p x → ¬ WrittenBack k k' t x) ∨
    ∃ fte e pte o, WritesBack k k' fte e pte o := by
  -- no page of a mapping stops being dirty
  have hstay : k'.inodes = k.inodes → (∀ t p x, Entry k t p x → x.type = .mmap →
      pagedirIsDirty k t x.unusedVirtualAddress = true →
      pagedirIsDirty k' t x.unusedVirtualAddress = true) →
      k'.inodes = k.inodes ∧ (∀ t p x, Entry k t p x → ¬ WrittenBack k k' t x) ∨
      ∃ fte e pte o, WritesBack k k' fte e pte o := by
    refine fun hinodes hdirty => .inl ⟨hinodes, ?_⟩
    rintro t p x hx ⟨hty, hd, hd'⟩
    rw [hdirty t p x hx hty hd] at hd'
    cases hd'
  cases hc with
  | @access u va pte accessed hpte =>
      refine hstay rfl ?_
      intro t p x hx _ hd
      unfold pagedirIsDirty at hd ⊢
      rw [pteOf_setPte]
      split
      next heq =>
        rw [heq.1, heq.2, hpte] at hd
        exact hd
      next => exact hd
  | @evict fte e e' k₁ hfte he _ hs =>
      rcases h.tables.resident_at hfte he with ⟨hy, _, pte, hpte, hframe⟩
      have hself : ∀ {t x}, Entry k t fte.spte x → t = fte.thread ∧ x = e := fun hx =>
        ⟨h.tables.apart _ _ _ hx.mem hy.mem, hx.eq_of_at hy.at_ptr⟩
      cases saved_of_savePage hs with
      | clean hd hty =>
          refine hstay rfl ?_
          intro t p x hx hmmap hdx
          by_cases hp : p = fte.spte
          · subst hp
            rcases hself hx with ⟨rfl, rfl⟩
            rw [hd] at hdx
            cases hdx
          · exact (h.dirty_unmapPage hy rfl rfl hx hp).trans hdx
      | @swapped s index hd hty hs' hfree =>
          refine hstay rfl ?_
          intro t p x hx hmmap hdx
          by_cases hp : p = fte.spte
          · subst hp
            rcases hself hx with ⟨rfl, rfl⟩
            exact absurd hmmap hty
          · exact (h.dirty_unmapPage hy rfl rfl hx hp).trans hdx
      | @written o hd hty ho =>
          refine .inr ⟨fte, e, pte, o, hy, hty, hpte, hd, ho, by rw [hframe]; rfl, ?_⟩
          intro t p x hx
          constructor
          · rintro ⟨_, hdx, hdx'⟩
            by_contra hp
            have hsame := (h.dirty_unmapPage hy write_pages.1 rfl hx hp).symm.trans hdx'
            rw [hdx] at hsame
            cases hsame
          · rintro rfl
            rcases hself hx with ⟨rfl, rfl⟩
            exact ⟨hty, hd, pagedirIsDirty_unmapPage⟩
  | @discard fte e hfte he hst hm =>
      have hy := (h.tables.resident_at hfte he).1
      refine hstay rfl ?_
      intro t p x hx hmmap hd
      by_cases hp : p = fte.spte
      · -- the process has no mappings left
        subst hp
        have ht : t = fte.thread := h.tables.apart _ _ _ hx.mem hy.mem
        rcases h.mappings.covered t _ x hx hmmap with ⟨mm, hmm, _⟩
        rw [ht, hm] at hmm
        cases hmm
      · exact (h.dirty_unmapPage hy rfl rfl hx hp).trans hd
  | readIn hy hl hte hf hpte =>
      exact hstay rfl fun _ _ _ _ _ hd => dirty_mapPage rfl hpte hd
  | swapIn hy hl hte hf hpte ht hs hidx =>
      exact hstay rfl fun _ _ _ _ _ hd => dirty_mapPage rfl hpte hd
  | swapInNothing page hy hl hte hf hpte ht hs =>
      exact hstay rfl fun _ _ _ _ _ hd => dirty_mapPage rfl hpte hd
  | growStack page hq hy hl hte hf hpte hnew ht =>
      refine hstay rfl fun _ _ _ _ _ hd => ?_
      unfold pagedirIsDirty
      rw [pteOf_insertEntry]
      exact dirty_mapPage rfl hpte hd
  | @removeMapping u mm y hmm hy hl hR =>
      rcases forgetMapping_eq k u mm y with ⟨spt, hk', _⟩
      exact hstay (by rw [hk']) fun _ _ _ _ _ hd => by rw [hk']; exact hd
  | _ => exact hstay rfl fun _ _ _ _ _ hd => hd

/-! ## The bytes of a file -/

theorem bytesOf_inodeWriteAt {data : ℕ → UInt8} {size ofs : ℕ} (hno : ¬ WritesDenied k i) :
    (inodeWriteAt k i data size ofs).bytesOf i = overwrite (k.bytesOf i) ofs size data := by
  unfold inodeWriteAt Kernel.bytesOf
  rw [if_neg hno]
  dsimp only
  rw [Function.update_self]
  cases k.inodes i <;> rfl

theorem bytesOf_inodeWriteAt_of_ne {j : Inode} {data : ℕ → UInt8} {size ofs : ℕ} (hne : i ≠ j) :
    (inodeWriteAt k j data size ofs).bytesOf i = k.bytesOf i := by
  unfold inodeWriteAt Kernel.bytesOf
  split
  next => rfl
  next =>
    dsimp only
    rw [Function.update_of_ne hne]

theorem bytesOf_congr (h : k'.inodes = k.inodes) : k'.bytesOf i = k.bytesOf i := by
  unfold Kernel.bytesOf
  rw [h]

/-- Files do not grow. -/
theorem length_inodeWriteAt {j : Inode} {data : ℕ → UInt8} {size ofs : ℕ} :
    ((inodeWriteAt k j data size ofs).bytesOf i).length = (k.bytesOf i).length := by
  by_cases hi : i = j
  · subst hi
    by_cases hd : WritesDenied k i
    · unfold Kernel.bytesOf
      rw [inodes_denied hd]
    · rw [bytesOf_inodeWriteAt hd, length_overwrite]
  · rw [bytesOf_inodeWriteAt_of_ne hi]

theorem Change.length (h : Sound k) (hc : Change R k k') :
    (k'.bytesOf i).length = (k.bytesOf i).length := by
  rcases hc.file_cases h with ⟨hsame, _⟩ | ⟨fte, e, pte, o, hw⟩
  · rw [bytesOf_congr hsame]
  · rw [bytesOf_congr hw.inodes, length_inodeWriteAt]

theorem filePage_apply {o : OpenFile} {b : Fin pgSize} (ho : k.files.lookup e.file = some o)
    (hb : b.val < e.readBytes.toNat) :
    filePage k e b = (k.bytesOf o.inode).getD (e.offset.toNat + b.val) 0 := by
  unfold filePage
  rw [if_pos hb, ho]
  rfl

/-! ## One mapping -/

/-- A mapping of a whole file: its process and number, its handle on the file, and
where the file is mapped. -/
structure Region where
  process : Tid
  mapid : ℤ
  file : FilePtr
  inode : Inode
  addr : Vaddr
  length : ℕ
  aligned : addr % 4096 = 0
  length_pos : 0 < length
  length_lt : length < 2 ^ 31

/-- `e` is an entry for the `n`-th page of the mapping. -/
structure Region.PageAt (r : Region) (n : ℕ) (e : Spte) : Prop where
  inFile : pgSize * n < r.length
  type : e.type = .mmap
  address : e.unusedVirtualAddress = r.addr + UInt32.ofNat (pgSize * n)
  file : e.file = r.file
  offset : e.offset.toNat = pgSize * n
  readBytes : e.readBytes.toNat = min pgSize (r.length - pgSize * n)

theorem Spte.Reshaped.mmap (h : e.Reshaped x) : e.type = .mmap ↔ x.type = .mmap := by
  rcases h.type with heq | ⟨hne, _, hswap⟩
  · rw [heq]
  · rw [hswap]
    constructor
    · exact fun hty => absurd hty hne
    · exact fun hty => by cases hty

theorem Region.PageAt.reshaped {r : Region} {n : ℕ} (h : r.PageAt n e) (hre : e.Reshaped x) :
    r.PageAt n x where
  inFile := h.inFile
  type := hre.mmap.mp h.type
  address := hre.address.trans h.address
  file := hre.file.trans h.file
  offset := by rw [hre.offset]; exact h.offset
  readBytes := by rw [hre.readBytes]; exact h.readBytes

/-- What holds of the `n`-th page of a mapping, if what should end up in the file
is `want`. -/
structure Region.MapsPage (r : Region) (want : ℕ → UInt8) (k : Kernel) (u : Tid) (p : Ptr) (e : Spte)
    (n : ℕ) : Prop where
  process : u = r.process
  listed : { spte := p, mapid := r.mapid } ∈ k.mmapList r.process
  lookup : ∃ o, k.files.lookup r.file = some o ∧ o.inode = r.inode
  pageAt : r.PageAt n e
  content : Content k r.process e
  wanted : ∀ b : Fin pgSize, b.val < e.readBytes.toNat →
    contents k.hist r.process e.unusedVirtualAddress b = want (pgSize * n + b.val)

/-- A mapping: nobody else writes to its file, and each of its pages holds its
part of what should end up in the file. -/
structure Region.Mapped (r : Region) (want : ℕ → UInt8) (k : Kernel) : Prop where
  length : (k.bytesOf r.inode).length = r.length
  undenied : ¬ WritesDenied k r.inode
  alone : ∀ u p e o, Entry k u p e → e.type = .mmap → k.files.lookup e.file = some o →
    o.inode = r.inode → pagedirIsDirty k u e.unusedVirtualAddress = true → e.file = r.file
  page : ∀ u p e, Entry k u p e → e.type = .mmap → e.file = r.file → ∃ n, r.MapsPage want k u p e n
  own : ∀ p e, Entry k r.process p e → e.type = .mmap →
    { spte := p, mapid := r.mapid } ∈ k.mmapList r.process → e.file = r.file

/-- The `n`-th page of the mapping has an entry. -/
def Region.Present (r : Region) (k : Kernel) (n : ℕ) : Prop :=
  ∃ p e, Entry k r.process p e ∧ r.PageAt n e

/-- Every page of the mapping has an entry; or, once pages are `gone`, its part of
the file is as it should be. -/
def Region.Covered (r : Region) (want : ℕ → UInt8) (gone : Prop) (k : Kernel) : Prop :=
  ∀ n, pgSize * n < r.length → r.Present k n ∨ gone ∧ ∀ j, pgSize * n ≤ j →
    j < pgSize * (n + 1) → j < r.length → (k.bytesOf r.inode).getD j 0 = want j

/-- A byte of the file is in one page. -/
theorem page_unique {n l j : ℕ} (h₁ : pgSize * n ≤ j) (h₂ : j < pgSize * (n + 1))
    (h₃ : pgSize * l ≤ j) (h₄ : j < pgSize * (l + 1)) : n = l := by
  rw [Nat.mul_add, Nat.mul_one] at h₂ h₄
  have hpg : pgSize = 4096 := rfl
  rw [hpg] at h₁ h₂ h₃ h₄
  omega

section Mapping

variable {r : Region} {want : ℕ → UInt8} {n : ℕ} {gone : Prop}

/-- The uses of the handle of an entry of a mapping. -/
theorem Sound.holds_mapping (h : Sound k) (he : Entry k t p e) (hty : e.type = .mmap) :
    ∃ j, { spte := p, mapid := j } ∈ k.mmapList t ∧ Holds k e.file (.mapping t j) := by
  rcases h.mappings.covered t p e he hty with ⟨mm, hmm, rfl⟩
  exact ⟨mm.mapid, hmm, mm, hmm, rfl, e, he.at_ptr, rfl⟩

theorem Change.lookup_mapping (h : Sound k) (hc : Change R k k') (he : Entry k t p e)
    (hty : e.type = .mmap) : k'.files.lookup e.file = k.files.lookup e.file := by
  rcases h.holds_mapping he hty with ⟨j, _, hholds⟩
  exact hc.lookup h hholds fun _ _ => by simp

/-- What is written back to the file of a mapping is one of its own pages. -/
theorem Region.Mapped.written (hm : r.Mapped want k) {o : OpenFile}
    (hw : WritesBack k k' fte e pte o) (ho : o.inode = r.inode) :
    ∃ n, r.MapsPage want k fte.thread fte.spte e n :=
  hm.page _ _ _ hw.entry hw.type (hm.alone _ _ _ o hw.entry hw.type hw.lookup ho hw.dirty)

/-- A byte of the file after a page of the mapping has been written back. -/
theorem Region.Mapped.byte_written (hm : r.Mapped want k) {o : OpenFile}
    (hw : WritesBack k k' fte e pte o) (ho : o.inode = r.inode) (hp : r.PageAt n e) {j : ℕ} :
    (k'.bytesOf r.inode).getD j 0 = if pgSize * n ≤ j ∧ j < pgSize * (n + 1) ∧ j < r.length then
      pageByte (k.mem pte.frame) (j - pgSize * n) else (k.bytesOf r.inode).getD j 0 := by
  rw [bytesOf_congr hw.inodes, ho, bytesOf_inodeWriteAt hm.undenied, getD_overwrite, hm.length,
    hp.offset, hp.readBytes]
  have hin := hp.inFile
  have hiff : (j < r.length ∧ pgSize * n ≤ j ∧
      j < pgSize * n + min pgSize (r.length - pgSize * n)) ↔
      pgSize * n ≤ j ∧ j < pgSize * (n + 1) ∧ j < r.length := by
    rw [Nat.mul_add, Nat.mul_one]
    omega
  simp only [hiff]

/-- Different entries are for different pages of the mapping. -/
theorem Region.PageAt.ne {l : ℕ} (h : Sound k) (he : Entry k t p e) (hx : Entry k t q x)
    (hn : r.PageAt n e) (hl : r.PageAt l x) (hne : p ≠ q) : n ≠ l := by
  rintro rfl
  exact h.tables.address_ne he hx hne ⟨rfl, hn.address.trans hl.address.symm⟩

/-- The file follows the pages of the mapping. -/
theorem Region.Mapped.follows (h : Sound k) (hm : r.Mapped want k) (hc : Change R k k')
    (he : Entry k u p e) (hty : e.type = .mmap) (hfile : e.file = r.file) :
    FileFollows k k' r.process e := by
  rcases hm.page u p e he hty hfile with ⟨n, hpage⟩
  rcases hpage.lookup with ⟨o, ho, hino⟩
  have hu := hpage.process
  subst hu
  rw [← hfile] at ho
  have ho' : k'.files.lookup e.file = some o := (hc.lookup_mapping h he hty).trans ho
  have hext : e.extent = e.readBytes.toNat := if_pos hty
  rcases hc.file_cases h with ⟨hsame, hno⟩ | ⟨fte, y, pte, o', hw⟩
  · refine ⟨fun _ b _ => ?_, fun hback => absurd hback (hno _ p e he)⟩
    rw [filePage_congr ho ho' (bytesOf_congr hsame)]
  by_cases hino' : o'.inode = r.inode
  · rcases hm.written hw hino' with ⟨l, hl⟩
    have hbyte := fun j => hm.byte_written hw hino' hl.pageAt (j := j)
    have hrange := hpage.pageAt.readBytes
    constructor
    · intro hback b hb
      rw [hext] at hb
      have hp : p ≠ fte.spte := fun heq => hback ((hw.only _ p e he).mpr heq)
      have hne := Region.PageAt.ne h he (hl.process ▸ hw.entry) hpage.pageAt hl.pageAt hp
      -- the other page covers another part of the file
      rw [filePage_apply ho' hb, filePage_apply ho hb, hino, hbyte, if_neg]
      rw [hpage.pageAt.offset]
      rintro ⟨hge, hlt, _⟩
      have hb' : b.val < pgSize := b.isLt
      refine hne (page_unique (Nat.le_add_right ..) ?_ hge hlt)
      rw [Nat.mul_add]
      omega
    · intro hback pte' hpte' b hb
      rw [hext] at hb
      have hp : p = fte.spte := (hw.only _ p e he).mp hback
      have hye : y = e := hw.entry.eq_of_at (hp ▸ he.at_ptr)
      subst hye
      have hpp : pte = pte' := by
        have hpres := hw.present
        rw [hl.process, hpte'] at hpres
        exact (Option.some.inj hpres).symm
      subst hpp
      have hln : l = n := by
        have h₁ := hl.pageAt.offset
        have h₂ := hpage.pageAt.offset
        rw [h₁] at h₂
        exact Nat.eq_of_mul_eq_mul_left (by decide) h₂
      subst hln
      rw [filePage_apply ho' hb, hino, hbyte, hl.pageAt.offset, if_pos, Nat.add_sub_cancel_left]
      · unfold pageByte
        rw [dif_pos b.isLt]
      · have hb' : b.val < pgSize := b.isLt
        refine ⟨Nat.le_add_right .., ?_, ?_⟩
        · rw [Nat.mul_add]
          omega
        · omega
  · -- another file is written to
    have hbytes : k'.bytesOf o.inode = k.bytesOf o.inode := by
      rw [bytesOf_congr hw.inodes]
      exact bytesOf_inodeWriteAt_of_ne fun heq => hino' (heq.symm.trans hino)
    refine ⟨fun _ b _ => by rw [filePage_congr ho ho' hbytes], fun hback => ?_⟩
    have hp : p = fte.spte := (hw.only _ p e he).mp hback
    have hye : y = e := hw.entry.eq_of_at (hp ▸ he.at_ptr)
    subst hye
    rw [Option.some.inj (hw.lookup.symm.trans ho)] at hino'
    exact absurd hino hino'

theorem Region.Mapped.change (h : Sound k) (hi : (slots k).Exclusive) (hm : r.Mapped want k)
    (hc : Change R k k') (hown : ¬ R.adds r.process r.mapid) (hadds : ∀ u, R.adds u (k.mapid u) →
      ∃ ro, Holds k r.file ro ∧ ro ≠ .mapping u (k.mapid u)) : r.Mapped want k' where
  length := (hc.length h).trans hm.length
  undenied := fun hd => hm.undenied (hc.denied hd)
  alone := by
    intro u p x o hx hty ho hino hd
    -- an entry that is dirty was dirty before, for a new one is clean
    rcases hc.mmap_entry h hx hty with ⟨e, hk⟩ | ⟨hclean, _⟩
    · rw [hk.reshaped.file] at ho ⊢
      have hte := hk.reshaped.mmap.mpr hty
      rw [hc.lookup_mapping h hk.entry hte] at ho
      exact hm.alone u p e o hk.entry hte ho hino (hk.reshaped.address ▸ hk.dirty hd)
    · rw [hd] at hclean
      cases hclean
  page := by
    intro u p x hx hty hfile
    rcases hc.mmap_entry h hx hty with ⟨e, hk⟩ | ⟨_, hR, _, hrole⟩
    · have hte := hk.reshaped.mmap.mpr hty
      have hfe : e.file = r.file := hk.reshaped.file.symm.trans hfile
      rcases hm.page u p e hk.entry hte hfe with ⟨n, hpage⟩
      have hu := hpage.process
      subst hu
      refine ⟨n, rfl, (hk.listed _).mpr hpage.listed, ?_, hpage.pageAt.reshaped hk.reshaped, ?_, ?_⟩
      · rcases hpage.lookup with ⟨o, ho, hino⟩
        have hlook := hc.lookup_mapping h hk.entry hte
        rw [hfe, ho] at hlook
        exact ⟨o, hlook, hino⟩
      · refine Content.change h hi hc (.inr hty) hx ?_
        intro y hy _
        have hye : y = e := hy.eq_of_at hk.entry.at_ptr
        subst hye
        exact ⟨hpage.content, fun _ => hm.follows h hc hy hte hfe⟩
      · intro b hb
        rw [hk.reshaped.address, (hc.samePage hk.entry).contents]
        rw [hk.reshaped.readBytes] at hb
        exact hpage.wanted b hb
    · -- a mapping added meanwhile has opened a file of its own
      rcases hadds u hR with ⟨ro, hholds, hne⟩
      exact absurd (hrole ro (hfile ▸ hholds)) hne
  own := by
    intro p x hx hty hlisted
    rcases hc.mmap_entry h hx hty with ⟨e, hk⟩ | ⟨_, hR, hnew, _⟩
    · rw [hk.reshaped.file]
      exact hm.own p e hk.entry (hk.reshaped.mmap.mpr hty) ((hk.listed _).mp hlisted)
    · -- and is not the mapping of the region
      rw [← hnew _ hlisted] at hR
      exact absurd hR hown

theorem Region.Covered.change (h : Sound k) (hm : r.Mapped want k) (hcov : r.Covered want gone k)
    (hc : Change R k k') (hgone : R.removes r.process r.mapid → gone) :
    r.Covered want gone k' := by
  intro n hn
  by_cases hpres : r.Present k n
  · rcases hpres with ⟨p, e, he, hp⟩
    rcases hc.keeps_entry h he hp.type with ⟨e', he', hre⟩ | ⟨hl, hinodes, j, hj, hR⟩
    · exact .inl ⟨p, e', he', hp.reshaped hre⟩
    · -- the page was clean, so the file has its bytes
      right
      rcases hm.page _ p e he hp.type hp.file with ⟨l, hpage⟩
      have hln : l = n := by
        have h₁ := hpage.pageAt.offset
        rw [hp.offset] at h₁
        exact Nat.eq_of_mul_eq_mul_left (by decide) h₁.symm
      subst hln
      have hid : j = r.mapid := by
        have heq := List.inj_on_of_nodup_map (h.mappings.nodup r.process) hj hpage.listed rfl
        exact congrArg MmapFile.mapid heq
      refine ⟨hgone (hid ▸ hR), ?_⟩
      intro j hge hlt hlen
      rcases hpage.lookup with ⟨o, ho, hino⟩
      have hsize : j - pgSize * l < pgSize := by
        rw [Nat.mul_add] at hlt
        omega
      have hb : j - pgSize * l < e.readBytes.toNat := by
        rw [hp.readBytes]
        omega
      have hclean := hpage.content.clean (by rw [hp.type]; decide)
        (not_dirty_of_none (h.tables.pteOf_none he hl)) ⟨j - pgSize * l, hsize⟩
        (by unfold Spte.extent; rw [if_pos hp.type]; exact hb)
      rw [hpage.wanted _ hb, filePage_apply (hp.file.symm ▸ ho) hb, hp.offset] at hclean
      dsimp only at hclean
      rw [Nat.add_sub_cancel' hge, hino] at hclean
      rw [bytesOf_congr hinodes]
      exact hclean
  · rcases hcov n hn with hpres' | ⟨hg, hbytes⟩
    · exact absurd hpres' hpres
    · refine .inr ⟨hg, ?_⟩
      intro j hge hlt hlen
      rw [← hbytes j hge hlt hlen]
      rcases hc.file_cases h with ⟨hsame, _⟩ | ⟨fte, y, pte, o, hw⟩
      · rw [bytesOf_congr hsame]
      · by_cases hino : o.inode = r.inode
        · rcases hm.written hw hino with ⟨l, hl⟩
          rw [hm.byte_written hw hino hl.pageAt, if_neg]
          -- the page that is written back is another one
          rintro ⟨hge', hlt', _⟩
          have hln := page_unique hge' hlt' hge hlt
          subst hln
          exact hpres ⟨fte.spte, y, hl.process ▸ hw.entry, hl.pageAt⟩
        · rw [bytesOf_congr hw.inodes, bytesOf_inodeWriteAt_of_ne fun heq => hino heq.symm]

end Mapping

end Pintos.Vm
