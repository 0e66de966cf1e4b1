import Pintos.Vm.Loading

/-! # Files, mappings, executables and exits

The operations of `process.c` and `syscall.c` as sequences of changes.
-/

namespace Pintos.Vm

variable {k k' k₁ k₂ : Kernel} {t : Tid} {p q : Ptr} {e e' : Spte} {f : FilePtr} {r : Role}
  {env : Env} {n : ℕ}
  {R : Scope}

/-! ## Open files -/

/-- What a file is used for does not depend on the file itself. -/
theorem holds_files {files : AList fun _ : FilePtr => OpenFile} :
    Holds { k with files := files } f r ↔ Holds k f r := by
  cases r <;> exact Iff.rfl

theorem fileOpen_some {i : Inode} (h : fileOpen env k i = (some f, k')) :
    f ∉ k.files ∧
      k' = { k with files := k.files.insert f { inode := i, denyWrite := false } } := by
  unfold fileOpen at h
  cases hm : env.mallocFile with
  | none =>
      rw [hm] at h
      cases h
  | some g =>
      rw [hm] at h
      dsimp only at h
      split at h
      next hnew =>
        cases h
        exact ⟨hnew.2, rfl⟩
      next => cases h

theorem fileOpen_none {i : Inode} (h : fileOpen env k i = (none, k')) : k' = k := by
  unfold fileOpen at h
  cases hm : env.mallocFile with
  | none =>
      rw [hm] at h
      cases h
      rfl
  | some g =>
      rw [hm] at h
      dsimp only at h
      split at h
      next => cases h
      next =>
        cases h
        rfl

theorem fileClose_ok (h : fileClose k f = .ok k') :
    k' = { k with files := k.files.erase f } := by
  unfold fileClose at h
  rcases Lts.bind_eq_ok.mp h with ⟨o, _, hret⟩
  cases hret
  rfl

/-- A file that is opened is a new one and gets a descriptor. -/
theorem openFile_cases {i : Inode} (hfile : openFile env k t i = .ok k') : k' = k ∨
    ∃ f ∉ k.files, k' =
      processAddFile { k with files := k.files.insert f { inode := i, denyWrite := false } } t f := by
  unfold openFile at hfile
  rcases hopen : fileOpen env k i with ⟨o, k₁⟩
  rw [hopen] at hfile
  cases o with
  | none =>
      cases hfile
      exact .inl (fileOpen_none hopen)
  | some f =>
      rcases fileOpen_some hopen with ⟨hnew, rfl⟩
      cases (Lts.guard_eq_ok.mp hfile).2
      exact .inr ⟨f, hnew, rfl⟩

theorem openFile_changes {i : Inode} (h : Sound k) (ht : k.status t = .alive)
    (hfile : openFile env k t i = .ok k') : Changes R k k' := by
  rcases openFile_cases hfile with rfl | ⟨f, hnew, rfl⟩
  · exact .refl _
  · have hunused : ∀ r, ¬ Holds k f r := fun r hr => hnew (h.handles.opened f r hr)
    refine (Changes.single (.openFile i hnew)).tail (.addDescriptor ht ?_ ?_)
    · exact (AList.mem_insert _).mpr (.inl rfl)
    · exact fun r hr => hunused r (holds_files.mp hr)

theorem close_changes {fd : ℤ} (hclose : close k t fd = .ok k') : Changes R k k' := by
  unfold close at hclose
  cases hfind : (k.fileList t).find? fun pf => pf.fd = fd with
  | none =>
      rw [hfind] at hclose
      cases hclose
      exact .refl k
  | some pf =>
      rw [hfind] at hclose
      rcases Lts.bind_eq_ok.mp hclose with ⟨k₁, hfile, hret⟩
      cases hret
      rw [fileClose_ok hfile]
      exact .single (.removeDescriptor (List.mem_of_find?_eq_some hfind))

/-- `process_close_file (CLOSE_ALL)`. -/
theorem closeFileLoop_changes {l : List ProcessFile} (hl : k.fileList t = l)
    (hloop : closeFileLoop t closeAll l k = .ok k') :
    Changes R k k' ∧ k'.fileList t = [] ∧ ∀ f r, Holds k' f r → Holds k f r := by
  induction l generalizing k with
  | nil =>
      cases hloop
      exact ⟨.refl _, hl, fun _ _ hr => hr⟩
  | cons pf rest ih =>
      unfold closeFileLoop at hloop
      rw [if_pos (.inr rfl)] at hloop
      rcases Lts.bind_eq_ok.mp hloop with ⟨k₁, hfile, hrest⟩
      rw [fileClose_ok hfile] at hrest
      rw [if_neg (by simp)] at hrest
      have hpf : pf ∈ k.fileList t := by
        rw [hl]
        exact List.mem_cons_self
      have hchange := Changes.single (R := R) (.removeDescriptor hpf)
      have hlist : Function.update k.fileList t ((k.fileList t).erase pf) t = rest := by
        rw [Function.update_self, hl, List.erase_cons_head]
      rcases ih (by exact hlist) hrest with ⟨hchanges, hnil, hholds⟩
      refine ⟨hchange.trans hchanges, hnil, ?_⟩
      intro g r hr
      have hr' := hholds g r hr
      cases r with
      | executable u => exact hr'
      | mapping u m => exact hr'
      | descriptor u fd => exact (sublist_update (f := k.fileList) List.erase_sublist).subset hr'

theorem closePending_changes {o : Option FilePtr} (ho : ∀ f, o = some f → ∀ r, ¬ Holds k f r)
    (hclose : closePending k o = .ok k') : Changes R k k' := by
  cases o with
  | none =>
      cases hclose
      exact .refl k
  | some f =>
      have hk' : k' = { k with files := k.files.erase f } := fileClose_ok hclose
      rw [hk']
      exact .single (.closeFile (ho f rfl))

theorem closePending_mmapList {o : Option FilePtr} (hclose : closePending k o = .ok k') :
    k'.mmapList = k.mmapList := by
  cases o with
  | none =>
      cases hclose
      rfl
  | some f =>
      rw [show k' = { k with files := k.files.erase f } from fileClose_ok hclose]

/-- The files of a process that has entered `process_exit` are closed. -/
theorem closeFiles_changes (hexe : ∀ f, k.executable t = some f → ∀ r, ¬ Holds k f r)
    (hx : k.status t ≠ .alive) (hclose : closeFiles k t = .ok k') :
    Changes R k k' ∧ k'.fileList t = [] := by
  unfold closeFiles at hclose
  rcases Lts.bind_eq_ok.mp hclose with ⟨k₁, hfiles, hpending⟩
  rcases closeFileLoop_changes (R := R) rfl (processCloseFile_ok.mp hfiles).2 with ⟨hchanges, hnil, hholds⟩
  have hlast : Changes R k₁ k' := by
    refine closePending_changes (fun f hf r hr => ?_) hpending
    rw [hchanges.executable] at hf
    exact hexe f hf r (hholds f r hr)
  refine ⟨hchanges.trans hlast, ?_⟩
  have hsub := (hlast.shrinks (by rw [hchanges.status]; exact hx)).fileList
  rw [hnil] at hsub
  exact List.sublist_nil.mp hsub

/-! ## The end of a mapping -/

/-- `free_frame` of a frame with one entry in the table. -/
theorem freeFrame_eq {fte : FrameTblEnt} (hfte : fte ∈ k.frameTblList)
    (hone : ∀ x ∈ k.frameTblList, x.frame = fte.frame → x = fte) :
    freeFrame k (some fte.frame) = { k with
      freePages := fte.frame :: k.freePages
      frameTblList := k.frameTblList.erase fte } := by
  have hfind : k.frameTblList.find? (fun x => some x.frame = some fte.frame) = some fte := by
    cases hf : k.frameTblList.find? (fun x => some x.frame = some fte.frame) with
    | none =>
        have hno := List.find?_eq_none.mp hf fte hfte
        simp at hno
    | some x =>
        have hx := List.find?_some hf
        have hmem := List.mem_of_find?_eq_some hf
        rw [hone x hmem (by simpa using hx)]
  unfold freeFrame
  rw [hfind]
  rfl

/-- A loaded page of a mapping is saved and loses its frame; its entry is not
touched. -/
theorem unloadMmap_ok (h : Sound k) (he : Entry k t p e) (hl : e.isLoaded = true)
    (hty : e.type = .mmap) (hun : unloadMmap k t e = .ok k') :
    ∃ k₁, Change R k k₁ ∧ Reshapes k k₁ ∧
      k₁.sptes = Function.update k.sptes p (some { e with isLoaded := false }) ∧
      k' = { k₁ with sptes := k.sptes } := by
  rcases h.tables.loaded_pte he hl with ⟨fte, pte, hfte, rfl, rfl, hpte, hframe⟩
  have hdirty : pagedirIsDirty k fte.thread e.unusedVirtualAddress = pte.dirty := by
    unfold pagedirIsDirty
    rw [hpte]
    rfl
  -- the write is the one `evict_frame` would have made
  have hsaved : ∃ k₂, savePage k fte e = .ok (e, k₂) ∧
      k' = pagedirClearPage (freeFrame k₂ (pagedirGetPage k₂ fte.thread e.unusedVirtualAddress))
        fte.thread e.unusedVirtualAddress := by
    unfold unloadMmap at hun
    unfold savePage
    rw [hpte] at hun
    dsimp only at hun
    rw [hdirty]
    by_cases hd : pte.dirty = true
    · rw [if_pos hd] at hun
      rcases Lts.bind_eq_ok.mp hun with ⟨k₂, hwrite, hret⟩
      cases hret
      refine ⟨k₂, ?_, rfl⟩
      rw [if_pos (.inl hd), if_pos hty, ← hframe, hwrite]
      rfl
    · rw [if_neg hd] at hun
      cases hun
      refine ⟨k, ?_, rfl⟩
      rw [if_neg]
      · rfl
      · rw [hty]
        simp [hd]
  rcases hsaved with ⟨k₂, hsave, rfl⟩
  refine ⟨_, .evict hfte he.at_ptr (.inr hty) hsave (.inr hty),
    h.evict_reshapes hfte he.at_ptr hsave, ?_, ?_⟩
  · rcases (saved_of_savePage hsave).frame with ⟨swap, inodes, rfl⟩
    rfl
  · rcases (saved_of_savePage hsave).frame with ⟨swap, inodes, hk₂⟩
    have htbl : k₂.frameTblList = k.frameTblList := by
      rw [hk₂]
    have hone : ∀ x ∈ k₂.frameTblList, x.frame = fte.frame → x = fte := by
      rw [htbl]
      exact fun x hx heq => h.tables.fte_eq_of_frame hx hfte heq
    have hget : pagedirGetPage k₂ fte.thread e.unusedVirtualAddress = some fte.frame := by
      have hpte₂ : k₂.pteOf fte.thread e.unusedVirtualAddress = some pte := by
        rw [hk₂]
        exact hpte
      unfold pagedirGetPage
      rw [hpte₂, Option.map_some, hframe]
    rw [hget, freeFrame_eq (htbl ▸ hfte) hone]
    have hsptes : k₂.sptes = k.sptes := by
      rw [hk₂]
    unfold pagedirClearPage Kernel.clearPte unmapPage
    rw [← hsptes]

/-- The looks of an entry do not matter when it is forgotten. -/
theorem forgetMapping_congr {mm : MmapFile} (he : k.sptes mm.spte = some e)
    (haddr : e'.unusedVirtualAddress = e.unusedVirtualAddress) (hty : e'.type = e.type) :
    forgetMapping (k.setSpte mm.spte (some e')) t mm e' = forgetMapping k t mm e := by
  have haddrOf : addressOf (k.setSpte mm.spte (some e')) = addressOf k := by
    funext q
    show (Function.update k.sptes mm.spte (some e') q).map _ = (k.sptes q).map _
    by_cases hq : q = mm.spte
    · rw [hq, Function.update_self, he, Option.map_some, Option.map_some, haddr]
    · rw [Function.update_of_ne hq]
  unfold forgetMapping hashDelete
  rw [haddrOf, haddr, hty]
  split <;> simp only [Kernel.setSpt, Kernel.setMmapList, Kernel.setSpte, Function.update_idem]

/-- One round of `process_remove_mmap` for an element `mm` of the list. -/
theorem removeMapping_changes {mm : MmapFile} (h : Sound k) (hmm : mm ∈ k.mmapList t)
    (hR : R.removes t mm.mapid)
    (he : k.sptes mm.spte = some e)
    (hun : (if e.isLoaded = true then
        unloadMmap (k.setSpte mm.spte (some { e with pinned := true })) t e
      else pure (k.setSpte mm.spte (some { e with pinned := true }))) = .ok k₂) :
    Changes R k (forgetMapping k₂ t mm e) ∧
      (∀ f r, Holds (forgetMapping k₂ t mm e) f r → Holds k f r) ∧
      (forgetMapping k₂ t mm e).mmapList t = (k.mmapList t).erase mm := by
  set e₁ : Spte := { e with pinned := true } with he₁
  set k₁ := k.setSpte mm.spte (some e₁) with hk₁
  have hpin : Change R k k₁ := .pin true he fun hf => by cases hf
  have h₁ : Sound k₁ := h.change hpin
  have hspte : k₁.sptes mm.spte = some e₁ := Function.update_self ..
  have hpinHolds : ∀ f r, Holds k₁ f r → Holds k f r := by
    have hr : Reshapes k k₁ := ⟨rfl, rfl, rfl, rfl, rfl, rfl, rfl, rfl,
      fun q _ => Reshapes.rel_update he ⟨rfl, rfl, rfl, rfl, rfl, .inl rfl, fun _ => rfl⟩⟩
    exact fun _ _ hf => hr.holds hf
  -- the page is unloaded if it has to be; `k₃` is the state afterwards
  have hunloaded : ∃ k₃ e₃, Changes R k₁ k₃ ∧ Reshapes k₁ k₃ ∧ k₃.sptes mm.spte = some e₃ ∧
      e₃.isLoaded = false ∧ forgetMapping k₂ t mm e = forgetMapping k₃ t mm e₃ := by
    by_cases hl : e.isLoaded = true
    · rw [if_pos hl] at hun
      rcases h.mappings.entry t mm hmm with ⟨x, hx, hcase⟩
      have hxe : x = e := Option.some.inj (hx.symm.trans he)
      subst hxe
      rcases hcase with ⟨hty, hmem⟩ | ⟨_, hno, _⟩
      · rcases unloadMmap_ok h₁ ⟨hmem, hspte⟩ hl hty hun with ⟨k₃, hc, hr, hsptes, hk₂⟩
        set e₃ : Spte := { e₁ with isLoaded := false } with he₃
        have hspte₂ : k₂.sptes mm.spte = some e₁ := by
          rw [hk₂]
          exact hspte
        have hk₃ : k₂.setSpte mm.spte (some e₃) = k₃ := by
          rw [hk₂]
          unfold Kernel.setSpte
          rw [← hsptes]
        have hforget : forgetMapping (k₂.setSpte mm.spte (some e₃)) t mm e₃ =
            forgetMapping k₂ t mm e₁ := forgetMapping_congr hspte₂ rfl rfl
        rw [hk₃] at hforget
        exact ⟨k₃, e₃, .single hc, hr, by rw [hsptes, Function.update_self], rfl, hforget.symm⟩
      · rw [hl] at hno
        cases hno
    · rw [if_neg hl] at hun
      have hk₂ : k₁ = k₂ := Except.ok.inj hun
      rw [← hk₂]
      exact ⟨k₁, e₁, .refl _, .refl _, hspte, by simpa using hl, rfl⟩
  rcases hunloaded with ⟨k₃, e₃, hc, hr, he₃, hl₃, heq⟩
  have h₃ : Sound k₃ := h₁.changes hc
  have hmm₃ : mm ∈ k₃.mmapList t := by
    rw [hr.mmapList]
    exact hmm
  rw [heq]
  refine ⟨((Changes.single hpin).trans hc).tail (.removeMapping hmm₃ he₃ hl₃ hR), ?_, ?_⟩
  · intro f r hf
    exact hpinHolds f r (hr.holds ((h₃.removes_forgetMapping hmm₃ he₃).holds hf))
  · rcases forgetMapping_eq k₃ t mm e₃ with ⟨spt, hforget, _⟩
    rw [hforget]
    show Function.update k₃.mmapList t _ t = _
    rw [Function.update_self, hr.mmapList]
    rfl

/-- Closing a file does not touch the entries. -/
theorem closePending_setSpte {o : Option FilePtr} {x : Option Spte} :
    closePending (k.setSpte p x) o = (do
      let k ← closePending k o
      return k.setSpte p x) := by
  cases o with
  | none => rfl
  | some f =>
      show fileClose (k.setSpte p x) f = (fileClose k f >>= fun k => pure (k.setSpte p x))
      unfold fileClose
      show (deref (k.files.lookup f) >>= _) = _
      cases k.files.lookup f <;> rfl

/-- The loop passes an element of another mapping. -/
theorem removeMmapLoop_skip {mapping close : ℤ} {mm : MmapFile} {rest : List MmapFile}
    {o : Option FilePtr} (hrem : ¬ (mm.mapid = mapping ∨ mapping = closeAll)) :
    removeMmapLoop t mapping (mm :: rest) o close k =
      removeMmapLoop t mapping rest o close k := by
  conv_lhs => unfold removeMmapLoop
  rw [if_neg hrem]

/-- One round of the loop, read as: unload the page, forget it, close the file
of the previous mapping if this page is the first of its own. -/
theorem removeMmapLoop_removes {mapping close : ℤ} {mm : MmapFile} {rest : List MmapFile}
    {o : Option FilePtr} (hrem : mm.mapid = mapping ∨ mapping = closeAll) :
    removeMmapLoop t mapping (mm :: rest) o close k = (do
      let e ← deref (k.sptes mm.spte)
      let k ← (if e.isLoaded = true then
          unloadMmap (k.setSpte mm.spte (some { e with pinned := true })) t e
        else pure (k.setSpte mm.spte (some { e with pinned := true })))
      if mm.mapid ≠ close then do
        let k ← closePending (forgetMapping k t mm e) o
        removeMmapLoop t mapping rest (some e.file) mm.mapid k
      else
        removeMmapLoop t mapping rest o close (forgetMapping k t mm e)) := by
  conv_lhs => unfold removeMmapLoop
  rw [if_pos hrem]
  cases k.sptes mm.spte with
  | none => rfl
  | some e =>
      dsimp only [deref, bind, Except.bind]
      -- `hash_delete` leaves the list of mappings as it is
      have hbody : ∀ k₂ : Kernel, (if mm.mapid ≠ close then do
          let k ← closePending ((if e.type ≠ .hashError then
            hashDelete k₂ t e.unusedVirtualAddress else k₂).setMmapList t
              (((if e.type ≠ .hashError then hashDelete k₂ t e.unusedVirtualAddress
                else k₂).mmapList t).erase mm)) o
          removeMmapLoop t mapping rest (some e.file) mm.mapid (k.setSpte mm.spte none)
        else removeMmapLoop t mapping rest o close
          (((if e.type ≠ .hashError then hashDelete k₂ t e.unusedVirtualAddress
            else k₂).setMmapList t (((if e.type ≠ .hashError then
              hashDelete k₂ t e.unusedVirtualAddress else k₂).mmapList t).erase mm)).setSpte
                mm.spte none)) =
        if mm.mapid ≠ close then do
          let k ← closePending (forgetMapping k₂ t mm e) o
          removeMmapLoop t mapping rest (some e.file) mm.mapid k
        else removeMmapLoop t mapping rest o close (forgetMapping k₂ t mm e) := by
        intro k₂
        have hmmap : (if e.type ≠ .hashError then hashDelete k₂ t e.unusedVirtualAddress
            else k₂).mmapList = k₂.mmapList := by
          split <;> rfl
        unfold forgetMapping
        rw [hmmap, closePending_setSpte, bind_assoc]
        rfl
      by_cases hl : e.isLoaded = true
      · rw [if_pos hl, if_pos hl]
        cases unloadMmap (k.setSpte mm.spte (some { e with pinned := true })) t e with
        | error err => rfl
        | ok k₂ => exact hbody k₂
      · rw [if_neg hl, if_neg hl]
        exact hbody _

theorem removeMmapLoop_cons {mapping close : ℤ} {mm : MmapFile} {rest : List MmapFile}
    {o : Option FilePtr} (hrem : mm.mapid = mapping ∨ mapping = closeAll)
    (hloop : removeMmapLoop t mapping (mm :: rest) o close k = .ok k') :
    ∃ e k₂, k.sptes mm.spte = some e ∧
      (if e.isLoaded = true then
          unloadMmap (k.setSpte mm.spte (some { e with pinned := true })) t e
        else pure (k.setSpte mm.spte (some { e with pinned := true }))) = .ok k₂ ∧
      (mm.mapid ≠ close ∧ (∃ k₃, closePending (forgetMapping k₂ t mm e) o = .ok k₃ ∧
          removeMmapLoop t mapping rest (some e.file) mm.mapid k₃ = .ok k') ∨
        mm.mapid = close ∧
          removeMmapLoop t mapping rest o close (forgetMapping k₂ t mm e) = .ok k') := by
  rw [removeMmapLoop_removes hrem] at hloop
  rcases Lts.bind_eq_ok.mp hloop with ⟨e, hd, hbody⟩
  rcases Lts.bind_eq_ok.mp hbody with ⟨k₂, hun, hnext⟩
  refine ⟨e, k₂, deref_ok hd, hun, ?_⟩
  by_cases hid : mm.mapid = close
  · rw [if_neg (not_not.mpr hid)] at hnext
    exact .inr ⟨hid, hnext⟩
  · rw [if_pos hid] at hnext
    exact .inl ⟨hid, Lts.bind_eq_ok.mp hnext⟩

/-- The elements of the list that `process_remove_mmap` removes. -/
def Removed (mapping : ℤ) (mm : MmapFile) : Prop := mm.mapid = mapping ∨ mapping = closeAll

/-- The invariant of the loop of `process_remove_mmap`. -/
structure Removing (k : Kernel) (t : Tid) (mapping : ℤ) (rest : List MmapFile)
    (o : Option FilePtr) (close : ℤ) : Prop where
  sub : rest.Sublist (k.mmapList t)
  /-- What is still to be removed is ahead. -/
  covers : ∀ mm ∈ k.mmapList t, Removed mapping mm → mm ∈ rest
  /-- The mapping that a pending file belongs to is the last one removed from. -/
  last : ∀ f, o = some f → (close = mapping ∨ mapping = closeAll) ∧ ∀ mm ∈ rest, close ≤ mm.mapid
  unused : ∀ f, o = some f → ∀ r, Holds k f r → r = .mapping t close
  first : o = none → close = 0

/-- A pending file can be closed once its mapping is behind. -/
theorem Removing.closable {mapping close : ℤ} {rest : List MmapFile} {o : Option FilePtr}
    (h : Removing k t mapping rest o close) (hbehind : ∀ mm ∈ rest, mm.mapid ≠ close)
    (ho : o = some f) : ∀ r, ¬ Holds k f r := by
  intro r hr
  have hrole := h.unused f ho r hr
  subst hrole
  rcases hr with ⟨mm, hmm, hid, _⟩
  refine hbehind mm (h.covers mm hmm ?_) hid
  rcases (h.last f ho).1 with heq | hall
  · exact .inl (hid.trans heq)
  · exact .inr hall

/-- The loop passes an element of another mapping. -/
theorem Removing.skip {mapping close : ℤ} {mm : MmapFile} {rest : List MmapFile}
    {o : Option FilePtr} (h : Removing k t mapping (mm :: rest) o close)
    (hrem : ¬ Removed mapping mm) : Removing k t mapping rest o close where
  sub := (List.sublist_cons_self mm rest).trans h.sub
  covers := by
    intro mm' hmm' hrem'
    rcases List.mem_cons.mp (h.covers mm' hmm' hrem') with rfl | hmem
    · exact absurd hrem' hrem
    · exact hmem
  last := fun f ho =>
    ⟨(h.last f ho).1, fun mm' hmm' => (h.last f ho).2 mm' (List.mem_cons_of_mem mm hmm')⟩
  unused := h.unused
  first := h.first

theorem removeMmapLoop_changes {mapping close : ℤ} {rest : List MmapFile} {o : Option FilePtr}
    (h : Sound k) (hR : ∀ j, j = mapping ∨ mapping = closeAll → R.removes t j)
    (hinv : Removing k t mapping rest o close)
    (hloop : removeMmapLoop t mapping rest o close k = .ok k') :
    Changes R k k' ∧ ∀ mm ∈ k'.mmapList t, ¬ Removed mapping mm := by
  induction rest generalizing k o close with
  | nil =>
      -- the file of the last mapping is closed behind the loop
      refine ⟨closePending_changes
        (fun f ho => hinv.closable (fun _ hmm => absurd hmm List.not_mem_nil) ho) hloop, ?_⟩
      intro mm hmm hrem
      rw [closePending_mmapList hloop] at hmm
      exact absurd (hinv.covers mm hmm hrem) List.not_mem_nil
  | cons mm rest ih =>
      have hmm : mm ∈ k.mmapList t := hinv.sub.subset List.mem_cons_self
      have hsorted := (h.mappings.sorted t).sublist hinv.sub
      rw [List.pairwise_cons] at hsorted
      by_cases hrem : mm.mapid = mapping ∨ mapping = closeAll
      · rcases removeMmapLoop_cons hrem hloop with ⟨e, k₂, he, hun, hnext⟩
        rcases removeMapping_changes h hmm (hR _ hrem) he hun with ⟨hchanges, hholds, hlist⟩
        set k₃ := forgetMapping k₂ t mm e with hk₃
        have h₃ : Sound k₃ := h.changes hchanges
        have hsub : rest.Sublist (k₃.mmapList t) := by
          rw [hlist]
          have herase := hinv.sub.erase mm
          rwa [List.erase_cons_head] at herase
        -- what is still to be removed comes later in the list
        have hcovers : ∀ mm' ∈ k₃.mmapList t, Removed mapping mm' → mm' ∈ rest := by
          intro mm' hmm' hrem'
          rw [hlist, h.mappings.mem_erase hmm] at hmm'
          rcases List.mem_cons.mp (hinv.covers mm' hmm'.1 hrem') with rfl | hmem
          · exact absurd rfl hmm'.2
          · exact hmem
        rcases hnext with ⟨hid, k₄, hclose, hrest⟩ | ⟨hid, hrest⟩
        · -- the first page of its mapping: the file of the one before is closed
          have hclosable : ∀ g, o = some g → ∀ r, ¬ Holds k₃ g r := by
            intro g ho r hr
            refine hinv.closable (fun mm' hmm' heq => ?_) ho r (hholds g r hr)
            have hle := (hinv.last g ho).2 mm List.mem_cons_self
            rcases List.mem_cons.mp hmm' with rfl | hmem
            · exact hid heq
            · -- the list is sorted, so no page of the mapping before is left
              have hge := hsorted.1 mm' hmem
              omega
          have hpending := closePending_changes (R := R) hclosable hclose
          have hinv' : Removing k₄ t mapping rest (some e.file) mm.mapid := by
            have hfields : k₄.mmapList = k₃.mmapList ∧ ∀ g r, Holds k₄ g r → Holds k₃ g r := by
              cases o with
              | none =>
                  cases hclose
                  exact ⟨rfl, fun _ _ hr => hr⟩
              | some g =>
                  have hk₄ : k₄ = { k₃ with files := k₃.files.erase g } := fileClose_ok hclose
                  rw [hk₄]
                  exact ⟨rfl, fun _ _ hr => holds_files.mp hr⟩
            refine ⟨hfields.1 ▸ hsub, hfields.1 ▸ hcovers, ?_, ?_, fun ho => by cases ho⟩
            · exact fun g _ => ⟨hrem, fun mm' hmm' => hsorted.1 mm' hmm'⟩
            · intro g ho r hr
              cases ho
              -- the file of the entry is used by this mapping only
              exact h.handles.unique e.file _ _ (hholds _ _ (hfields.2 _ _ hr))
                ⟨mm, hmm, rfl, e, he, rfl⟩
          rcases ih (h₃.changes hpending) hinv' hrest with ⟨hlast, hgone⟩
          exact ⟨(hchanges.trans hpending).trans hlast, hgone⟩
        · -- another page of the same mapping
          have ho : o ≠ none := by
            intro ho
            have hpos := (h.mappings.bounded t mm hmm).1
            have hzero := hinv.first ho
            omega
          have hinv' : Removing k₃ t mapping rest o close :=
            ⟨hsub, hcovers, fun g hg => ⟨(hinv.last g hg).1,
                fun mm' hmm' => (hinv.last g hg).2 mm' (List.mem_cons_of_mem mm hmm')⟩,
              fun g hg r hr => hinv.unused g hg r (hholds g r hr), fun hnone => absurd hnone ho⟩
          rcases ih h₃ hinv' hrest with ⟨hlast, hgone⟩
          exact ⟨hchanges.trans hlast, hgone⟩
      · -- not of this mapping
        rw [removeMmapLoop_skip hrem] at hloop
        exact ih h (hinv.skip hrem) hloop

theorem removeMmap_changes {mapping : ℤ} (h : Sound k)
    (hR : ∀ j, j = mapping ∨ mapping = closeAll → R.removes t j)
    (hloop : removeMmapLoop t mapping (k.mmapList t) none 0 k = .ok k') :
    Changes R k k' ∧ ∀ mm ∈ k'.mmapList t, ¬ Removed mapping mm :=
  removeMmapLoop_changes h hR
    ⟨.refl _, fun _ hmm _ => hmm, fun _ ho => (by cases ho), fun _ ho => (by cases ho),
      fun _ => rfl⟩ hloop

theorem processRemoveMmap_changes {mapping : ℤ} (h : Sound k)
    (hR : ∀ j, j = mapping ∨ mapping = closeAll → R.removes t j)
    (hrem : processRemoveMmap k t mapping = .ok k') :
    Changes R k k' ∧ ∀ mm ∈ k'.mmapList t, ¬ Removed mapping mm :=
  removeMmap_changes h hR (processRemoveMmap_ok.mp hrem).2

/-! ## The end of a process -/

theorem hashDestroy_changes {l : List Ptr} (h : Sound k) (hx : k.status t = .exiting)
    (hm : k.mmapList t = []) (hl : k.spt t = l) (hdestroy : hashDestroy t l k = .ok k') :
    Changes R k k' ∧ k'.spt t = [] := by
  induction l generalizing k with
  | nil =>
      cases hdestroy
      exact ⟨.refl _, hl⟩
  | cons p rest ih =>
      unfold hashDestroy at hdestroy
      rcases Lts.bind_eq_ok.mp hdestroy with ⟨k₁, hfun, hrest⟩
      unfold pageFunction at hfun
      rcases Lts.bind_eq_ok.mp hfun with ⟨e, hd, hbody⟩
      have he : Entry k t p e := ⟨by rw [hl]; exact List.mem_cons_self, deref_ok hd⟩
      -- the page loses its frame if it has one, and then its entry
      have hone : Changes R k k₁ ∧ k₁.mmapList = k.mmapList ∧ k₁.spt t = rest := by
        by_cases hload : e.isLoaded = true
        · rw [if_pos hload] at hbody
          cases hbody
          rcases h.tables.loaded_pte he hload with ⟨fte, pte, hfte, rfl, rfl, hpte, hframe⟩
          have hget : pagedirGetPage (k.setSpt fte.thread rest) fte.thread e.unusedVirtualAddress =
              some fte.frame := by
            unfold pagedirGetPage
            rw [show (k.setSpt fte.thread rest).pteOf fte.thread e.unusedVirtualAddress = some pte
              from hpte, Option.map_some, hframe]
          have hfree := freeFrame_eq (k := k.setSpt fte.thread rest) hfte
            fun x hxm heq => h.tables.fte_eq_of_frame hxm hfte heq
          rw [hget, hfree]
          have hdiscard : Change R k (unmapPage k fte { e with isLoaded := false }) :=
            .discard hfte he.at_ptr hx hm
          have hgone : Change R (unmapPage k fte { e with isLoaded := false })
              (((unmapPage k fte { e with isLoaded := false }).setSpt fte.thread rest).setSpte
                fte.spte none) :=
            .destroy hx hl (Function.update_self ..) rfl hm
          have hstate : ((unmapPage k fte { e with isLoaded := false }).setSpt fte.thread
              rest).setSpte fte.spte none = { k.setSpt fte.thread rest with
                pagedir := Function.update k.pagedir fte.thread
                  ((k.pagedir fte.thread).erase e.unusedVirtualAddress)
                sptes := Function.update k.sptes fte.spte none
                frameTblList := k.frameTblList.erase fte
                freePages := fte.frame :: k.freePages } := by
            unfold unmapPage Kernel.setSpt Kernel.setSpte
            dsimp only
            rw [Function.update_idem]
          rw [hstate] at hgone
          exact ⟨(Changes.single hdiscard).tail hgone, rfl, Function.update_self ..⟩
        · rw [if_neg hload] at hbody
          cases hbody
          exact ⟨.single (.destroy hx hl he.at_ptr (by simpa using hload) hm), rfl,
            Function.update_self ..⟩
      rcases hone with ⟨hchange, hmmap, hspt⟩
      rcases ih (h.changes hchange) (by rw [hchange.status]; exact hx) (by rw [hmmap]; exact hm)
        hspt hrest with ⟨hlast, hnil⟩
      exact ⟨hchange.trans hlast, hnil⟩

/-- The executable loses its use when the process enters `process_exit`. -/
theorem Sound.not_holds_executable {f : FilePtr} {r : Role} (h : Sound k) (ht : k.status t = .killed)
    (hf : (k.setStatus t .exiting).executable t = some f) :
    ¬ Holds (k.setStatus t .exiting) f r := by
  intro hr
  have hr' : Holds k f r := by
    cases r with
    | executable u =>
        refine ⟨?_, hr.2⟩
        have hu := hr.1
        unfold Kernel.Live at hu
        rw [setStatus_status] at hu
        by_cases hut : u = t
        · rw [if_pos hut] at hu
          simp at hu
        · rwa [if_neg hut] at hu
    | descriptor u fd => exact hr
    | mapping u m => exact hr
  have hrole := h.handles.unique f r (.executable t) hr' ⟨.inr ht, hf⟩
  subst hrole
  have hlive := hr.1
  unfold Kernel.Live at hlive
  rw [show (k.setStatus t .exiting).status t = .exiting from Function.update_self ..] at hlive
  simp at hlive

/-- `process_exit` closes the files, removes the mappings and the table, and
then nothing is left. -/
theorem processExit_ok (h : Sound k) (hR : ∀ j, R.removes t j) (ht : k.status t = .killed)
    (hexit : processExit k t = .ok k') :
    ∃ k₁, Changes R (k.setStatus t .exiting) k₁ ∧ k₁.spt t = [] ∧ k₁.mmapList t = [] ∧
      k₁.fileList t = [] ∧ k' = (pagedirDestroy k₁ t).setStatus t .absent := by
  unfold processExit at hexit
  rcases Lts.bind_eq_ok.mp hexit with ⟨k₁, hclose, hexit⟩
  rcases Lts.bind_eq_ok.mp hexit with ⟨k₂, hmmap, hexit⟩
  rcases Lts.bind_eq_ok.mp hexit with ⟨k₃, htbl, hret⟩
  cases hret
  have h₀ : Sound (k.setStatus t .exiting) := h.setStatus (.inr ht) (by decide)
  have hx : (k.setStatus t .exiting).status t = .exiting := Function.update_self ..
  have hna : ∀ {x : Kernel}, x.status t = .exiting → x.status t ≠ .alive := by
    intro x hs
    rw [hs]
    decide
  rcases closeFiles_changes (R := R) (fun _ hf _ => h.not_holds_executable ht hf) (hna hx) hclose
    with ⟨hc₁, hfiles⟩
  have hx₁ : k₁.status t = .exiting := by
    rw [hc₁.status]
    exact hx
  have h₁ := h₀.changes hc₁
  rcases processRemoveMmap_changes h₁ (fun j _ => hR j) hmmap with ⟨hc₂, hgone⟩
  have hm₂ : k₂.mmapList t = [] :=
    List.eq_nil_iff_forall_not_mem.mpr fun mm hmm => hgone mm hmm (.inr rfl)
  have hx₂ : k₂.status t = .exiting := by
    rw [hc₂.status]
    exact hx₁
  rcases hashDestroy_changes (h₁.changes hc₂) hx₂ hm₂ rfl htbl with ⟨hc₃, hspt⟩
  refine ⟨k₃, (hc₁.trans hc₂).trans hc₃, hspt, ?_, ?_, rfl⟩
  · have hsub := (hc₃.shrinks (hna hx₂)).mmapList
    rw [hm₂] at hsub
    exact List.sublist_nil.mp hsub
  · have hsub := ((hc₂.shrinks (hna hx₁)).trans
      (hc₃.shrinks (hna hx₂))).fileList
    rw [hfiles] at hsub
    exact List.sublist_nil.mp hsub

/-! ## New mappings -/

/-- The bytes read and the zeros make up a page. -/
theorem pageBytes_add (readBytes : UInt32) :
    (if readBytes < 4096 then readBytes else 4096 : UInt32).toNat +
      (4096 - if readBytes < 4096 then readBytes else 4096 : UInt32).toNat = pgSize := by
  have hle : (if readBytes < 4096 then readBytes else 4096 : UInt32) ≤ 4096 := by
    split
    next hlt => exact UInt32.le_of_lt hlt
    next => exact UInt32.le_refl _
  rw [UInt32.toNat_sub_of_le _ _ hle]
  have hle' := UInt32.le_iff_toNat_le.mp hle
  have h4096 : (4096 : UInt32).toNat = 4096 := rfl
  rw [h4096] at hle' ⊢
  show _ = 4096
  omega

/-- The entry `add_mmap_page_tbl` makes. -/
def mmapEntry (file : FilePtr) (ofs : UInt32) (upage : Vaddr) (readBytes zeroBytes : UInt32) :
    Spte where
  unusedVirtualAddress := upage
  type := .mmap
  writable := true
  isLoaded := false
  pinned := false
  file := file
  offset := ofs
  readBytes := readBytes
  zeroBytes := zeroBytes
  swapIndex := 0

/-- `add_mmap_page_tbl` succeeded. -/
theorem addMmapPageTbl_true {file : FilePtr} {ofs : UInt32} {upage : Vaddr}
    {readBytes zeroBytes : UInt32}
    (hadd : addMmapPageTbl env n k t file ofs upage readBytes zeroBytes = (true, k')) :
    ∃ p, k.sptes p = none ∧ hashFind (listMapping (k.setSpte p
        (some (mmapEntry file ofs upage readBytes zeroBytes))) t p) t upage = none ∧
      k' = insertEntry (listMapping (k.setSpte p
        (some (mmapEntry file ofs upage readBytes zeroBytes))) t p) t p upage
        (filePage k (mmapEntry file ofs upage readBytes zeroBytes)) := by
  unfold addMmapPageTbl at hadd
  cases hm : mallocSpte env n k with
  | none =>
      rw [hm] at hadd
      cases hadd
  | some p =>
      rw [hm] at hadd
      dsimp only at hadd
      refine ⟨p, mallocSpte_some hm, ?_⟩
      unfold processAddMmap at hadd
      by_cases hlist : env.mallocMmap n = true
      · rw [if_pos hlist] at hadd
        dsimp only at hadd
        unfold hashInsert at hadd
        cases hfind : hashFind (listMapping (k.setSpte p
            (some (mmapEntry file ofs upage readBytes zeroBytes))) t p) t upage with
        | some q =>
            unfold listMapping mmapEntry at hfind
            rw [hfind] at hadd
            cases hadd
        | none =>
            unfold listMapping mmapEntry at hfind
            rw [hfind] at hadd
            cases hadd
            exact ⟨rfl, rfl⟩
      · rw [if_neg hlist] at hadd
        cases hadd

/-- Nor does it depend on unused parts of the heap. -/
theorem holds_of_cell {s : Option Spte} (hp : Unused k p) (hr : Holds (k.setSpte p s) f r) :
    Holds k f r := by
  cases r with
  | executable u => exact hr
  | descriptor u fd => exact hr
  | mapping u m =>
      rcases hr with ⟨mm, hmm, hmid, x, hx, hfile⟩
      refine ⟨mm, hmm, hmid, x, ?_, hfile⟩
      rw [← hx]
      exact (Function.update_of_ne (hp.mmap u mm hmm) ..).symm

/-- `add_mmap_page_tbl` failed: at most a `HASH_ERROR` entry is listed. -/
theorem addMmapPageTbl_false {file : FilePtr} {ofs : UInt32} {upage : Vaddr}
    {readBytes zeroBytes : UInt32} (h : Sound k) (ht : k.status t = .alive)
    (hopen : file ∈ k.files) (hrole : ∀ r, Holds k file r → r = .mapping t (k.mapid t))
    (hid : 1 ≤ k.mapid t) (hR : R.adds t (k.mapid t))
    (hadd : addMmapPageTbl env n k t file ofs upage readBytes zeroBytes = (false, k')) :
    Changes R k k' := by
  unfold addMmapPageTbl at hadd
  cases hm : mallocSpte env n k with
  | none =>
      rw [hm] at hadd
      cases hadd
      exact .refl _
  | some p =>
      rw [hm] at hadd
      dsimp only at hadd
      have hp := h.unused (mallocSpte_some hm)
      have hcell : ∀ o, Changes R k (k.setSpte p o) := fun o => .single (.cell o hp)
      have htwice : ∀ o o', (k.setSpte p o).setSpte p o' = k.setSpte p o' := by
        intro o o'
        unfold Kernel.setSpte
        dsimp only
        rw [Function.update_idem]
      unfold processAddMmap at hadd
      by_cases hlist : env.mallocMmap n = true
      · rw [if_pos hlist] at hadd
        dsimp only at hadd
        unfold hashInsert at hadd
        cases hfind : hashFind (listMapping (k.setSpte p
            (some (mmapEntry file ofs upage readBytes zeroBytes))) t p) t upage with
        | none =>
            unfold listMapping mmapEntry at hfind
            rw [hfind] at hadd
            cases hadd
        | some q =>
            unfold listMapping mmapEntry at hfind
            rw [hfind] at hadd
            cases hadd
            -- the entry is marked before it is listed
            set e : Spte := { mmapEntry file ofs upage readBytes zeroBytes with
              type := .hashError } with he
            have hlisted : Change R (k.setSpte p (some e)) (listMapping (k.setSpte p (some e)) t p) :=
              .addHashError (e := e) ⟨hp.spt, hp.mmap⟩ (Function.update_self ..) rfl rfl ht hopen
                (fun r hr => hrole r (holds_of_cell hp hr)) hid hR
            have hstate : (listMapping (k.setSpte p
                (some (mmapEntry file ofs upage readBytes zeroBytes))) t p).setSpte p (some e) =
                listMapping (k.setSpte p (some e)) t p := by
              unfold listMapping Kernel.setMmapList Kernel.setSpte
              dsimp only
              rw [Function.update_idem]
            have hend := (hcell (some e)).tail hlisted
            rw [← hstate] at hend
            exact hend
      · rw [if_neg hlist] at hadd
        cases hadd
        rw [htwice]
        exact hcell none

/-- The number of the newest mapping stays. -/
theorem addMmapPageTbl_mapid {file : FilePtr} {ofs : UInt32} {upage : Vaddr} {b : Bool}
    {readBytes zeroBytes : UInt32}
    (hadd : addMmapPageTbl env n k t file ofs upage readBytes zeroBytes = (b, k')) :
    k'.mapid = k.mapid := by
  unfold addMmapPageTbl processAddMmap hashInsert at hadd
  split at hadd
  next =>
    cases hadd
    rfl
  next =>
    dsimp only at hadd
    split at hadd
    next hlist =>
      split at hlist <;> cases hlist
      cases hadd
      rfl
    next hlist =>
      split at hlist <;> cases hlist
      split at hadd
      next hins =>
        split at hins <;> cases hins
        cases hadd
        rfl
      next hins =>
        split at hins <;> cases hins
        cases hadd
        rfl

theorem mmapLoop_mapid {file : FilePtr} {rounds : ℕ} {ofs readBytes : UInt32} {addr : Vaddr}
    {b : Bool} (hloop : mmapLoop env t file n rounds ofs addr readBytes k = (b, k')) :
    k'.mapid = k.mapid := by
  induction rounds generalizing n ofs addr readBytes k with
  | zero =>
      cases hloop
      rfl
  | succ rounds ih =>
      unfold mmapLoop at hloop
      split at hloop
      next =>
        dsimp only at hloop
        split at hloop
        next hadd =>
          cases hloop
          exact addMmapPageTbl_mapid hadd
        next hadd => exact (ih hloop).trans (addMmapPageTbl_mapid hadd)
      next =>
        cases hloop
        rfl

theorem pageAt_zero {upage : Vaddr} : pageAt upage 0 = upage := UInt32.add_zero upage

theorem pageAt_succ {upage : Vaddr} {i : ℕ} : pageAt (upage + 4096) i = pageAt upage (i + 1) := by
  unfold pageAt
  rw [UInt32.add_assoc, Nat.mul_succ, Nat.add_comm, UInt32.ofNat_add]
  rfl

/-- A page without an entry had none before another one got its entry. -/
theorem hashFind_insertEntry {va upage : Vaddr} {q : Ptr}
    (h : hashFind (insertEntry k t q upage page) t va = none) : hashFind k t va = none := by
  refine List.find?_eq_none.mpr fun r hr => ?_
  exact List.find?_eq_none.mp h r (mem_insertEntry.mpr (.inl hr))

theorem mmapLoop_changes {file : FilePtr} {rounds : ℕ} {ofs readBytes : UInt32} {addr : Vaddr}
    {b : Bool} (h : Sound k) (ht : k.status t = .alive) (hopen : file ∈ k.files)
    (hrole : ∀ r, Holds k file r → r = .mapping t (k.mapid t)) (hid : 1 ≤ k.mapid t)
    (hR : R.adds t (k.mapid t))
    (henter : ∀ i, (∀ j ≤ i, hashFind k t (pageAt addr j) = none) → R.enters t (pageAt addr i))
    (hloop : mmapLoop env t file n rounds ofs addr readBytes k = (b, k')) : Changes R k k' := by
  induction rounds generalizing n ofs addr readBytes k with
  | zero =>
      cases hloop
      exact .refl _
  | succ rounds ih =>
      unfold mmapLoop at hloop
      by_cases hmore : readBytes > 0
      · rw [if_pos hmore] at hloop
        dsimp only at hloop
        rcases hadd : addMmapPageTbl env n k t file ofs addr
          (if readBytes < 4096 then readBytes else 4096)
          (4096 - if readBytes < 4096 then readBytes else 4096) with ⟨added, k₁⟩
        rw [hadd] at hloop
        cases added with
        | false =>
            cases hloop
            exact addMmapPageTbl_false h ht hopen hrole hid hR hadd
        | true =>
            rcases addMmapPageTbl_true hadd with ⟨p, hnone, hfind, rfl⟩
            have hp := h.unused hnone
            set e := mmapEntry file ofs addr (if readBytes < 4096 then readBytes else 4096)
              (4096 - if readBytes < 4096 then readBytes else 4096) with he
            have hheap : (k.setSpte p (some e)).sptes p = some e := Function.update_self ..
            have hholds : ∀ r, Holds (k.setSpte p (some e)) file r → Holds k file r :=
              fun _ hr => holds_of_cell hp hr
            -- the page that is added now may be entered
            have henter₀ : R.enters t addr := by
              have hfind' : hashFind k t addr = none := by
                rw [← hashFind_setSpte (o := some e) (hp.spt t)]
                exact hfind
              have hfirst : R.enters t (pageAt addr 0) := by
                refine henter 0 ?_
                intro j hj
                obtain rfl : j = 0 := by omega
                rwa [pageAt_zero]
              rwa [pageAt_zero] at hfirst
            -- and so may those after it, which are the next ones from here
            have henter' : ∀ i, (∀ j ≤ i, hashFind (insertEntry (listMapping
                (k.setSpte p (some e)) t p) t p addr (filePage k e)) t (pageAt (addr + 4096) j) =
                none) → R.enters t (pageAt (addr + 4096) i) := by
              intro i hfree
              rw [pageAt_succ]
              refine henter (i + 1) ?_
              intro j hj
              cases j with
              | zero =>
                  rw [pageAt_zero, ← hashFind_setSpte (o := some e) (hp.spt t)]
                  exact hfind
              | succ j =>
                  have hnext := hashFind_insertEntry (hfree j (by omega))
                  rw [pageAt_succ] at hnext
                  rw [← hashFind_setSpte (o := some e) (hp.spt t)]
                  exact hnext
            have hchange : Changes R k (insertEntry (listMapping (k.setSpte p (some e)) t p) t p addr
                (filePage k e)) :=
              (Changes.single (.cell (some e) hp)).tail
                (.addMmap (e := e) ⟨hp.spt, hp.mmap⟩ hheap rfl rfl hfind ht hopen
                  (fun r hr => hrole r (hholds r hr)) hid (pageBytes_add readBytes) hR
                  henter₀)
            -- the file is still used by this mapping only
            have hrole' : ∀ r, Holds (insertEntry (listMapping (k.setSpte p (some e)) t p) t p addr
                (filePage k e)) file r → r = .mapping t (k.mapid t) := by
              intro r hr
              cases r with
              | executable u => exact hrole _ hr
              | descriptor u fd => exact hrole _ hr
              | mapping u m =>
                  rcases hr with ⟨mm, hmm, hmid, x, hx, hfile⟩
                  rcases mem_listMapping.mp hmm with hold | ⟨rfl, rfl⟩
                  · exact hrole _ (hholds _ ⟨mm, hold, hmid, x, hx, hfile⟩)
                  · rw [← hmid]
                    rfl
            exact hchange.trans (ih (h.changes hchange) ht hopen hrole' hid hR henter' hloop)
      · rw [if_neg hmore] at hloop
        cases hloop
        exact .refl _

/-- The state in which the loop of `mmap` starts: the file is open a second time
and the mapping has its number. -/
def beginMapping (k : Kernel) (t : Tid) (file : FilePtr) (i : Inode) : Kernel :=
  { k with
    files := k.files.insert file { inode := i, denyWrite := false }
    mapid := Function.update k.mapid t (k.mapid t + 1) }

/-- An address where `mmap` may begin a mapping. -/
structure Mappable (addr : Vaddr) : Prop where
  user : isUserVaddr addr
  bottom : userVaddrBottom ≤ addr
  aligned : addr % 4096 = 0

/-- What `mmap` can do: fail before or after it has opened the file, add all pages,
or give back those it could add. -/
theorem mmap_cases {fd id : ℤ} {addr : Vaddr} (hmmap : mmap env k t fd addr = .ok (id, k')) :
    id = error ∧ k' = k ∨
      ∃ oldFile o file, processGetFile k t fd = .ok (some oldFile) ∧ Mappable addr ∧
        k.files.lookup oldFile = some o ∧ file ∉ k.files ∧
        (id = error ∧
            k' = { k with files := k.files.insert file { inode := o.inode, denyWrite := false } } ∨
          (k.bytesOf o.inode).length ≠ 0 ∧ ∃ b k₃,
            mmapLoop env t file 0 (k.bytesOf o.inode).length 0 addr
              (UInt32.ofNat (k.bytesOf o.inode).length) (beginMapping k t file o.inode) = (b, k₃) ∧
            (b = true ∧ id = k₃.mapid t ∧ k' = k₃ ∨
              b = false ∧ id = error ∧ munmap k₃ t (k₃.mapid t) = .ok k')) := by
  unfold mmap at hmmap
  rcases Lts.bind_eq_ok.mp hmmap with ⟨found, hget, hmmap⟩
  cases found with
  | none =>
      cases hmmap
      exact .inl ⟨rfl, rfl⟩
  | some oldFile =>
      dsimp only at hmmap
      by_cases hbad : ¬ isUserVaddr addr ∨ addr < userVaddrBottom ∨ addr % 4096 ≠ 0
      · rw [if_pos hbad] at hmmap
        cases hmmap
        exact .inl ⟨rfl, rfl⟩
      · rw [if_neg hbad] at hmmap
        rcases Lts.bind_eq_ok.mp hmmap with ⟨o, ho, hmmap⟩
        have hlook := deref_ok ho
        rcases hopen : fileOpen env k o.inode with ⟨file, k₁⟩
        rw [hopen] at hmmap
        cases file with
        | none =>
            cases hmmap
            exact .inl ⟨rfl, fileOpen_none hopen⟩
        | some file =>
            rcases fileOpen_some hopen with ⟨hnew, rfl⟩
            have hmappable : Mappable addr := by
              rw [not_or, not_or, not_not, not_not] at hbad
              exact ⟨hbad.1, UInt32.not_lt.mp hbad.2.1, hbad.2.2⟩
            refine .inr ⟨oldFile, o, file, hget, hmappable, hlook, hnew, ?_⟩
            -- `file_length` of the old file, which is not the one just opened
            have hne : oldFile ≠ file := by
              rintro rfl
              exact hnew (AList.lookup_isSome.mp (by rw [hlook]; rfl))
            rcases Lts.bind_eq_ok.mp hmmap with ⟨length, hlen, hmmap⟩
            have hlength : (k.bytesOf o.inode).length = length := by
              unfold fileLength at hlen
              rw [AList.lookup_insert_ne hne, hlook] at hlen
              exact Except.ok.inj hlen
            by_cases hzero : length = 0
            · rw [if_pos hzero] at hmmap
              cases hmmap
              exact .inl ⟨rfl, rfl⟩
            · rw [if_neg hzero] at hmmap
              rcases Lts.bind_eq_ok.mp hmmap with ⟨readBytes, hread, hmmap⟩
              -- and of the new one, which has the same inode
              have hreadBytes : (k.bytesOf o.inode).length = readBytes := by
                unfold fileLength at hread
                rw [AList.lookup_insert] at hread
                exact Except.ok.inj hread
              refine .inr ⟨hlength ▸ hzero, ?_⟩
              rw [hreadBytes]
              rcases hloop : mmapLoop env t file 0 readBytes 0 addr (UInt32.ofNat readBytes)
                (beginMapping k t file o.inode) with ⟨b, k₃⟩
              have hloop' := hloop
              unfold beginMapping at hloop'
              rw [hloop'] at hmmap
              cases b with
              | true =>
                  cases hmmap
                  exact ⟨true, _, rfl, .inl ⟨rfl, rfl, rfl⟩⟩
              | false =>
                  -- not all pages fit, and `munmap` gives back those that did
                  rcases Lts.bind_eq_ok.mp hmmap with ⟨k₄, hunmap, hret⟩
                  cases hret
                  exact ⟨false, k₃, rfl, .inr ⟨rfl, rfl, hunmap⟩⟩

theorem beginMapping_changes {file : FilePtr} {i : Inode} (hnew : file ∉ k.files) :
    Changes R k (beginMapping k t file i) :=
  (Changes.single (.openFile i hnew)).tail (.newMapid t)

theorem beginMapping_mapid {file : FilePtr} {i : Inode} :
    (beginMapping k t file i).mapid t = k.mapid t + 1 :=
  Function.update_self ..

/-- The new handle is used for nothing yet. -/
theorem not_holds_beginMapping {file : FilePtr} {i : Inode} {r : Role} (h : Sound k)
    (hnew : file ∉ k.files) : ¬ Holds (beginMapping k t file i) file r := by
  intro hr
  refine hnew (h.handles.opened file r ?_)
  cases r <;> exact hr

theorem mmap_changes {fd id : ℤ} {addr : Vaddr} (h : Sound k) (hadds : R.adds t (k.mapid t + 1))
    (hR : R.removes t (k.mapid t + 1))
    (henter : ∀ i, Mappable addr → (∀ j ≤ i, hashFind k t (pageAt addr j) = none) →
      R.enters t (pageAt addr i))
    (ht : k.status t = .alive)
    (hmmap : mmap env k t fd addr = .ok (id, k')) : Changes R k k' := by
  rcases mmap_cases hmmap with ⟨-, rfl⟩ | ⟨oldFile, o, file, -, hmappable, -, hnew, hcases⟩
  · exact .refl k'
  · rcases hcases with ⟨-, rfl⟩ | ⟨-, b, k₃, hloop, hend⟩
    · exact .single (.openFile o.inode hnew)
    · have hbegin : Changes R k (beginMapping k t file o.inode) := beginMapping_changes hnew
      have h₂ := h.changes hbegin
      have hpos : 1 ≤ (beginMapping k t file o.inode).mapid t := by
        have hnonneg := h.mappings.mapidNonneg t
        rw [beginMapping_mapid]
        omega
      have hadds₂ : R.adds t ((beginMapping k t file o.inode).mapid t) := by
        rw [beginMapping_mapid]
        exact hadds
      have hloopc := mmapLoop_changes (R := R) h₂ ht ((AList.mem_insert _).mpr (.inl rfl))
        (fun _ hr => absurd hr (not_holds_beginMapping h hnew)) hpos hadds₂
        (fun i => henter i hmappable) hloop
      rcases hend with ⟨-, -, rfl⟩ | ⟨-, -, hunmap⟩
      · exact hbegin.trans hloopc
      · -- the pages that were added are removed again
        have h₃ := h₂.changes hloopc
        have hmapid : k₃.mapid t = k.mapid t + 1 := by
          rw [mmapLoop_mapid hloop, beginMapping_mapid]
        refine (hbegin.trans hloopc).trans
          (processRemoveMmap_changes h₃ (fun j hj => ?_) hunmap).1
        rcases hj with rfl | hall
        · rw [hmapid]
          exact hR
        · have hnonneg := h₃.mappings.mapidNonneg t
          rw [hall] at hnonneg
          exact absurd hnonneg (by decide)

/-! ## New processes -/

/-- The entry `add_file_page_tbl` makes. -/
def fileEntry (file : FilePtr) (ofs : UInt32) (upage : Vaddr) (readBytes zeroBytes : UInt32)
    (writable : Bool) : Spte where
  unusedVirtualAddress := upage
  type := .file
  writable := writable
  isLoaded := false
  pinned := false
  file := file
  offset := ofs
  readBytes := readBytes
  zeroBytes := zeroBytes
  swapIndex := 0

/-- `add_file_page_tbl` succeeded. -/
theorem addFilePageTbl_changes {file : FilePtr} {ofs : UInt32} {upage : Vaddr}
    {readBytes zeroBytes : UInt32} {writable : Bool} (h : Sound k) (ht : k.status t = .alive)
    (hexe : k.executable t = some file) (hsize : readBytes.toNat + zeroBytes.toNat = pgSize)
    (hR : R.enters t upage)
    (hadd : addFilePageTbl env n k t file ofs upage readBytes zeroBytes writable = (true, k')) :
    Changes R k k' := by
  unfold addFilePageTbl at hadd
  cases hm : mallocSpte env n k with
  | none =>
      rw [hm] at hadd
      cases hadd
  | some p =>
      rw [hm] at hadd
      dsimp only at hadd
      have hp := h.unused (mallocSpte_some hm)
      set e := fileEntry file ofs upage readBytes zeroBytes writable with he
      have hins : hashInsert (k.setSpte p (some e)) t p upage (filePage k e) = (true, k') := hadd
      unfold hashInsert at hins
      cases hfind : hashFind (k.setSpte p (some e)) t upage with
      | some q =>
          rw [hfind] at hins
          cases hins
      | none =>
          rw [hfind] at hins
          cases hins
          exact (Changes.single (.cell (some e) hp)).tail
            (.addFile (e := e) ⟨hp.spt, hp.mmap⟩ (Function.update_self ..) rfl rfl hfind ht hexe hsize hR)

theorem loadSegmentLoop_changes {file : FilePtr} {rounds m : ℕ} {writable : Bool} {ofs : UInt32}
    {upage : Vaddr} {readBytes zeroBytes : UInt32} (h : Sound k) (ht : k.status t = .alive)
    (hexe : k.executable t = some file) (hR : ∀ i < rounds, R.enters t (pageAt upage i))
    (hloop : loadSegmentLoop env t file writable n rounds ofs upage readBytes zeroBytes k =
      (true, m, k')) : Changes R k k' := by
  induction rounds generalizing n ofs upage readBytes zeroBytes k with
  | zero =>
      cases hloop
      exact .refl _
  | succ rounds ih =>
      unfold loadSegmentLoop at hloop
      by_cases hmore : readBytes > 0 ∨ zeroBytes > 0
      · rw [if_pos hmore] at hloop
        dsimp only at hloop
        rcases hadd : addFilePageTbl env n k t file ofs upage
          (if readBytes < 4096 then readBytes else 4096)
          (4096 - if readBytes < 4096 then readBytes else 4096) writable with ⟨added, k₁⟩
        rw [hadd] at hloop
        cases added with
        | false => cases hloop
        | true =>
            have hfirst := hR 0 (by omega)
            rw [pageAt_zero] at hfirst
            have hchange := addFilePageTbl_changes h ht hexe (pageBytes_add readBytes) hfirst hadd
            refine hchange.trans (ih (h.changes hchange) ?_ ?_ ?_ hloop)
            · rw [hchange.status]
              exact ht
            · rw [hchange.executable]
              exact hexe
            · intro i hi
              rw [pageAt_succ]
              exact hR (i + 1) (by omega)
      · rw [if_neg hmore] at hloop
        cases hloop
        exact .refl _

theorem loadSegments_changes {file : FilePtr} {m : ℕ} {segments : List Segment} (h : Sound k)
    (ht : k.status t = .alive) (hexe : k.executable t = some file)
    (hR : ∀ s ∈ segments, ∀ i < s.pages, R.enters t (pageAt s.upage i))
    (hload : loadSegments env t file n segments k = .ok (true, m, k')) : Changes R k k' := by
  induction segments generalizing n k with
  | nil =>
      cases hload
      exact .refl _
  | cons s rest ih =>
      unfold loadSegments at hload
      rcases Lts.bind_eq_ok.mp hload with ⟨⟨b, n₁, k₁⟩, hseg, hrest⟩
      cases b with
      | false => cases hrest
      | true =>
          unfold loadSegment at hseg
          split at hseg
          next => cases hseg
          next =>
            split at hseg
            next => cases hseg
            next =>
              split at hseg
              next => cases hseg
              next =>
                have hloop := Except.ok.inj hseg
                have hchange := loadSegmentLoop_changes h ht hexe (hR s List.mem_cons_self) hloop
                refine hchange.trans (ih (h.changes hchange) ?_ ?_ ?_ hrest)
                · rw [hchange.status]
                  exact ht
                · rw [hchange.executable]
                  exact hexe
                · intro s' hs'
                  exact hR s' (List.mem_cons_of_mem s hs')

/-- Opening the executable and denying writes to it start the process. -/
theorem fileDenyWrite_opened {exe : Inode} {file : FilePtr}
    (hopen : fileOpen env (initThread k t) exe = (some file, k₁)) :
    ∃ k₂, fileDenyWrite k₁ file = .ok k₂ ∧
      { k₂ with executable := Function.update k₂.executable t (some file) } =
        startProcess k t file exe := by
  obtain ⟨-, rfl⟩ := fileOpen_some hopen
  refine ⟨_, Lts.bind_eq_ok.mpr ⟨_, congrArg deref (AList.lookup_insert _), rfl⟩, ?_⟩
  unfold startProcess
  dsimp only
  rw [AList.insert_insert]
  unfold initThread
  dsimp only
  rw [Function.update_idem]

/-- What a `load` that succeeds consists of: the file is opened, the pages of the segments
are added, and the thread gets a first page of stack. -/
theorem load_iff {exe : Inode} {segments : List Segment} :
    load env k t exe segments = .ok k' ↔ env.pagedirCreate = true ∧
      ∃ file k₀ n k₁, fileOpen env (initThread k t) exe = (some file, k₀) ∧
        loadSegments env t file 0 segments (startProcess k t file exe) = .ok (true, n, k₁) ∧
        stackGrowth env n k₁ t (physBase - 4096) = .ok (true, k') := by
  unfold load
  cases env.pagedirCreate with
  | false => exact ⟨nofun, fun h => absurd h.1 (by decide)⟩
  | true =>
      rw [if_neg (by decide), and_iff_right rfl]
      rcases hopen : fileOpen env (initThread k t) exe with ⟨opened, k₀⟩
      cases opened with
      | none => exact ⟨nofun, by rintro ⟨_, _, _, _, h, -⟩; cases h⟩
      | some file =>
          obtain ⟨k₂, hdeny, hstart⟩ := fileDenyWrite_opened hopen
          constructor
          · intro h
            obtain ⟨k₃, hdeny', h⟩ := Lts.bind_eq_ok.mp h
            obtain rfl := Except.ok.inj (hdeny.symm.trans hdeny')
            obtain ⟨⟨b, n, k₁⟩, hsegments, h⟩ := Lts.bind_eq_ok.mp h
            cases b with
            | false => cases h
            | true =>
                obtain ⟨⟨b, k₃⟩, hgrow, h⟩ := Lts.bind_eq_ok.mp h
                cases b with
                | false => cases h
                | true =>
                    cases h
                    rw [hstart] at hsegments
                    exact ⟨file, k₀, n, k₁, rfl, hsegments, hgrow⟩
          · rintro ⟨file', k₃, n, k₁, heq, hsegments, hgrow⟩
            cases heq
            rw [← hstart] at hsegments
            refine Lts.bind_eq_ok.mpr ⟨k₂, hdeny, Lts.bind_eq_ok.mpr ⟨_, hsegments, ?_⟩⟩
            exact Lts.bind_eq_ok.mpr ⟨_, hgrow, rfl⟩

/-- It starts the process in a state that is sound. -/
theorem load_cases {exe : Inode} {segments : List Segment} (h : Sound k) (hx : NoneExiting k)
    (ht : k.status t = .absent) (hload : load env k t exe segments = .ok k') :
    ∃ file n k₂, file ∉ k.files ∧ Sound (startProcess k t file exe) ∧
      NoneExiting (startProcess k t file exe) ∧
      loadSegments env t file 0 segments (startProcess k t file exe) = .ok (true, n, k₂) ∧
      stackGrowth env n k₂ t (physBase - 4096) = .ok (true, k') := by
  obtain ⟨-, file, k₀, n, k₂, hopen, hsegments, hgrow⟩ := load_iff.mp hload
  obtain ⟨hnew, -⟩ := fileOpen_some hopen
  refine ⟨file, n, k₂, hnew, h.start ht hnew, fun u => ?_, hsegments, hgrow⟩
  show Function.update k.status t .alive u ≠ _
  by_cases hu : u = t
  · rw [hu, Function.update_self]
    decide
  · rw [Function.update_of_ne hu]
    exact hx u

/-- A `load` that succeeds starts the process, adds the pages of its segments
and gives it a first page of stack. -/
theorem load_ok {exe : Inode} {segments : List Segment} (h : Sound k) (hx : NoneExiting k)
    (ht : k.status t = .absent)
    (hR : ∀ s ∈ segments, ∀ i < s.pages, R.enters t (pageAt s.upage i))
    (hstackR : R.enters t (physBase - 4096)) (hload : load env k t exe segments = .ok k') :
    ∃ file, file ∉ k.files ∧ Changes R (startProcess k t file exe) k' := by
  rcases load_cases h hx ht hload with ⟨file, n, k₂, hnew, h₀, hx₀, hsegments, hgrow⟩
  have ht₀ : (startProcess k t file exe).status t = .alive := Function.update_self ..
  have hc := loadSegments_changes h₀ ht₀ (Function.update_self ..) hR hsegments
  refine ⟨file, hnew, hc.trans (stackGrowth_changes (h₀.changes hc) ?_ ?_ hgrow (.inl rfl)
    fun _ => hstackR)⟩
  · intro u
    rw [hc.status]
    exact hx₀ u
  · rw [hc.status]
    exact ht₀

end Pintos.Vm
