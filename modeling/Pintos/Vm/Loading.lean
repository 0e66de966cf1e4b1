import Mathlib.Data.List.Find
import Pintos.Vm.Sound

/-! # Allocating frames and loading pages

`evict_frame`, `frame_alloc`, `load_file`, `load_swap`, `load_page` and
`stack_growth` as sequences of changes. What they do to pages other than the
one they load is summed up in `Evicts`.
-/

namespace Pintos.Vm

variable {k k' k₁ k₂ : Kernel} {t : Tid} {p q : Ptr} {e e' : Spte} {fte : FrameTblEnt}
  {frame : Frame} {page : Page} {env : Env} {zero : Bool}
  {R : Scope}

/-- No process is inside `process_exit`. -/
def NoneExiting (k : Kernel) : Prop := ∀ t, k.status t ≠ .exiting

/-- Changes leave every process where it is. -/
theorem NoneExiting.changes (hx : NoneExiting k) (hc : Changes R k k') : NoneExiting k' := by
  intro u
  rw [hc.status]
  exact hx u

/-! ## Evictions -/

theorem Spte.Reshaped.trans {e'' : Spte} (h₁ : e.Reshaped e') (h₂ : e'.Reshaped e'') :
    e.Reshaped e'' where
  address := h₂.address.trans h₁.address
  file := h₂.file.trans h₁.file
  offset := h₂.offset.trans h₁.offset
  readBytes := h₂.readBytes.trans h₁.readBytes
  zeroBytes := h₂.zeroBytes.trans h₁.zeroBytes
  type := by
    rcases h₁.type with hty₁ | ⟨hm, herr, hty₁⟩
    · rw [← hty₁]
      exact h₂.type
    · rcases h₂.type with hty₂ | ⟨_, _, hty₂⟩
      · exact .inr ⟨hm, herr, hty₂.trans hty₁⟩
      · exact .inr ⟨hm, herr, hty₂⟩
  error := by
    intro hty
    rcases h₁.type with hty₁ | ⟨_, herr, _⟩
    · exact (h₂.error (hty₁.trans hty)).trans (h₁.error hty)
    · exact absurd hty herr

theorem Reshapes.unused (h : Reshapes k k') (hp : Unused k p) : Unused k' p :=
  ⟨h.spt ▸ hp.spt, h.mmapList ▸ hp.mmap⟩

theorem Reshapes.refl (k : Kernel) : Reshapes k k :=
  .of_sptes rfl rfl rfl rfl rfl rfl rfl rfl rfl

theorem Reshapes.trans (h₁ : Reshapes k k₁) (h₂ : Reshapes k₁ k₂) : Reshapes k k₂ where
  status := h₂.status.trans h₁.status
  spt := h₂.spt.trans h₁.spt
  mmapList := h₂.mmapList.trans h₁.mmapList
  mapid := h₂.mapid.trans h₁.mapid
  fileList := h₂.fileList.trans h₁.fileList
  fd := h₂.fd.trans h₁.fd
  executable := h₂.executable.trans h₁.executable
  files := h₂.files.trans h₁.files
  sptes := by
    intro p hp
    have hp₁ : ¬ Unused k₁ p := fun hun => hp ⟨h₁.spt ▸ hun.spt, h₁.mmapList ▸ hun.mmap⟩
    have hrel₁ := h₁.sptes p hp
    have hrel₂ := h₂.sptes p hp₁
    cases h : k.sptes p with
    | none =>
        rw [h] at hrel₁
        generalize k₁.sptes p = o₁ at hrel₁ hrel₂
        cases hrel₁
        generalize k₂.sptes p = o₂ at hrel₂ ⊢
        cases hrel₂
        exact .none
    | some e =>
        rw [h] at hrel₁
        generalize k₁.sptes p = o₁ at hrel₁ hrel₂
        cases hrel₁ with
        | some hre₁ =>
            generalize k₂.sptes p = o₂ at hrel₂ ⊢
            cases hrel₂ with
            | some hre₂ => exact .some (hre₁.trans hre₂)

/-- `k'` differs from `k` by evictions and by accessed bits. -/
structure Evicts (k k' : Kernel) : Prop where
  changes : ∀ R, Changes R k k'
  reshapes : Reshapes k k'
  sptes : ∀ p, (∀ fte ∈ k.frameTblList, fte.spte ≠ p) → k'.sptes p = k.sptes p
  sub : k'.frameTblList ⊆ k.frameTblList

namespace Evicts

theorem refl (k : Kernel) : Evicts k k :=
  ⟨fun _ => .refl k, .refl k, fun _ _ => rfl, fun _ hfte => hfte⟩

theorem trans (h₁ : Evicts k k₁) (h₂ : Evicts k₁ k₂) : Evicts k k₂ where
  changes := fun R => (h₁.changes R).trans (h₂.changes R)
  reshapes := h₁.reshapes.trans h₂.reshapes
  sptes := fun p hp =>
    (h₂.sptes p fun fte hfte => hp fte (h₁.sub hfte)).trans (h₁.sptes p hp)
  sub := fun _ hfte => h₁.sub (h₂.sub hfte)

/-- The second chance of a page. -/
theorem setAccessed (k : Kernel) (t : Tid) (va : Vaddr) (accessed : Bool) :
    Evicts k (pagedirSetAccessed k t va accessed) := by
  unfold pagedirSetAccessed
  cases hpte : k.pteOf t va with
  | none => exact .refl k
  | some pte =>
      exact ⟨fun _ => .single (.access accessed hpte), .of_sptes rfl rfl rfl rfl rfl rfl rfl rfl rfl,
        fun _ _ => rfl, fun _ hfte => hfte⟩

theorem evictPage (h : Sound k) (hx : NoneExiting k) (hfte : fte ∈ k.frameTblList)
    (he : k.sptes fte.spte = some e) (hpin : e.pinned = false)
    (hev : Vm.evictPage k fte e = .ok k') : Evicts k k' := by
  unfold Vm.evictPage at hev
  rcases Lts.bind_eq_ok.mp hev with ⟨⟨e', k₁⟩, hs, hrest⟩
  cases hrest
  have hc : ∀ R, Changes R k (unmapPage k₁ fte { e' with isLoaded := false }) :=
    fun _ => .single (.evict hfte he (.inl (hx _)) hs (.inl hpin))
  have hr := h.evict_reshapes hfte he hs
  rcases (saved_of_savePage hs).frame with ⟨swap, inodes, rfl⟩
  exact ⟨hc, hr, fun q hq => Function.update_of_ne (fun heq => hq fte hfte heq.symm) ..,
    fun _ hm => List.mem_of_mem_erase hm⟩

end Evicts

/-- The loop of `evict_frame` starts again at the end of the table. -/
theorem nextRound_subset {rest : List FrameTblEnt} (hl : fte :: rest ⊆ k.frameTblList) :
    (if rest = [] then k.frameTblList else rest) ⊆ k.frameTblList := by
  split
  · exact fun _ hm => hm
  · exact fun _ hm => hl (List.mem_cons_of_mem fte hm)

theorem setAccessed_frameTblList {va : Vaddr} {accessed : Bool} :
    (pagedirSetAccessed k t va accessed).frameTblList = k.frameTblList := by
  unfold pagedirSetAccessed
  split <;> rfl

theorem evictLoop_evicts {n : ℕ} {l : List FrameTblEnt} (h : Sound k) (hx : NoneExiting k)
    (hl : l ⊆ k.frameTblList) (hloop : evictLoop n l k = .ok k') : Evicts k k' := by
  induction n generalizing l k with
  | zero => cases hloop
  | succ n ih =>
      cases l with
      | nil => cases hloop
      | cons fte rest =>
          unfold evictLoop at hloop
          rcases Lts.bind_eq_ok.mp hloop with ⟨e, he, hbody⟩
          have he' := deref_ok he
          have hfte : fte ∈ k.frameTblList := hl List.mem_cons_self
          have hnext := nextRound_subset hl
          dsimp only at hbody
          by_cases hpin : e.pinned = true
          · -- a pinned page is skipped
            rw [if_pos hpin] at hbody
            exact ih h hx hnext hbody
          · rw [if_neg hpin] at hbody
            by_cases hacc : pagedirIsAccessed k fte.thread e.unusedVirtualAddress = true
            · -- the page was used and gets a second chance
              rw [if_pos hacc] at hbody
              have hset := Evicts.setAccessed k fte.thread e.unusedVirtualAddress false
              refine hset.trans (ih (h.changes (hset.changes .none)) ?_ ?_ hbody)
              · intro u
                rw [hset.reshapes.status]
                exact hx u
              · rw [setAccessed_frameTblList]
                exact hnext
            · rw [if_neg hacc] at hbody
              exact .evictPage h hx hfte he' (by simpa using hpin) hbody

/-! ## A frame is taken -/

/-- A free page is taken; `page` is what is in it. -/
def takeFrame (k : Kernel) (frame : Frame) (page : Page) : Kernel :=
  { k with freePages := k.freePages.erase frame, mem := Function.update k.mem frame page }

theorem pallocGetPage_ok (h : pallocGetPage env zero k = (some frame, k')) :
    frame ∈ k.freePages ∧ k' = takeFrame k frame (if zero then zeroPage else env.garbage) := by
  unfold pallocGetPage at h
  cases hf : k.freePages[env.pick % k.freePages.length]? with
  | none =>
      rw [hf] at h
      cases h
  | some f =>
      rw [hf] at h
      cases h
      exact ⟨List.mem_of_getElem? hf, rfl⟩

theorem pallocGetPage_none (h : pallocGetPage env zero k = (none, k')) : k' = k := by
  unfold pallocGetPage at h
  cases hf : k.freePages[env.pick % k.freePages.length]? with
  | none =>
      rw [hf] at h
      cases h
      rfl
  | some f =>
      rw [hf] at h
      cases h

/-- As long as there is a free page it is taken. -/
theorem pallocGetPage_room (hroom : k.freePages ≠ []) :
    ∃ f ∈ k.freePages, pallocGetPage env zero k =
      (some f, takeFrame k f (if zero then zeroPage else env.garbage)) := by
  have hpos : 0 < k.freePages.length := List.length_pos_iff.mpr hroom
  have hlt : env.pick % k.freePages.length < k.freePages.length := Nat.mod_lt _ hpos
  refine ⟨k.freePages[env.pick % k.freePages.length], List.getElem_mem hlt, ?_⟩
  unfold pallocGetPage
  rw [List.getElem?_eq_getElem hlt]
  rfl

/-- What `frame_alloc` does before the frame enters the table. -/
def Takes (env : Env) (zero : Bool) (k : Kernel) (frame : Frame) (k' : Kernel) : Prop :=
  ∃ k₁, Evicts k k₁ ∧ frame ∈ k₁.freePages ∧
    k' = takeFrame k₁ frame (if zero then zeroPage else env.garbage)

theorem evictUntilFree_takes {n : ℕ} (h : Sound k) (hx : NoneExiting k)
    (hloop : evictUntilFree env zero n k = .ok (frame, k')) : Takes env zero k frame k' := by
  induction n generalizing k with
  | zero => cases hloop
  | succ n ih =>
      unfold evictUntilFree at hloop
      rcases Lts.bind_eq_ok.mp hloop with ⟨⟨o, k₁⟩, hev, hrest⟩
      unfold evictFrame at hev
      rcases Lts.bind_eq_ok.mp hev with ⟨k₂, hl, hget⟩
      have hevicts := evictLoop_evicts h hx (fun _ hm => hm) hl
      have hget' : pallocGetPage env zero k₂ = (o, k₁) := Except.ok.inj hget
      cases o with
      | some f =>
          cases hrest
          rcases pallocGetPage_ok hget' with ⟨hfree, hk'⟩
          exact ⟨k₂, hevicts, hfree, hk'⟩
      | none =>
          have hk₁ := pallocGetPage_none hget'
          subst hk₁
          have hx₁ : NoneExiting k₁ := fun u => by
            rw [hevicts.reshapes.status]
            exact hx u
          rcases ih (h.changes (hevicts.changes .none)) hx₁ hrest with ⟨k₃, hev₃, hfree, hk'⟩
          exact ⟨k₃, hevicts.trans hev₃, hfree, hk'⟩

theorem frameGet_takes (h : Sound k) (hx : NoneExiting k)
    (hget : frameGet env zero k = .ok (frame, k')) : Takes env zero k frame k' := by
  unfold frameGet at hget
  rcases hp : pallocGetPage env zero k with ⟨o, k₁⟩
  rw [hp] at hget
  cases o with
  | some f =>
      cases hget
      rcases pallocGetPage_ok hp with ⟨hfree, hk'⟩
      exact ⟨k, .refl k, hfree, hk'⟩
  | none =>
      have hk₁ := pallocGetPage_none hp
      subst hk₁
      exact evictUntilFree_takes h hx hget

/-- The state after `frame_alloc`: the frame is in the table, but no page
directory knows it yet. -/
def holdFrame (k : Kernel) (t : Tid) (p : Ptr) (frame : Frame) (page : Page) : Kernel :=
  { takeFrame k frame page with
    frameTblList := k.frameTblList ++ [{ frame := frame, thread := t, spte := p }] }

theorem frameAlloc_ok (h : Sound k) (hx : NoneExiting k)
    (halloc : frameAlloc env zero k t p = .ok (frame, k')) :
    ∃ k₁, Evicts k k₁ ∧ frame ∈ k₁.freePages ∧
      k' = holdFrame k₁ t p frame (if zero then zeroPage else env.garbage) := by
  unfold frameAlloc at halloc
  rcases Lts.bind_eq_ok.mp halloc with ⟨⟨f, k₁⟩, hget, hrest⟩
  rcases Lts.bind_eq_ok.mp hrest with ⟨k₂, hadd, hret⟩
  cases hret
  rcases frameGet_takes h hx hget with ⟨k₃, hev, hfree, rfl⟩
  refine ⟨k₃, hev, hfree, ?_⟩
  unfold addFrameToTbl at hadd
  by_cases hm : env.mallocFte = true
  · rw [if_pos hm] at hadd
    cases hadd
    rfl
  · rw [if_neg hm] at hadd
    cases hadd

/-- Taking the frame back leaves the free pages as they were, in another order. -/
theorem freeFrame_holdFrame (h : Sound k) (hf : frame ∈ k.freePages) :
    freeFrame (holdFrame k t p frame page) (some frame) =
      { k with freePages := frame :: k.freePages.erase frame
               mem := Function.update k.mem frame page } := by
  have hnew : ∀ fte ∈ k.frameTblList, fte.frame ≠ frame := by
    intro fte hfte heq
    exact h.tables.frame_not_free hfte (heq ▸ hf)
  have hnotMem : FrameTblEnt.mk frame t p ∉ k.frameTblList := fun hm => hnew _ hm rfl
  have hfind : (holdFrame k t p frame page).frameTblList.find?
      (fun fte => some fte.frame = some frame) = some (FrameTblEnt.mk frame t p) := by
    show (k.frameTblList ++ [FrameTblEnt.mk frame t p]).find? _ = _
    rw [List.find?_append, List.find?_eq_none.mpr]
    · simp
    · intro fte hfte
      simpa using hnew fte hfte
  unfold freeFrame
  rw [hfind]
  show { k with
      freePages := frame :: k.freePages.erase frame
      mem := Function.update k.mem frame page
      frameTblList := (k.frameTblList ++ [FrameTblEnt.mk frame t p]).erase
        (FrameTblEnt.mk frame t p) } = _
  rw [List.erase_append_right _ hnotMem]
  simp

/-- A page that could not be loaded leaves the frame free. -/
theorem changes_of_freed (h : Sound k) (hf : frame ∈ k.freePages) :
    Changes R k (freeFrame (holdFrame k t p frame page) (some frame)) := by
  rw [freeFrame_holdFrame h hf]
  refine .single (.free (List.perm_cons_erase hf).symm ?_)
  intro f hne
  refine Function.update_of_ne ?_ ..
  rintro rfl
  exact hne hf

/-! ## A page is loaded -/

/-- A page that is not loaded is not present. -/
theorem Tables.pteOf_none (h : Tables k) (he : Entry k t p e) (hl : e.isLoaded = false) :
    k.pteOf t e.unusedVirtualAddress = none := by
  cases hpte : k.pteOf t e.unusedVirtualAddress with
  | none => rfl
  | some pte =>
      rcases h.mapped t _ pte hpte with ⟨q, x, hx, haddr, hlx⟩
      exact absurd (h.addressUnique t q p x e hx he haddr) (he.ne_of_loaded hl hx hlx)

/-- Evictions do not touch a page that is not loaded. -/
theorem Evicts.entry (hev : Evicts k k₁) (h : Sound k) (he : Entry k t p e)
    (hl : e.isLoaded = false) : Entry k₁ t p e :=
  ⟨hev.reshapes.spt ▸ he.mem,
    (hev.sptes p fun _ hfte => h.tables.fte_ne_of_notLoaded he hl hfte).trans he.at_ptr⟩

theorem installPage_false {upage : Vaddr} {w : Bool}
    (h : installPage env k t upage frame w = (false, k')) : k' = k := by
  unfold installPage pagedirSetPage at h
  split at h
  next =>
    split at h
    next => cases h
    next =>
      cases h
      rfl
  next =>
    cases h
    rfl

theorem installPage_true {upage : Vaddr} {w : Bool}
    (h : installPage env k t upage frame w = (true, k')) :
    k' = k.setPte t upage
      { frame := frame, writable := w, accessed := false, dirty := false } := by
  unfold installPage pagedirSetPage at h
  split at h
  next =>
    split at h
    next =>
      cases h
      rfl
    next => cases h
  next => cases h

/-- The frame is filled from the file, or left as it is and given back. -/
theorem readPage_ok {b : Bool} (hsize : e.readBytes.toNat + e.zeroBytes.toNat = pgSize)
    (hzero : e.readBytes.toNat = 0 → k.mem frame = zeroPage)
    (h : readPage k frame e = .ok (b, k')) :
    ∃ page, k' = { k with mem := Function.update k.mem frame page } ∧
      (b = true → page = filePage k e) := by
  unfold readPage at h
  by_cases hr : e.readBytes.toNat = 0
  · rw [if_pos hr] at h
    cases h
    -- a page of zeros only is not read: it was allocated as one
    refine ⟨k.mem frame, ?_, ?_⟩
    · rw [Function.update_eq_self]
    · intro _
      rw [hzero hr]
      funext b
      unfold filePage zeroPage
      rw [if_neg (by omega)]
  · rw [if_neg hr] at h
    rcases Lts.bind_eq_ok.mp h with ⟨⟨count, page⟩, hread, hrest⟩
    unfold fileReadAt at hread
    rcases Lts.bind_eq_ok.mp hread with ⟨o, ho, hret⟩
    have hlook := deref_ok ho
    have hpair := Except.ok.inj hret
    rw [Prod.mk.injEq] at hpair
    rcases hpair with ⟨hcount, hpage⟩
    dsimp only at hrest
    by_cases hc : count = e.readBytes.toNat
    · rw [if_pos hc] at hrest
      cases hrest
      -- what was read, and `memset` after it
      refine ⟨_, rfl, ?_⟩
      intro _
      funext b
      have hb : b.val < pgSize := b.isLt
      unfold memsetZero filePage
      rw [hlook, ← hpage, hcount, hc]
      by_cases hlt : b.val < e.readBytes.toNat
      · rw [if_neg (by omega), if_pos hlt]
        exact if_pos hlt
      · rw [if_pos (by omega), if_neg hlt]
    · rw [if_neg hc] at hrest
      cases hrest
      exact ⟨page, rfl, fun hb => by cases hb⟩

/-- `load_file` evicts pages and takes a frame, which it gives back or fills from the file
and maps. -/
theorem loadFile_cases {b : Bool} (h : Sound k) (hx : NoneExiting k) (he : Entry k t p e)
    (hl : e.isLoaded = false) (hty : e.type = .file ∨ e.type = .mmap)
    (hload : loadFile env k t p = .ok (b, k')) :
    ∃ k₁ frame, Evicts k k₁ ∧ frame ∈ k₁.freePages ∧ Entry k₁ t p e ∧
      (b = false ∧ (∃ page, k' = freeFrame (holdFrame k₁ t p frame page) (some frame)) ∨
        b = true ∧ k' = mapPage k₁ t p e frame (filePage k₁ e) false) := by
  unfold loadFile at hload
  rcases Lts.bind_eq_ok.mp hload with ⟨e₁, he₁, hload⟩
  have hee : e₁ = e := Option.some.inj ((deref_ok he₁).symm.trans he.at_ptr)
  subst hee
  rcases Lts.bind_eq_ok.mp hload with ⟨⟨frame, k₂⟩, halloc, hload⟩
  rcases frameAlloc_ok h hx halloc with ⟨k₁, hev, hfree, rfl⟩
  have h₁ : Sound k₁ := h.changes (hev.changes .none)
  have hent : Entry k₁ t p e₁ := hev.entry h he hl
  refine ⟨k₁, frame, hev, hfree, hent, ?_⟩
  rcases Lts.bind_eq_ok.mp hload with ⟨e₂, he₂, hload⟩
  have hee : e₂ = e₁ := Option.some.inj ((deref_ok he₂).symm.trans hent.at_ptr)
  subst hee
  rcases Lts.bind_eq_ok.mp hload with ⟨⟨b₁, k₃⟩, hread, hload⟩
  have hsize := h₁.handles.sizes t p e₂ hent hty
  -- nothing is read into a page without bytes of the file, which `PAL_ZERO` has cleared
  have hzero : e₂.readBytes.toNat = 0 →
      (holdFrame k₁ t p frame (if decide (e₂.readBytes.toNat = 0) then zeroPage
        else env.garbage)).mem frame = zeroPage := by
    intro hr
    show Function.update k₁.mem frame _ frame = zeroPage
    rw [Function.update_self, if_pos (decide_eq_true hr)]
  rcases readPage_ok hsize hzero hread with ⟨page, rfl, hpage⟩
  -- filling the frame is as good as taking it with these contents
  have hfilled : ∀ X, { holdFrame k₁ t p frame X with
      mem := Function.update (holdFrame k₁ t p frame X).mem frame page } =
      holdFrame k₁ t p frame page := by
    intro X
    show { holdFrame k₁ t p frame page with
      mem := Function.update (Function.update k₁.mem frame X) frame page } = _
    rw [Function.update_idem]
    rfl
  rw [hfilled] at hload
  cases b₁ with
  | false =>
      cases hload
      exact .inl ⟨rfl, page, rfl⟩
  | true =>
      dsimp only at hload
      rcases hinst : installPage env (holdFrame k₁ t p frame page) t e₂.unusedVirtualAddress frame
        e₂.writable with ⟨b₂, k₄⟩
      rw [hinst] at hload
      cases b₂ with
      | false =>
          cases hload
          rw [installPage_false hinst]
          exact .inl ⟨rfl, page, rfl⟩
      | true =>
          cases hload
          rw [installPage_true hinst]
          have hp : page = filePage k₁ e₂ := hpage rfl
          rw [hp]
          exact .inr ⟨rfl, rfl⟩

theorem loadFile_changes {b : Bool} (h : Sound k) (hx : NoneExiting k) (he : Entry k t p e)
    (hl : e.isLoaded = false) (hty : e.type = .file ∨ e.type = .mmap)
    (hload : loadFile env k t p = .ok (b, k')) : Changes R k k' := by
  rcases loadFile_cases h hx he hl hty hload with
    ⟨k₁, frame, hev, hfree, hent, ⟨-, page, rfl⟩ | ⟨-, rfl⟩⟩
  · exact (hev.changes R).trans (changes_of_freed (h.changes (hev.changes R)) hfree)
  · have h₁ : Sound k₁ := h.changes (hev.changes R)
    exact (hev.changes R).tail (.readIn hent hl hty hfree (h₁.tables.pteOf_none hent hl))

/-- A page filled through its page directory entry. -/
theorem storeUserPage_ok {upage : Vaddr} {pte : Pte} (hpte : k.pteOf t upage = some pte)
    (h : storeUserPage k t upage page = .ok k') :
    pte.writable = true ∧
      k' = (k.setMem pte.frame page).setPte t upage { pte with accessed := true, dirty := true } := by
  unfold storeUserPage at h
  rcases Lts.bind_eq_ok.mp h with ⟨pte', hd, hrest⟩
  have heq : pte' = pte := Option.some.inj ((deref_ok hd).symm.trans hpte)
  subst heq
  by_cases hw : pte'.writable = true
  · rw [if_pos hw] at hrest
    cases hrest
    exact ⟨hw, rfl⟩
  · rw [if_neg hw] at hrest
    cases hrest

/-- `swap_in` into a frame that has just been installed. -/
theorem swapIn_ok {va : Vaddr} {pte : Pte} {index : ℕ} {X : Page} (hframe : pte.frame = frame)
    (h : swapIn ((holdFrame k t p frame X).setPte t va pte) t index va = .ok k') :
    k.swap = none ∧ k' = (holdFrame k t p frame X).setPte t va pte ∨
    ∃ s, k.swap = some s ∧ s.map[index]? = some true ∧
      k' = (holdFrame (releaseSlot k s index) t p frame (blockReadPage s.disk index)).setPte t va
        { pte with accessed := true, dirty := true } := by
  subst hframe
  unfold swapIn at h
  have hswap : ((holdFrame k t p pte.frame X).setPte t va pte).swap = k.swap := rfl
  rw [hswap] at h
  cases hs : k.swap with
  | none =>
      rw [hs] at h
      cases h
      exact .inl ⟨rfl, rfl⟩
  | some s =>
      rw [hs] at h
      dsimp only at h
      cases hidx : s.map[index]? with
      | none =>
          rw [hidx] at h
          cases h
      | some inUse =>
          rw [hidx] at h
          cases inUse with
          | false => cases h
          | true =>
              have hpte : ({ (holdFrame k t p pte.frame X).setPte t va pte with
                  swap := some (s.setSlot index false) } : Kernel).pteOf t va = some pte := by
                show AList.lookup va (Function.update k.pagedir t _ t) = _
                rw [Function.update_self, AList.lookup_insert]
              rcases storeUserPage_ok hpte h with ⟨_, rfl⟩
              refine .inr ⟨s, rfl, hidx, ?_⟩
              -- the second entry replaces the first, and so do the contents
              have hmem : Function.update (Function.update k.mem pte.frame X) pte.frame
                  (blockReadPage s.disk index) =
                  Function.update k.mem pte.frame (blockReadPage s.disk index) :=
                Function.update_idem ..
              have hdir : ∀ pte' : Pte,
                  Function.update (Function.update k.pagedir t ((k.pagedir t).insert va pte)) t
                    ((Function.update k.pagedir t ((k.pagedir t).insert va pte) t).insert va pte') =
                  Function.update k.pagedir t ((k.pagedir t).insert va pte') := by
                intro pte'
                rw [Function.update_self, Function.update_idem, AList.insert_insert]
              unfold Kernel.setPte Kernel.setMem holdFrame takeFrame releaseSlot
              dsimp only
              rw [hmem, hdir]

/-- `load_swap` evicts pages and reads the page back, or fails. -/
theorem loadSwap_changes {b : Bool} (h : Sound k) (hx : NoneExiting k) (he : Entry k t p e)
    (hl : e.isLoaded = false) (hty : e.type = .swap) (ht : k.status t = .alive)
    (hload : loadSwap env k t p = .ok (b, k')) : Changes R k k' := by
  unfold loadSwap at hload
  rcases Lts.bind_eq_ok.mp hload with ⟨⟨frame, k₂⟩, halloc, hload⟩
  rcases frameAlloc_ok h hx halloc with ⟨k₁, hev, hfree, rfl⟩
  have h₁ : Sound k₁ := h.changes (hev.changes R)
  have hent : Entry k₁ t p e := hev.entry h he hl
  have hpte := h₁.tables.pteOf_none hent hl
  rcases Lts.bind_eq_ok.mp hload with ⟨e₁, he₁, hload⟩
  have hee : e₁ = e := Option.some.inj ((deref_ok he₁).symm.trans hent.at_ptr)
  subst hee
  generalize (if false = true then zeroPage else env.garbage) = X at hload
  rcases hinst : installPage env (holdFrame k₁ t p frame X) t e₁.unusedVirtualAddress frame
    e₁.writable with ⟨b₂, k₃⟩
  rw [hinst] at hload
  cases b₂ with
  | false =>
      cases hload
      rw [installPage_false hinst]
      exact (hev.changes R).trans (changes_of_freed h₁ hfree)
  | true =>
      rcases Lts.bind_eq_ok.mp hload with ⟨k₄, hin, hret⟩
      cases hret
      rw [installPage_true hinst] at hin
      have ht₁ : k₁.status t = .alive := by
        rw [(hev.changes R).status]
        exact ht
      rcases swapIn_ok rfl hin with ⟨hs, rfl⟩ | ⟨s, hs, hidx, rfl⟩
      · exact (hev.changes R).tail (.swapInNothing X hent hl hty hfree hpte ht₁ hs)
      · exact (hev.changes R).tail (.swapIn hent hl hty hfree hpte ht₁ hs hidx)

/-- `load_page`. -/
theorem loadPage_changes {b : Bool} (h : Sound k) (hx : NoneExiting k) (he : Entry k t p e)
    (ht : k.status t = .alive) (hload : loadPage env k t p = .ok (b, k')) : Changes R k k' := by
  unfold loadPage at hload
  rcases Lts.bind_eq_ok.mp hload with ⟨e₁, he₁, hload⟩
  have hee : e₁ = e := Option.some.inj ((deref_ok he₁).symm.trans he.at_ptr)
  subst hee
  set k₁ := k.setSpte p (some { e₁ with pinned := true }) with hk₁
  have hpin : Changes R k k₁ := .single (.pin true he.at_ptr fun hf => by cases hf)
  have h₁ : Sound k₁ := h.changes hpin
  have hent : Entry k₁ t p { e₁ with pinned := true } := ⟨he.mem, Function.update_self ..⟩
  by_cases hl : e₁.isLoaded = true
  · rw [if_pos hl] at hload
    have heq : (false, k₁) = (b, k') := Except.ok.inj hload
    rw [← (Prod.mk.inj heq).2]
    exact hpin
  · rw [if_neg hl] at hload
    have hl' : e₁.isLoaded = false := by simpa using hl
    split at hload
    next hty => exact hpin.trans (loadFile_changes h₁ hx hent hl' (.inl hty) hload)
    next hty => exact hpin.trans (loadSwap_changes h₁ hx hent hl' hty ht hload)
    next hty => exact hpin.trans (loadFile_changes h₁ hx hent hl' (.inr hty) hload)
    next =>
      have heq : (false, k₁) = (b, k') := Except.ok.inj hload
      rw [← (Prod.mk.inj heq).2]
      exact hpin

/-! ## The stack grows -/

/-- An address `malloc` has just returned is not in use. -/
theorem Sound.unused (h : Sound k) (hp : k.sptes p = none) : Unused k p where
  spt := fun _ => h.tables.notMem_of_fresh hp
  mmap := by
    rintro t mm hmm rfl
    rcases h.mappings.entry t mm hmm with ⟨x, hx, _⟩
    rw [hp] at hx
    cases hx

theorem mallocSpte_some {n : ℕ} (hm : mallocSpte env n k = some p) : k.sptes p = none := by
  unfold mallocSpte at hm
  rcases Option.filter_eq_some_iff.mp hm with ⟨_, hnone⟩
  exact of_decide_eq_true hnone

/-- `hash_find` only looks at the addresses of the entries in the table. -/
theorem hashFind_congr {va : Vaddr} (hspt : k'.spt t = k.spt t)
    (haddr : ∀ q ∈ k.spt t, addressOf k' q = addressOf k q) :
    hashFind k' t va = hashFind k t va := by
  unfold hashFind
  rw [hspt]
  exact List.find?_congr fun q hq => by rw [haddr q hq]

/-- Reshaped entries keep their addresses. -/
theorem Reshapes.addressOf (h : Reshapes k k') (hp : p ∈ k.spt t) :
    addressOf k' p = addressOf k p := by
  have hrel := h.sptes p fun hun => hun.spt t hp
  unfold Vm.addressOf
  generalize k.sptes p = o at hrel ⊢
  generalize k'.sptes p = o' at hrel ⊢
  cases hrel with
  | none => rfl
  | some hre =>
      rw [Option.map_some, Option.map_some, hre.address]

theorem Reshapes.hashFind {va : Vaddr} (h : Reshapes k k') :
    hashFind k' t va = hashFind k t va :=
  hashFind_congr (by rw [h.spt]) fun _ hq => h.addressOf hq

theorem hashFind_setSpte {va : Vaddr} {o : Option Spte} (hp : p ∉ k.spt t) :
    hashFind (k.setSpte p o) t va = hashFind k t va := by
  refine hashFind_congr rfl ?_
  intro q hq
  have hne : q ≠ p := by
    rintro rfl
    exact hp hq
  unfold addressOf
  rw [show (k.setSpte p o).sptes q = k.sptes q from Function.update_of_ne hne ..]

/-- A page within the maximal size of the stack. -/
def StackPage (upage : Vaddr) : Prop := ¬ physBase - upage > maxStackSize

/-- The entry `stack_growth` makes. -/
def stackEntry (upage : Vaddr) : Spte where
  unusedVirtualAddress := upage
  type := .swap
  writable := true
  isLoaded := true
  pinned := true
  file := 0
  offset := 0
  readBytes := 0
  zeroBytes := 0
  swapIndex := 0

/-- `stack_growth` has made the entry at `p` and evicted pages, and `frame` is free. -/
structure Grows (k : Kernel) (upage : Vaddr) (p : Ptr) (k₁ : Kernel) (frame : Frame) : Prop where
  size : StackPage upage
  fresh : k.sptes p = none
  evicts : Evicts (k.setSpte p (some (stackEntry upage))) k₁
  free : frame ∈ k₁.freePages

namespace Grows

variable {upage : Vaddr}

theorem cell (hg : Grows k upage p k₁ frame) (h : Sound k) :
    Changes R k (k.setSpte p (some (stackEntry upage))) :=
  .single (.cell _ (h.unused hg.fresh))

theorem changes (hg : Grows k upage p k₁ frame) (h : Sound k) : Changes R k k₁ :=
  (hg.cell h).trans (hg.evicts.changes R)

theorem unused (hg : Grows k upage p k₁ frame) (h : Sound k) : Unused k₁ p := by
  have hp := h.unused hg.fresh
  exact hg.evicts.reshapes.unused ⟨hp.spt, hp.mmap⟩

/-- Nobody else knows the entry. -/
theorem entry (hg : Grows k upage p k₁ frame) (h : Sound k) :
    k₁.sptes p = some (stackEntry upage) := by
  have h₀ := h.changes (hg.cell (R := .none) h)
  rw [hg.evicts.sptes p fun fte hfte => h₀.tables.fte_ne_of_unused hfte (h.unused hg.fresh).spt]
  exact Function.update_self ..

theorem hashFind (hg : Grows k upage p k₁ frame) (h : Sound k) :
    Vm.hashFind k₁ t upage = Vm.hashFind k t upage :=
  hg.evicts.reshapes.hashFind.trans (hashFind_setSpte ((h.unused hg.fresh).spt t))

end Grows

/-- `stack_growth` fails at once; or it gives back the frame it has taken; or it maps the frame
as it is, and enters its entry if there is none for the page. -/
theorem stackGrowth_cases {n : ℕ} {va : Vaddr} {b : Bool} (h : Sound k) (hx : NoneExiting k)
    (hgrow : stackGrowth env n k t va = .ok (b, k')) :
    b = false ∧ k' = k ∨ ∃ p k₁ frame, Grows k (pgRoundDown va) p k₁ frame ∧
      (b = false ∧ k' = freeFrame (holdFrame (k₁.setSpte p none) t p frame env.garbage) (some frame) ∨
        b = false ∧ hashFind k t (pgRoundDown va) ≠ none ∧
          k' = mapPage k₁ t p (stackEntry (pgRoundDown va)) frame env.garbage false ∨
        b = true ∧ hashFind k t (pgRoundDown va) = none ∧
          k' = insertEntry (mapPage k₁ t p (stackEntry (pgRoundDown va)) frame env.garbage false) t p
            (pgRoundDown va) env.garbage) := by
  unfold stackGrowth at hgrow
  by_cases hsize : physBase - pgRoundDown va > maxStackSize
  · rw [if_pos hsize] at hgrow
    cases hgrow
    exact .inl ⟨rfl, rfl⟩
  · rw [if_neg hsize] at hgrow
    cases hm : mallocSpte env n k with
    | none =>
        rw [hm] at hgrow
        cases hgrow
        exact .inl ⟨rfl, rfl⟩
    | some p =>
        rw [hm] at hgrow
        rcases Lts.bind_eq_ok.mp hgrow with ⟨⟨frame, k₂⟩, halloc, hgrow⟩
        have hfresh := mallocSpte_some hm
        have hcell : Changes .none k (k.setSpte p (some (stackEntry (pgRoundDown va)))) :=
          .single (.cell _ (h.unused hfresh))
        rcases frameAlloc_ok (h.changes hcell) hx halloc with ⟨k₁, hev, hfree, rfl⟩
        have hg : Grows k (pgRoundDown va) p k₁ frame := ⟨hsize, hfresh, hev, hfree⟩
        refine .inr ⟨p, k₁, frame, hg, ?_⟩
        rcases hinst : installPage env (holdFrame k₁ t p frame env.garbage) t (pgRoundDown va) frame
          true with ⟨b₁, k₃⟩
        dsimp only at hgrow
        rw [show (if false = true then zeroPage else env.garbage) = env.garbage from rfl,
          hinst] at hgrow
        cases b₁ with
        | false =>
            cases hgrow
            rw [installPage_false hinst]
            exact .inl ⟨rfl, rfl⟩
        | true =>
            right
            have hins := Except.ok.inj hgrow
            rw [installPage_true hinst] at hins
            -- the state before `hash_insert`
            have hmapped : (holdFrame k₁ t p frame env.garbage).setPte t (pgRoundDown va)
                { frame := frame, writable := true, accessed := false, dirty := false } =
                mapPage k₁ t p (stackEntry (pgRoundDown va)) frame env.garbage false := by
              have hsame : k₁.sptes =
                  Function.update k₁.sptes p (some (stackEntry (pgRoundDown va))) := by
                rw [← hg.entry h, Function.update_eq_self]
              unfold mapPage
              rw [show ({ stackEntry (pgRoundDown va) with isLoaded := true } : Spte) =
                stackEntry (pgRoundDown va) from rfl, ← hsame]
              rfl
            have hmem : (mapPage k₁ t p (stackEntry (pgRoundDown va)) frame env.garbage false).mem
                frame = env.garbage := Function.update_self ..
            have hfind : hashFind (mapPage k₁ t p (stackEntry (pgRoundDown va)) frame env.garbage
                false) t (pgRoundDown va) = hashFind k t (pgRoundDown va) := by
              rw [← hg.hashFind h]
              exact hashFind_setSpte (k := k₁) ((hg.unused h).spt t)
            rw [hmapped, hmem] at hins
            unfold hashInsert at hins
            rw [hfind] at hins
            cases hnone : hashFind k t (pgRoundDown va) with
            | some q =>
                rw [hnone] at hins
                cases hins
                exact .inl ⟨rfl, nofun, rfl⟩
            | none =>
                rw [hnone] at hins
                cases hins
                exact .inr ⟨rfl, rfl, rfl⟩

/-- `stack_growth` for a page without an entry, or when it succeeds. -/
theorem stackGrowth_changes {n : ℕ} {va : Vaddr} {b : Bool} (h : Sound k) (hx : NoneExiting k)
    (ht : k.status t = .alive) (hgrow : stackGrowth env n k t va = .ok (b, k'))
    (hnew : b = true ∨ hashFind k t (pgRoundDown va) = none)
    (hR : StackPage (pgRoundDown va) → R.enters t (pgRoundDown va)) : Changes R k k' := by
  rcases stackGrowth_cases h hx hgrow with ⟨-, rfl⟩ | ⟨p, k₁, frame, hg, hcases⟩
  · exact .refl k'
  have h₁ : Sound k₁ := h.changes (hg.changes (R := R) h)
  have hp₁ := hg.unused h
  rcases hcases with ⟨-, rfl⟩ | ⟨rfl, hfound, -⟩ | ⟨-, hnone, rfl⟩
  · -- the entry and the frame are given back
    have hc : Changes R k₁ (k₁.setSpte p none) := .single (.cell none hp₁)
    exact ((hg.changes h).trans hc).trans (changes_of_freed (h₁.changes hc) hg.free)
  · exact absurd (hnew.resolve_left Bool.false_ne_true) hfound
  · have hfind : hashFind k₁ t (pgRoundDown va) = none := (hg.hashFind h).trans hnone
    have hpte : k₁.pteOf t (pgRoundDown va) = none := by
      cases hpte : k₁.pteOf t (pgRoundDown va) with
      | none => rfl
      | some pte =>
          rcases h₁.tables.mapped t _ pte hpte with ⟨q, x, hxq, haddr, _⟩
          exact absurd haddr (Tables.not_entry_of_hashFind hfind hxq)
    have ht₁ : k₁.status t = .alive := by
      rw [hg.evicts.reshapes.status]
      exact ht
    exact (hg.changes h).tail
      (.growStack env.garbage hp₁ (hg.entry h) rfl rfl hg.free hpte hfind ht₁ (hR hg.size))

end Pintos.Vm
