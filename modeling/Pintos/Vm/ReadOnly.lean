import Pintos.Vm.Contents
import Pintos.Vm.Permissions

/-! # Read-only pages never go to swap

A page that may not be written is never dirty, so that `evict_frame` does not swap it
out. `swap_in` stores through the page directory, which would fault for such a page.
-/

namespace Pintos.Vm

variable {k k' k₁ : Kernel} {t u : Tid} {p q : Ptr} {e x : Spte} {fte : FrameTblEnt}
  {frame : Frame} {page : Page} {m : Machine} {a : Act} {R : Scope} {env : Env} {n : ℕ}

/-- Only pages that may be written are of type `SWAP`, and only those are dirty. -/
structure ReadOnlyClean (k : Kernel) : Prop where
  swap : ∀ t p e, Entry k t p e → e.type = .swap → e.writable = true
  dirty : ∀ t va pte, k.pteOf t va = some pte → pte.dirty = true → pte.writable = true

namespace ReadOnlyClean

/-- Every entry of type `SWAP` and every dirty page was one before. -/
theorem congr (h : ReadOnlyClean k)
    (hentry : ∀ t p e, Entry k' t p e → e.type = .swap →
      e.writable = true ∨ ∃ x, Entry k t p x ∧ x.type = .swap ∧ x.writable = e.writable)
    (hpte : ∀ t va pte, k'.pteOf t va = some pte → pte.dirty = true →
      pte.writable = true ∨ k.pteOf t va = some pte) : ReadOnlyClean k' where
  swap := by
    intro t p e he hty
    rcases hentry t p e he hty with hw | ⟨x, hx, hswap, hw⟩
    · exact hw
    · exact hw ▸ h.swap t p x hx hswap
  dirty := by
    intro t va pte hat hd
    rcases hpte t va pte hat hd with hw | hold
    · exact hw
    · exact h.dirty t va pte hold hd

theorem same (h : ReadOnlyClean k) (hspt : k'.spt = k.spt) (hsptes : k'.sptes = k.sptes)
    (hpagedir : k'.pagedir = k.pagedir) : ReadOnlyClean k' := by
  refine h.congr (fun t p e he hty => .inr ⟨e, ⟨hspt ▸ he.mem, hsptes ▸ he.at_ptr⟩, hty, rfl⟩) ?_
  intro t va pte hpte _
  unfold Kernel.pteOf at hpte ⊢
  rw [hpagedir] at hpte
  exact .inr hpte

/-- The bits of a page are set; it becomes dirty only if it may be written. -/
theorem setPte {va : Vaddr} {pte pte' : Pte} (h : ReadOnlyClean k)
    (hpte : k.pteOf t va = some pte) (hw : pte'.writable = pte.writable)
    (hd : pte'.dirty = true → pte.dirty = true ∨ pte.writable = true) :
    ReadOnlyClean (k.setPte t va pte') := by
  refine h.congr (fun t p e he hty => .inr ⟨e, ⟨he.mem, he.at_ptr⟩, hty, rfl⟩) ?_
  intro u wa set hset hdirty
  rw [pteOf_setPte] at hset
  split at hset
  · cases hset
    rw [hw]
    rcases hd hdirty with hold | hwritable
    · exact .inl (h.dirty t va pte hpte hold)
    · exact .inl hwritable
  · exact .inr hset

/-- A page loses its frame; its entry is of type `SWAP` only if it may be written. -/
theorem unmap (h : ReadOnlyClean k) (hw : e.type = .swap → e.writable = true) :
    ReadOnlyClean (unmapPage k fte e) := by
  refine h.congr (fun u q x hx hty => ?_) fun u va pte hpte _ => ?_
  · rcases entry_update (k := k) (p := fte.spte) hx rfl rfl with ⟨-, -, heq⟩ | ⟨-, hold⟩
    · cases heq
      exact .inl (hw hty)
    · exact .inr ⟨x, hold, hty, rfl⟩
  · rw [pteOf_unmapPage] at hpte
    split at hpte
    · cases hpte
    · exact .inr hpte

/-- A page gets a frame; it is dirty at once only if it may be written. -/
theorem map {used : Bool} (h : ReadOnlyClean k) (he : Entry k t p e)
    (hw : used = true → e.writable = true) :
    ReadOnlyClean (mapPage k t p e frame page used) := by
  refine h.congr (fun u q x hx hty => ?_) fun u va pte hpte hd => ?_
  · rcases entry_update (k := k) (p := p) hx rfl rfl with ⟨rfl, hmem, heq⟩ | ⟨-, hold⟩
    · cases heq
      exact .inr ⟨e, ⟨hmem, he.at_ptr⟩, hty, rfl⟩
    · exact .inr ⟨x, hold, hty, rfl⟩
  · rw [pteOf_mapPage] at hpte
    split at hpte
    · cases hpte
      exact .inl (hw hd)
    · exact .inr hpte

/-- What `evict_frame` swaps out may be written. -/
theorem saved {e' : Spte} (h : ReadOnlyClean k) (hp : Permits k) (he : Entry k t fte.spte e)
    (ht : fte.thread = t) (hs : Saved k fte e e' k') : e'.type = .swap → e'.writable = true := by
  subst ht
  cases hs with
  | clean hd hty => exact fun hno => absurd hno hty
  | written hd hty ho =>
      intro hno
      rw [hty] at hno
      cases hno
  | swapped hd hty hs hfree =>
      intro _
      show e.writable = true
      rcases hd with hd | hswap
      · unfold pagedirIsDirty at hd
        cases hpte : k.pteOf fte.thread e.unusedVirtualAddress with
        | none =>
            rw [hpte] at hd
            cases hd
        | some pte =>
            rw [hpte] at hd
            rw [← hp _ _ e he pte hpte]
            exact h.dirty _ _ pte hpte hd
      · exact h.swap _ _ e he hswap

/-- A change that makes no new entries. -/
theorem change (h : ReadOnlyClean k) (hk : Sound k) (hp : Permits k)
    (hR : ∀ u va, ¬ R.enters u va) (hc : Change R k k') : ReadOnlyClean k' := by
  cases hc with
  | access accessed hpte => exact h.setPte hpte rfl .inl
  | @pin p y pinned hy =>
      refine h.congr (fun u q x hx hty => ?_) fun _ _ _ hpte _ => .inr hpte
      rcases entry_update (k := k) (p := p) hx rfl rfl with ⟨rfl, hmem, heq⟩ | ⟨-, hold⟩
      · cases heq
        exact .inr ⟨y, ⟨hmem, hy⟩, hty, rfl⟩
      · exact .inr ⟨x, hold, hty, rfl⟩
  | @cell p o hun =>
      refine h.congr (fun u q x hx hty => ?_) fun _ _ _ hpte _ => .inr hpte
      rcases entry_update (k := k) (p := p) hx rfl rfl with ⟨-, hmem, -⟩ | ⟨-, hold⟩
      · exact absurd hmem (hun.spt u)
      · exact .inr ⟨x, hold, hty, rfl⟩
  | @evict fte y y' k₁ hfte hy hstatus hs =>
      obtain ⟨x, -, hx, -⟩ := hk.tables.resident fte hfte
      obtain rfl := hx.eq_of_at hy
      have hw := h.saved hp hx rfl (saved_of_savePage hs)
      obtain ⟨swap, inodes, rfl⟩ := (saved_of_savePage hs).frame
      have h₁ : ReadOnlyClean { k with swap := swap, inodes := inodes } := h.same rfl rfl rfl
      exact h₁.unmap hw
  | @discard fte y hfte hy =>
      obtain ⟨x, -, hx, -⟩ := hk.tables.resident fte hfte
      obtain rfl := hx.eq_of_at hy
      have hw : x.type = .swap → x.writable = true := h.swap _ _ _ hx
      exact h.unmap hw
  | readIn he => exact h.map he nofun
  | @swapIn t p e frame s he hl hty =>
      have h₁ : ReadOnlyClean (releaseSlot k s e.swapIndex) := h.same rfl rfl rfl
      exact h₁.map (e := e) ⟨he.mem, he.at_ptr⟩ fun _ => h.swap _ _ _ he hty
  | swapInNothing page he => exact h.map he nofun
  | growStack page hun he hl hty hf hpte hnew ht henter => exact absurd henter (hR _ _)
  | addFile hun he hl hty hnew ht hexe hsize henter => exact absurd henter (hR _ _)
  | addMmap hun he hl hty hnew ht hopen hrole hid hsize hadds henter =>
      exact absurd henter (hR _ _)
  | @removeMapping t mm x hmm hx =>
      have hr := hk.removes_forgetMapping hmm hx
      refine h.congr (fun u q y hy hty => .inr ⟨y, hr.entry hy |>.1, hty, rfl⟩) ?_
      intro u va pte hpte _
      obtain ⟨spt, heq, -⟩ := forgetMapping_eq k t mm x
      rw [heq] at hpte
      exact .inr hpte
  | destroy hexit hspt hx hl hmm =>
      have hr := hk.removes_destroy hspt hmm
      exact h.congr (fun u q y hy hty => .inr ⟨y, hr.entry hy |>.1, hty, rfl⟩)
        fun _ _ _ hpte _ => .inr hpte
  | _ => exact h.same rfl rfl rfl

theorem changes (h : ReadOnlyClean k) (hk : Sound k) (hp : Permits k)
    (hR : ∀ u va, ¬ R.enters u va) (hc : Changes R k k') : ReadOnlyClean k' :=
  (hc.invariant (P := fun x => (Sound x ∧ Permits x) ∧ ReadOnlyClean x)
    (fun _ _ hxy hx => ⟨⟨hx.1.1.change hxy, hx.1.2.change hx.1.1 hxy⟩,
      hx.2.change hx.1.1 hx.1.2 hR hxy⟩) ⟨⟨hk, hp⟩, h⟩).2

end ReadOnlyClean

/-! ## New entries -/

/-- New entries are not of type `SWAP`, and no page gets a frame. -/
structure AddsEntries (k k' : Kernel) : Prop where
  entry : ∀ t p e, Entry k' t p e → e.type ≠ .swap ∨ Entry k t p e
  pagedir : k'.pagedir = k.pagedir
  freePages : k'.freePages = k.freePages

theorem AddsEntries.refl (k : Kernel) : AddsEntries k k := ⟨fun _ _ _ he => .inr he, rfl, rfl⟩

theorem AddsEntries.trans (h : AddsEntries k k₁) (h₁ : AddsEntries k₁ k') : AddsEntries k k' where
  entry := by
    intro t p e he
    rcases h₁.entry t p e he with hty | hold
    · exact .inl hty
    · exact h.entry t p e hold
  pagedir := h₁.pagedir.trans h.pagedir
  freePages := h₁.freePages.trans h.freePages

theorem ReadOnlyClean.adds (h : ReadOnlyClean k) (hadds : AddsEntries k k') :
    ReadOnlyClean k' := by
  refine h.congr (fun t p e he hty => ?_) fun t va pte hpte _ => ?_
  · rcases hadds.entry t p e he with hno | hold
    · exact absurd hty hno
    · exact .inr ⟨e, hold, hty, rfl⟩
  · unfold Kernel.pteOf at hpte ⊢
    rw [hadds.pagedir] at hpte
    exact .inr hpte

/-- A cell gets an entry that is not of type `SWAP`, and may enter a table. -/
theorem addsEntries_of_cell (hty : ∀ e, k'.sptes p = some e → e.type ≠ .swap)
    (hspt : ∀ u q, q ∈ k'.spt u → q ∈ k.spt u ∨ q = p)
    (hsptes : ∀ q, q ≠ p → k'.sptes q = k.sptes q) (hpagedir : k'.pagedir = k.pagedir)
    (hfree : k'.freePages = k.freePages) : AddsEntries k k' where
  entry := by
    intro u q x hx
    by_cases hq : q = p
    · subst hq
      exact .inl (hty x hx.at_ptr)
    · exact .inr ⟨(hspt u q hx.mem).resolve_right hq, (hsptes q hq).symm.trans hx.at_ptr⟩
  pagedir := hpagedir
  freePages := hfree

theorem addFilePageTbl_adds {file : FilePtr} {pos readBytes zeroBytes : UInt32} {upage : Vaddr}
    {w b : Bool} (hadd : addFilePageTbl env n k t file pos upage readBytes zeroBytes w = (b, k')) :
    AddsEntries k k' := by
  unfold addFilePageTbl at hadd
  split at hadd
  · cases hadd
    exact .refl k
  next p _ =>
    have hcell : ∀ e, Function.update k.sptes p (some
        (fileEntry file pos upage readBytes zeroBytes w)) p = some e → e.type ≠ .swap := by
      intro e he
      rw [Function.update_self] at he
      cases he
      exact PageType.noConfusion
    dsimp only at hadd
    unfold hashInsert at hadd
    split at hadd
    · cases hadd
      exact addsEntries_of_cell (p := p) hcell (fun _ _ hq => .inl hq)
        (fun q hq => Function.update_of_ne hq ..) rfl rfl
    · cases hadd
      refine addsEntries_of_cell (p := p) hcell (fun u q hq => ?_)
        (fun q hq => Function.update_of_ne hq ..) rfl rfl
      exact (mem_insertEntry.mp hq).imp_right And.right

theorem addMmapPageTbl_adds {file : FilePtr} {pos readBytes zeroBytes : UInt32} {upage : Vaddr}
    {b : Bool} (hadd : addMmapPageTbl env n k t file pos upage readBytes zeroBytes = (b, k')) :
    AddsEntries k k' := by
  unfold addMmapPageTbl at hadd
  split at hadd
  · cases hadd
    exact .refl k
  next p _ =>
    dsimp only at hadd
    unfold processAddMmap at hadd
    split at hadd
    next hlist =>
      -- there is no memory for the list, and the entry is given back
      split at hlist
      · cases hlist
      · cases hlist
        cases hadd
        refine addsEntries_of_cell (p := p) (fun e he => ?_) (fun _ _ hq => .inl hq)
          (fun q hq => ?_) rfl rfl
        · have hnone : Function.update (Function.update k.sptes p _) p none p = some e := he
          rw [Function.update_self] at hnone
          cases hnone
        · exact (Function.update_of_ne hq ..).trans (Function.update_of_ne hq ..)
    next hlist =>
      split at hlist
      · cases hlist
        unfold hashInsert at hadd
        split at hadd
        next hinsert =>
          cases hadd
          split at hinsert
          · cases hinsert
          · cases hinsert
            refine addsEntries_of_cell (p := p) (fun e he => ?_) (fun u q hq => ?_)
              (fun q hq => Function.update_of_ne hq ..) rfl rfl
            · have hat : Function.update k.sptes p _ p = some e := he
              rw [Function.update_self] at hat
              cases hat
              exact PageType.noConfusion
            · exact (mem_insertEntry.mp hq).imp_right And.right
        next hinsert =>
          cases hadd
          split at hinsert
          · -- the entry is only listed
            cases hinsert
            refine addsEntries_of_cell (p := p) (fun e he => ?_) (fun _ _ hq => .inl hq)
              (fun q hq => ?_) rfl rfl
            · have hat : Function.update (Function.update k.sptes p _) p _ p = some e := he
              rw [Function.update_self] at hat
              cases hat
              exact PageType.noConfusion
            · exact (Function.update_of_ne hq ..).trans (Function.update_of_ne hq ..)
          · cases hinsert
      · cases hlist

theorem loadSegmentLoop_adds {file : FilePtr} {rounds i : ℕ} {pos readBytes zeroBytes : UInt32}
    {upage : Vaddr} {w b : Bool}
    (hloop : loadSegmentLoop env t file w n rounds pos upage readBytes zeroBytes k = (b, i, k')) :
    AddsEntries k k' := by
  induction rounds generalizing n pos upage readBytes zeroBytes k with
  | zero =>
      cases hloop
      exact .refl _
  | succ rounds ih =>
      unfold loadSegmentLoop at hloop
      split at hloop
      · dsimp only at hloop
        split at hloop
        next hadd =>
          cases hloop
          exact addFilePageTbl_adds hadd
        next hadd => exact (addFilePageTbl_adds hadd).trans (ih hloop)
      · cases hloop
        exact .refl _

theorem loadSegment_adds {file : FilePtr} {i : ℕ} {s : Segment} {b : Bool}
    (hload : loadSegment env n k t file s = .ok (b, i, k')) : AddsEntries k k' := by
  unfold loadSegment at hload
  split at hload
  next => cases hload
  next =>
    split at hload
    next => cases hload
    next =>
      split at hload
      next => cases hload
      next => exact loadSegmentLoop_adds (Except.ok.inj hload)

theorem loadSegments_adds {file : FilePtr} {i : ℕ} {ss : List Segment} {b : Bool}
    (hload : loadSegments env t file n ss k = .ok (b, i, k')) : AddsEntries k k' := by
  induction ss generalizing n k with
  | nil =>
      cases hload
      exact .refl _
  | cons s rest ih =>
      unfold loadSegments at hload
      obtain ⟨⟨b₁, n₁, k₁⟩, hseg, hrest⟩ := Lts.bind_eq_ok.mp hload
      cases b₁ with
      | false =>
          cases hrest
          exact loadSegment_adds hseg
      | true => exact (loadSegment_adds hseg).trans (ih hrest)

theorem mmapLoop_adds {file : FilePtr} {rounds : ℕ} {pos readBytes : UInt32} {addr : Vaddr}
    {b : Bool} (hloop : mmapLoop env t file n rounds pos addr readBytes k = (b, k')) :
    AddsEntries k k' := by
  induction rounds generalizing n pos addr readBytes k with
  | zero =>
      cases hloop
      exact .refl _
  | succ rounds ih =>
      unfold mmapLoop at hloop
      split at hloop
      · dsimp only at hloop
        split at hloop
        next hadd =>
          cases hloop
          exact addMmapPageTbl_adds hadd
        next hadd => exact (addMmapPageTbl_adds hadd).trans (ih hloop)
      · cases hloop
        exact .refl _

/-! ## Steps -/

/-- A page the stack grows by may be written. -/
theorem ReadOnlyClean.stackGrowth {va : Vaddr} {b : Bool} (h : ReadOnlyClean k) (hk : Sound k)
    (hx : NoneExiting k) (hp : Permits k) (hgrow : stackGrowth env n k t va = .ok (b, k'))
    (hnew : b = true ∨ hashFind k t (pgRoundDown va) = none) : ReadOnlyClean k' := by
  have hno : ∀ u va, ¬ Scope.none.enters u va := fun _ _ hno => hno
  rcases stackGrowth_cases hk hx hgrow with ⟨-, rfl⟩ | ⟨p, k₁, frame, hg, hcases⟩
  · exact h
  · have hc : Changes .none k k₁ := hg.changes hk
    have hk₁ := hk.changes hc
    have h₁ := h.changes hk hp hno hc
    have hun := hg.unused hk
    rcases hcases with ⟨-, rfl⟩ | ⟨rfl, hfound, -⟩ | ⟨-, -, rfl⟩
    · -- the entry and the frame are given back
      have hcell : Changes .none k₁ (k₁.setSpte p none) := .single (.cell none hun)
      exact h₁.changes hk₁ (hp.changes hk hc) hno
        (hcell.trans (changes_of_freed (hk₁.changes hcell) hg.free))
    · exact absurd (hnew.resolve_left Bool.false_ne_true) hfound
    · refine h₁.congr (fun u q x hx hty => ?_) fun u wa pte hpte hd => ?_
      · rcases (entry_growStack hun).mp hx with hold | ⟨-, -, rfl⟩
        · exact .inr ⟨x, hold, hty, rfl⟩
        · exact .inl rfl
      · have hat : (mapPage k₁ t p (stackEntry (pgRoundDown va)) frame env.garbage false).pteOf u
            wa = some pte := hpte
        rw [pteOf_mapPage] at hat
        split at hat
        · cases hat
          cases hd
        · exact .inr hat

/-- What holds between two operations, besides `Settled`. -/
structure Healthy (k : Kernel) : Prop where
  settled : Settled k
  slots : (slots k).Exclusive
  contents : Faithful k
  permits : Permits k
  readOnly : ReadOnlyClean k

namespace Healthy

/-- What `mmap` and `load` may do. -/
def mapping : Scope where
  adds := fun _ _ => True
  removes := fun _ _ => True
  enters := fun _ _ => True
  unpins := fun _ => True

/-- Changes without new entries. -/
theorem readOnly_changes (h : Healthy k) (hc : Changes .none k k') : ReadOnlyClean k' :=
  h.readOnly.changes h.settled.sound h.permits (fun _ _ hno => hno) hc

theorem readOnly_setStatus {s : ProcessStatus} {b : Bool} (h : ReadOnlyClean k') :
    ReadOnlyClean (if b then k' else k'.setStatus t s) := by
  cases b with
  | true => exact h
  | false => exact h.same rfl rfl rfl

theorem readOnly_pageFault {faultAddr esp : Vaddr} (h : Healthy k) (ht : k.status t = .alive)
    (hfault : pageFault env k t faultAddr esp = .ok k') : ReadOnlyClean k' := by
  unfold pageFault at hfault
  dsimp only at hfault
  split at hfault
  next hcond =>
    cases hget : getSpte k t faultAddr with
    | some p =>
        -- the page is loaded and its entry unpinned
        rw [hget] at hfault
        obtain ⟨e, he⟩ := getSpte_some h.settled.sound hget
        obtain ⟨⟨load, k₁⟩, hload, hrest⟩ := Lts.bind_eq_ok.mp hfault
        obtain ⟨e₁, hd, hret⟩ := Lts.bind_eq_ok.mp hrest
        have hc : Changes { Scope.none with unpins := fun _ => True } k k₁ :=
          loadPage_changes h.settled.sound h.settled.noneExiting he ht hload
        have h₁ := h.readOnly.changes h.settled.sound h.permits (fun _ _ hno => hno)
          (hc.tail (.pin false (deref_ok hd) fun _ => trivial))
        cases hret
        exact readOnly_setStatus h₁
    | none =>
        rw [hget] at hfault
        dsimp only at hfault
        split at hfault
        next =>
          obtain ⟨⟨load, k₁⟩, hgrow, hret⟩ := Lts.bind_eq_ok.mp hfault
          have h₁ := h.readOnly.stackGrowth h.settled.sound h.settled.noneExiting h.permits hgrow
            (.inr hget)
          cases hret
          exact readOnly_setStatus h₁
        next =>
          cases hfault
          exact readOnly_setStatus (b := false) h.readOnly
  next =>
    cases hfault
    exact readOnly_setStatus (b := false) h.readOnly

theorem readOnly_checkValidPtr {va esp : Vaddr} (h : Healthy k) (ht : k.status t = .alive)
    (hcheck : checkValidPtr env k t va esp = .ok k') : ReadOnlyClean k' := by
  unfold checkValidPtr at hcheck
  split at hcheck
  · cases hcheck
    exact readOnly_setStatus (b := false) h.readOnly
  · cases hget : getSpte k t va with
    | some p =>
        rw [hget] at hcheck
        obtain ⟨e, he⟩ := getSpte_some h.settled.sound hget
        obtain ⟨⟨load, k₁⟩, hload, hrest⟩ := Lts.bind_eq_ok.mp hcheck
        obtain ⟨e₁, hd, hret⟩ := Lts.bind_eq_ok.mp hrest
        have h₁ := h.readOnly_changes
          (loadPage_changes h.settled.sound h.settled.noneExiting he ht hload)
        cases hret
        exact readOnly_setStatus h₁
    | none =>
        rw [hget] at hcheck
        dsimp only at hcheck
        split at hcheck
        next =>
          obtain ⟨⟨load, k₁⟩, hgrow, hret⟩ := Lts.bind_eq_ok.mp hcheck
          have h₁ := h.readOnly.stackGrowth h.settled.sound h.settled.noneExiting h.permits hgrow
            (.inr hget)
          cases hret
          exact readOnly_setStatus h₁
        next =>
          cases hcheck
          exact readOnly_setStatus (b := false) h.readOnly

theorem readOnly_mmap {fd id : ℤ} {addr : Vaddr} (h : Healthy k) (ht : k.status t = .alive)
    (hmmap : mmap env k t fd addr = .ok (id, k')) : ReadOnlyClean k' := by
  rcases mmap_cases hmmap with ⟨-, rfl⟩ | ⟨oldFile, o, file, -, -, -, hnew, hcases⟩
  · exact h.readOnly
  · rcases hcases with ⟨-, rfl⟩ | ⟨-, b, k₃, hloop, hend⟩
    · exact h.readOnly.same rfl rfl rfl
    · have hbegin : Changes mapping k (beginMapping k t file o.inode) := beginMapping_changes hnew
      have h₂ := h.settled.sound.changes hbegin
      have hpos : 1 ≤ (beginMapping k t file o.inode).mapid t := by
        have hnonneg := h.settled.sound.mappings.mapidNonneg t
        rw [beginMapping_mapid]
        omega
      have hloopc : Changes mapping (beginMapping k t file o.inode) k₃ :=
        mmapLoop_changes h₂ ht ((AList.mem_insert _).mpr (.inl rfl))
          (fun _ hr => absurd hr (not_holds_beginMapping h.settled.sound hnew)) hpos trivial
          (fun _ _ => trivial) hloop
      have hro : ReadOnlyClean (beginMapping k t file o.inode) := h.readOnly.same rfl rfl rfl
      have hro₃ := hro.adds (mmapLoop_adds hloop)
      rcases hend with ⟨-, -, rfl⟩ | ⟨-, -, hunmap⟩
      · exact hro₃
      · -- the pages that were added are removed again
        have h₃ := h₂.changes hloopc
        have hp₃ := (h.permits.changes h.settled.sound hbegin).changes h₂ hloopc
        have hc : Changes { Scope.none with removes := fun _ _ => True } k₃ k' :=
          (processRemoveMmap_changes h₃ (fun _ _ => trivial) hunmap).1
        exact hro₃.changes h₃ hp₃ (fun _ _ hno => hno) hc

theorem readOnly_load {exe : Inode} {ss : List Segment} (h : Healthy k)
    (ht : k.status t = .absent) (hload : load env k t exe ss = .ok k') : ReadOnlyClean k' := by
  obtain ⟨file, n, k₂, hnew, h₀, hx₀, hsegments, hgrow⟩ :=
    load_cases h.settled.sound h.settled.noneExiting ht hload
  have hro : ReadOnlyClean (startProcess k t file exe) := h.readOnly.same rfl rfl rfl
  have hp : Permits (startProcess k t file exe) := h.permits.same rfl rfl rfl
  have ht₀ : (startProcess k t file exe).status t = .alive := Function.update_self ..
  have hc : Changes mapping (startProcess k t file exe) k₂ :=
    loadSegments_changes h₀ ht₀ (Function.update_self ..) (fun _ _ _ _ => trivial) hsegments
  refine (hro.adds (loadSegments_adds hsegments)).stackGrowth (h₀.changes hc) ?_
    (hp.changes h₀ hc) hgrow (.inl rfl)
  intro u
  rw [hc.status]
  exact hx₀ u

/-- An effect without new entries. -/
theorem readOnly_effect (h : Healthy k) (heff : Effect k a k') (hno : ∀ va, ¬ a.Enters k va) :
    ReadOnlyClean k' := by
  have hscope : ∀ u va, ¬ (a.scope k).enters u va := fun _ va henter => hno va henter.2
  have hsound := h.settled.sound
  cases heff with
  | changes ha hc => exact h.readOnly.changes hsound h.permits hscope hc
  | killed ha ht hc => exact (h.readOnly.changes hsound h.permits hscope hc).same rfl rfl rfl
  | @store t va byte _ hs =>
      obtain ⟨pte, hpte, hw, rfl⟩ := userStore_ok hs
      have hset : ReadOnlyClean
          (k.setPte t (pgRoundDown va) { pte with accessed := true, dirty := true }) :=
        h.readOnly.setPte hpte rfl fun _ => .inr hw
      exact hset.same rfl rfl rfl
  | write hf ho =>
      refine h.readOnly.same write_fields.2.2.1 write_fields.2.2.2 ?_
      unfold inodeWriteAt
      split
      · rfl
      · rfl
  | start ht hfile hc => exact absurd (.inl rfl) (hno (physBase - 4096))
  | @leave t k₁ ht hc hspt hmmap hfiles =>
      have h₁ : ReadOnlyClean (k.setStatus t .exiting) := h.readOnly.same rfl rfl rfl
      have hp₁ : Permits (k.setStatus t .exiting) := h.permits.same rfl rfl rfl
      have hk₁ : Sound (k.setStatus t .exiting) := hsound.setStatus (.inr ht) (by decide)
      have h₂ := h₁.changes hk₁ hp₁ hscope hc
      -- the page directory of the process is empty already
      refine h₂.same rfl rfl ?_
      show Function.update k₁.pagedir t ∅ = k₁.pagedir
      rw [← (hk₁.changes hc).tables.pagedir_empty hspt, Function.update_eq_self]

theorem readOnly_step (h : Healthy k) (hs : Step k a k') : ReadOnlyClean k' := by
  have heff := step_effect h.settled.sound h.settled.noneExiting hs
  obtain ⟨hen, hperf⟩ := hs
  cases a with
  | load t exe segments env => exact h.readOnly_load hen hperf
  | pageFault t faultAddr esp env => exact h.readOnly_pageFault hen hperf
  | checkValidPtr t va esp env => exact h.readOnly_checkValidPtr hen hperf
  | mmap t fd addr env =>
      obtain ⟨⟨id, k₁⟩, hmmap, hret⟩ := Lts.bind_eq_ok.mp hperf
      cases hret
      exact h.readOnly_mmap hen hmmap
  | userLoad t va => exact h.readOnly_effect heff fun _ hno => hno
  | userStore t va byte => exact h.readOnly_effect heff fun _ hno => hno
  | unpinPtr t va => exact h.readOnly_effect heff fun _ hno => hno
  | openFile t i env => exact h.readOnly_effect heff fun _ hno => hno
  | closeFile t fd => exact h.readOnly_effect heff fun _ hno => hno
  | writeFile t fd data size ofs => exact h.readOnly_effect heff fun _ hno => hno
  | munmap t mapping => exact h.readOnly_effect heff fun _ hno => hno
  | exit t => exact h.readOnly_effect heff fun _ hno => hno
  | processExit t => exact h.readOnly_effect heff fun _ hno => hno

theorem step (h : Healthy k) (hs : Step k a k') : Healthy k' where
  settled := h.settled.step hs
  slots := slots_exclusive_step h.settled h.slots hs
  contents := h.contents.step h.settled h.slots hs
  permits := h.permits.step h.settled hs
  readOnly := h.readOnly_step hs

theorem boot (m : Machine) : Healthy m.boot where
  settled := settled_boot m
  slots := slots_exclusive_of_reachable (.refl _)
  contents := faithful_of_reachable (.refl _)
  permits := permits_of_reachable (.refl _)
  readOnly :=
    { swap := fun _ _ _ he => absurd he.mem List.not_mem_nil
      dirty := by
        intro t va pte hpte
        have hnone : m.boot.pteOf t va = none := AList.lookup_empty _
        rw [hnone] at hpte
        cases hpte }

end Healthy

theorem healthy_of_reachable (h : Reachable m k) : Healthy k :=
  h.invariant (fun _ _ _ hs hk => hk.step hs) (.boot m)

end Pintos.Vm
