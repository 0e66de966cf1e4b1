import Pintos.Vm.Rollback

/-! # Pinned pages stay in memory

`evict_frame` passes over the entries that are pinned. So whatever a step allocates
frames for, an entry that is pinned and loaded is afterwards what it was, unless the
step unpins it or takes it out of the table.
-/

namespace Pintos.Vm

variable {k k' k₁ k₂ : Kernel} {t u : Tid} {p q : Ptr} {e e' : Spte} {fte : FrameTblEnt}
  {env : Env} {frame : Frame} {va : Vaddr} {a : Act} {b : Bool} {n : ℕ}

/-! ## Evictions -/

/-- An entry is as before, or it was not pinned and its page has been evicted. -/
def EvictsUnpinned (k k' : Kernel) : Prop :=
  ∀ p, k'.sptes p = k.sptes p ∨ ∃ e e', k.sptes p = some e ∧ e.pinned = false ∧
    k'.sptes p = some e' ∧ e'.pinned = false ∧ e'.isLoaded = false

namespace EvictsUnpinned

theorem of_sptes (h : k'.sptes = k.sptes) : EvictsUnpinned k k' :=
  fun p => .inl (congrFun h p)

theorem trans (h₁ : EvictsUnpinned k k₁) (h₂ : EvictsUnpinned k₁ k₂) : EvictsUnpinned k k₂ := by
  intro p
  rcases h₁ p with heq | ⟨e, e₁, he, hpin, he₁, hpin₁, hl₁⟩
  · rcases h₂ p with heq' | ⟨e₁, e₂, he₁, hpin₁, hrest⟩
    · exact .inl (heq'.trans heq)
    · exact .inr ⟨e₁, e₂, heq ▸ he₁, hpin₁, hrest⟩
  · rcases h₂ p with heq' | ⟨-, e₂, -, -, he₂, hpin₂, hl₂⟩
    · exact .inr ⟨e, e₁, he, hpin, heq'.trans he₁, hpin₁, hl₁⟩
    · exact .inr ⟨e, e₂, he, hpin, he₂, hpin₂, hl₂⟩

/-- An entry that is pinned is as before. -/
theorem pinned (h : EvictsUnpinned k k') (he : k.sptes p = some e) (hpin : e.pinned = true) :
    k'.sptes p = some e := by
  rcases h p with heq | ⟨x, -, hx, hfalse, -⟩
  · exact heq.trans he
  · rw [Option.some.inj (he.symm.trans hx), hfalse] at hpin
    cases hpin

/-- An entry that is not loaded does not get loaded. -/
theorem notLoaded (h : EvictsUnpinned k k') (hold : ∀ e, k.sptes p = some e → e.isLoaded = false)
    (he : k'.sptes p = some e') : e'.isLoaded = false := by
  rcases h p with heq | ⟨-, x, -, -, hx, -, hl⟩
  · exact hold e' (heq ▸ he)
  · rw [Option.some.inj (he.symm.trans hx)]
    exact hl

end EvictsUnpinned

theorem fileWriteAt_sptes {f : FilePtr} {data : ℕ → UInt8} {size ofs : ℕ}
    (hw : fileWriteAt k f data size ofs = .ok k') : k'.sptes = k.sptes := by
  obtain ⟨o, -, hk'⟩ := Lts.bind_eq_ok.mp hw
  cases hk'
  exact inodeWriteAt_fields.1

/-- Saving a page does not pin or load it. -/
theorem savePage_sptes (hs : savePage k fte e = .ok (e', k')) :
    k'.sptes = k.sptes ∧ e'.pinned = e.pinned := by
  have hsaved := saved_of_savePage hs
  obtain ⟨swap, inodes, hk'⟩ := hsaved.frame
  refine ⟨by rw [hk'], ?_⟩
  cases hsaved <;> rfl

theorem evictPage_unpinned (he : k.sptes fte.spte = some e) (hpin : e.pinned = false)
    (hev : evictPage k fte e = .ok k') : EvictsUnpinned k k' := by
  obtain ⟨⟨e', k₁⟩, hs, hret⟩ := Lts.bind_eq_ok.mp hev
  cases hret
  obtain ⟨hsptes, hpin'⟩ := savePage_sptes hs
  intro p
  by_cases hp : p = fte.spte
  · subst hp
    exact .inr ⟨e, _, he, hpin, Function.update_self .., hpin'.trans hpin, rfl⟩
  · exact .inl ((Function.update_of_ne hp ..).trans (congrFun hsptes p))

theorem setAccessed_sptes {accessed : Bool} :
    (pagedirSetAccessed k t va accessed).sptes = k.sptes := by
  unfold pagedirSetAccessed
  split <;> rfl

theorem evictLoop_unpinned {l : List FrameTblEnt} (hloop : evictLoop n l k = .ok k') :
    EvictsUnpinned k k' := by
  induction n generalizing l k with
  | zero => cases hloop
  | succ n ih =>
      cases l with
      | nil => cases hloop
      | cons fte rest =>
          unfold evictLoop at hloop
          obtain ⟨e, he, hbody⟩ := Lts.bind_eq_ok.mp hloop
          dsimp only at hbody
          by_cases hpin : e.pinned = true
          · rw [if_pos hpin] at hbody
            exact ih hbody
          · rw [if_neg hpin] at hbody
            by_cases hacc : pagedirIsAccessed k fte.thread e.unusedVirtualAddress = true
            · rw [if_pos hacc] at hbody
              exact (EvictsUnpinned.of_sptes setAccessed_sptes).trans (ih hbody)
            · rw [if_neg hacc] at hbody
              exact evictPage_unpinned (deref_ok he) (by simpa using hpin) hbody

theorem pallocGetPage_sptes {zero : Bool} {o : Option Frame}
    (hget : pallocGetPage env zero k = (o, k')) : k'.sptes = k.sptes := by
  cases o with
  | none => rw [pallocGetPage_none hget]
  | some frame =>
      rw [(pallocGetPage_ok hget).2]
      rfl

theorem evictUntilFree_unpinned {zero : Bool}
    (hloop : evictUntilFree env zero n k = .ok (frame, k')) : EvictsUnpinned k k' := by
  induction n generalizing k with
  | zero => cases hloop
  | succ n ih =>
      unfold evictUntilFree at hloop
      obtain ⟨⟨o, k₁⟩, hev, hrest⟩ := Lts.bind_eq_ok.mp hloop
      obtain ⟨k₂, hl, hget⟩ := Lts.bind_eq_ok.mp hev
      have hget' : pallocGetPage env zero k₂ = (o, k₁) := Except.ok.inj hget
      have h₁ := (evictLoop_unpinned hl).trans (.of_sptes (pallocGetPage_sptes hget'))
      cases o with
      | some f =>
          cases hrest
          exact h₁
      | none => exact h₁.trans (ih hrest)

/-- `frame_alloc` evicts pages that are not pinned, and does nothing else to entries. -/
theorem frameAlloc_unpinned {zero : Bool} (halloc : frameAlloc env zero k t p = .ok (frame, k')) :
    EvictsUnpinned k k' := by
  obtain ⟨⟨f, k₁⟩, hget, hrest⟩ := Lts.bind_eq_ok.mp halloc
  obtain ⟨k₂, hadd, hret⟩ := Lts.bind_eq_ok.mp hrest
  cases hret
  have hsame : k'.sptes = k₁.sptes := by
    unfold addFrameToTbl at hadd
    split at hadd
    · cases hadd
      rfl
    · cases hadd
  refine EvictsUnpinned.trans ?_ (.of_sptes hsame)
  unfold frameGet at hget
  rcases hp : pallocGetPage env zero k with ⟨o, k₃⟩
  rw [hp] at hget
  have hsptes := EvictsUnpinned.of_sptes (pallocGetPage_sptes hp)
  cases o with
  | some f' =>
      cases hget
      exact hsptes
  | none => exact hsptes.trans (evictUntilFree_unpinned hget)

/-! ## Pages are loaded -/

/-- Every entry that is pinned and loaded is as it was. -/
def SparesPinned (k k' : Kernel) : Prop :=
  ∀ p e, k.sptes p = some e → e.pinned = true → e.isLoaded = true → k'.sptes p = some e

theorem SparesPinned.trans (h₁ : SparesPinned k k₁) (h₂ : SparesPinned k₁ k₂) :
    SparesPinned k k₂ :=
  fun p e he hpin hl => h₂ p e (h₁ p e he hpin hl) hpin hl

theorem SparesPinned.of_sptes (h : k'.sptes = k.sptes) : SparesPinned k k' :=
  fun p _ he _ _ => (congrFun h p).trans he

theorem EvictsUnpinned.spares (h : EvictsUnpinned k k') : SparesPinned k k' :=
  fun _ _ he hpin _ => h.pinned he hpin

/-- An entry that is written was not loaded, or it was pinned already. -/
theorem sparesPinned_setSpte {o : Option Spte}
    (h : ∀ e, k.sptes p = some e → e.pinned = true → e.isLoaded = true → o = some e) :
    SparesPinned k (k.setSpte p o) := by
  intro q e he hpin hl
  by_cases hq : q = p
  · subst hq
    exact (Function.update_self ..).trans (h e he hpin hl)
  · exact (Function.update_of_ne hq ..).trans he

theorem sparesPinned_of_notLoaded {o : Option Spte}
    (h : ∀ e, k.sptes p = some e → e.isLoaded = false) : SparesPinned k (k.setSpte p o) := by
  refine sparesPinned_setSpte fun e he _ hl => ?_
  rw [h e he] at hl
  cases hl

theorem sparesPinned_of_fresh {o : Option Spte} (h : k.sptes p = none) :
    SparesPinned k (k.setSpte p o) :=
  sparesPinned_of_notLoaded fun e he => by rw [h] at he; cases he

theorem installPage_sptes {upage : Vaddr} {w : Bool}
    (hinst : installPage env k t upage frame w = (b, k')) : k'.sptes = k.sptes := by
  cases b with
  | false => rw [installPage_false hinst]
  | true =>
      rw [installPage_true hinst]
      rfl

theorem readPage_sptes (hread : readPage k frame e = .ok (b, k')) : k'.sptes = k.sptes := by
  unfold readPage at hread
  split at hread
  · cases hread
    rfl
  · obtain ⟨⟨count, page⟩, -, hret⟩ := Lts.bind_eq_ok.mp hread
    dsimp only at hret
    split at hret <;> cases hret <;> rfl

theorem swapIn_sptes {index : ℕ} (hin : swapIn k t index va = .ok k') : k'.sptes = k.sptes := by
  unfold swapIn at hin
  split at hin
  · cases hin
    rfl
  · split at hin
    · cases hin
    · cases hin
    · obtain ⟨pte, -, hret⟩ := Lts.bind_eq_ok.mp hin
      split at hret
      · cases hret
        rfl
      · cases hret

/-- A page is loaded into a frame that others had to give up. -/
theorem loadFile_spares (hold : ∀ e, k.sptes p = some e → e.isLoaded = false)
    (hload : loadFile env k t p = .ok (b, k')) : SparesPinned k k' := by
  obtain ⟨e₀, -, hload⟩ := Lts.bind_eq_ok.mp hload
  obtain ⟨⟨frame, k₁⟩, halloc, hload⟩ := Lts.bind_eq_ok.mp hload
  obtain ⟨e, -, hload⟩ := Lts.bind_eq_ok.mp hload
  obtain ⟨⟨b₁, k₂⟩, hread, hload⟩ := Lts.bind_eq_ok.mp hload
  have hev := frameAlloc_unpinned halloc
  have h₂ : EvictsUnpinned k k₂ := hev.trans (.of_sptes (readPage_sptes hread))
  cases b₁ with
  | false =>
      cases hload
      exact (h₂.trans (.of_sptes freeFrame_fields.1)).spares
  | true =>
      rcases hinst : installPage env k₂ t e.unusedVirtualAddress frame e.writable with ⟨b₂, k₃⟩
      dsimp only at hload
      rw [hinst] at hload
      have h₃ : EvictsUnpinned k k₃ := h₂.trans (.of_sptes (installPage_sptes hinst))
      cases b₂ with
      | false =>
          cases hload
          exact (h₃.trans (.of_sptes freeFrame_fields.1)).spares
      | true =>
          cases hload
          exact h₃.spares.trans (sparesPinned_of_notLoaded fun _ hx => h₃.notLoaded hold hx)

theorem loadSwap_spares (hold : ∀ e, k.sptes p = some e → e.isLoaded = false)
    (hload : loadSwap env k t p = .ok (b, k')) : SparesPinned k k' := by
  obtain ⟨⟨frame, k₁⟩, halloc, hload⟩ := Lts.bind_eq_ok.mp hload
  obtain ⟨e, -, hload⟩ := Lts.bind_eq_ok.mp hload
  have hev := frameAlloc_unpinned halloc
  rcases hinst : installPage env k₁ t e.unusedVirtualAddress frame e.writable with ⟨b₂, k₂⟩
  rw [hinst] at hload
  have h₂ : EvictsUnpinned k k₂ := hev.trans (.of_sptes (installPage_sptes hinst))
  cases b₂ with
  | false =>
      cases hload
      exact (h₂.trans (.of_sptes freeFrame_fields.1)).spares
  | true =>
      obtain ⟨k₃, hin, hret⟩ := Lts.bind_eq_ok.mp hload
      cases hret
      have h₃ : EvictsUnpinned k k₃ := h₂.trans (.of_sptes (swapIn_sptes hin))
      exact h₃.spares.trans (sparesPinned_of_notLoaded fun _ hx => h₃.notLoaded hold hx)

theorem loadPage_spares (hload : loadPage env k t p = .ok (b, k')) : SparesPinned k k' := by
  obtain ⟨e, he, hload⟩ := Lts.bind_eq_ok.mp hload
  have he := deref_ok he
  have hpin : SparesPinned k (k.setSpte p (some { e with pinned := true })) := by
    refine sparesPinned_setSpte fun x hx hp _ => ?_
    obtain rfl := Option.some.inj (he.symm.trans hx)
    rw [← hp]
  by_cases hl : e.isLoaded = true
  · rw [if_pos hl] at hload
    cases hload
    exact hpin
  · rw [if_neg hl] at hload
    have hold : ∀ x, (k.setSpte p (some { e with pinned := true })).sptes p = some x →
        x.isLoaded = false := by
      intro x hx
      have hx' : some { e with pinned := true } = some x :=
        (Function.update_self (f := k.sptes) ..).symm.trans hx
      obtain rfl := Option.some.inj hx'
      simpa using hl
    split at hload
    next => exact hpin.trans (loadFile_spares hold hload)
    next => exact hpin.trans (loadSwap_spares hold hload)
    next => exact hpin.trans (loadFile_spares hold hload)
    next =>
      cases hload
      exact hpin

/-- The entry of a page that is loaded, which has been pinned before. -/
theorem loadFile_entry (he : k.sptes p = some e) (hpin : e.pinned = true)
    (hload : loadFile env k t p = .ok (b, k')) :
    k'.sptes p = some { e with isLoaded := e.isLoaded || b } := by
  obtain ⟨e₀, -, hload⟩ := Lts.bind_eq_ok.mp hload
  obtain ⟨⟨frame, k₁⟩, halloc, hload⟩ := Lts.bind_eq_ok.mp hload
  obtain ⟨e₁, he₁, hload⟩ := Lts.bind_eq_ok.mp hload
  obtain ⟨⟨b₁, k₂⟩, hread, hload⟩ := Lts.bind_eq_ok.mp hload
  have hsame := (frameAlloc_unpinned halloc).pinned he hpin
  obtain rfl : e = e₁ := Option.some.inj (hsame.symm.trans (deref_ok he₁))
  have h₂ : k₂.sptes p = some e := (congrFun (readPage_sptes hread) p).trans hsame
  cases b₁ with
  | false =>
      cases hload
      rw [Bool.or_false]
      exact (congrFun freeFrame_fields.1 p).trans h₂
  | true =>
      rcases hinst : installPage env k₂ t e.unusedVirtualAddress frame e.writable with ⟨b₂, k₃⟩
      dsimp only at hload
      rw [hinst] at hload
      cases b₂ with
      | false =>
          cases hload
          rw [Bool.or_false]
          refine (congrFun freeFrame_fields.1 p).trans ?_
          exact (congrFun (installPage_sptes hinst) p).trans h₂
      | true =>
          cases hload
          rw [Bool.or_true]
          exact Function.update_self ..

theorem loadSwap_entry (he : k.sptes p = some e) (hpin : e.pinned = true)
    (hload : loadSwap env k t p = .ok (b, k')) :
    k'.sptes p = some { e with isLoaded := e.isLoaded || b } := by
  obtain ⟨⟨frame, k₁⟩, halloc, hload⟩ := Lts.bind_eq_ok.mp hload
  obtain ⟨e₁, he₁, hload⟩ := Lts.bind_eq_ok.mp hload
  have hsame := (frameAlloc_unpinned halloc).pinned he hpin
  obtain rfl : e = e₁ := Option.some.inj (hsame.symm.trans (deref_ok he₁))
  rcases hinst : installPage env k₁ t e.unusedVirtualAddress frame e.writable with ⟨b₂, k₂⟩
  rw [hinst] at hload
  cases b₂ with
  | false =>
      cases hload
      rw [Bool.or_false]
      refine (congrFun freeFrame_fields.1 p).trans ?_
      exact (congrFun (installPage_sptes hinst) p).trans hsame
  | true =>
      obtain ⟨k₃, -, hret⟩ := Lts.bind_eq_ok.mp hload
      cases hret
      rw [Bool.or_true]
      exact Function.update_self ..

/-- What `load_page` returns is whether it has loaded the page, and not whether the
page is loaded afterwards. -/
theorem loadPage_entry (he : k.sptes p = some e) (hload : loadPage env k t p = .ok (b, k')) :
    k'.sptes p = some { e with pinned := true, isLoaded := e.isLoaded || b } := by
  obtain ⟨e₁, he₁, hload⟩ := Lts.bind_eq_ok.mp hload
  obtain rfl : e = e₁ := Option.some.inj (he.symm.trans (deref_ok he₁))
  have hpin : (k.setSpte p (some { e with pinned := true })).sptes p =
      some { e with pinned := true } := Function.update_self ..
  by_cases hl : e.isLoaded = true
  · rw [if_pos hl] at hload
    cases hload
    rw [Bool.or_false]
    exact hpin
  · rw [if_neg hl] at hload
    split at hload
    next => exact loadFile_entry hpin rfl hload
    next => exact loadSwap_entry hpin rfl hload
    next => exact loadFile_entry hpin rfl hload
    next =>
      cases hload
      rw [Bool.or_false]
      exact hpin

theorem stackGrowth_spares (hgrow : stackGrowth env n k t va = .ok (b, k')) :
    SparesPinned k k' := by
  unfold stackGrowth at hgrow
  split at hgrow
  · cases hgrow
    exact .of_sptes rfl
  · split at hgrow
    next =>
      cases hgrow
      exact .of_sptes rfl
    next p hm =>
      have hfresh := mallocSpte_some hm
      obtain ⟨⟨frame, k₁⟩, halloc, hgrow⟩ := Lts.bind_eq_ok.mp hgrow
      have h₁ : SparesPinned k k₁ :=
        (sparesPinned_of_fresh hfresh).trans (frameAlloc_unpinned halloc).spares
      rcases hinst : installPage env k₁ t (pgRoundDown va) frame true with ⟨b₂, k₂⟩
      dsimp only at hgrow
      rw [hinst] at hgrow
      have h₂ : SparesPinned k k₂ := h₁.trans (.of_sptes (installPage_sptes hinst))
      cases b₂ with
      | false =>
          cases hgrow
          intro q x hx hp hl
          have hne : q ≠ p := by
            rintro rfl
            rw [hfresh] at hx
            cases hx
          exact (congrFun freeFrame_fields.1 q).trans
            ((Function.update_of_ne hne ..).trans (h₂ q x hx hp hl))
      | true =>
          have hins := Except.ok.inj hgrow
          unfold hashInsert at hins
          split at hins <;> cases hins <;> exact h₂

/-! ## Entries are added -/

theorem hashInsert_sptes {upage : Vaddr} {page : Page} (h : hashInsert k t p upage page = (b, k')) :
    k'.sptes = k.sptes := by
  unfold hashInsert at h
  split at h <;> cases h <;> rfl

theorem addFilePageTbl_spares {file : FilePtr} {ofs readBytes zeroBytes : UInt32} {upage : Vaddr}
    {w : Bool} (hadd : addFilePageTbl env n k t file ofs upage readBytes zeroBytes w = (b, k')) :
    SparesPinned k k' := by
  unfold addFilePageTbl at hadd
  split at hadd
  next =>
    cases hadd
    exact .of_sptes rfl
  next p hm =>
    exact (sparesPinned_of_fresh (mallocSpte_some hm)).trans (.of_sptes (hashInsert_sptes hadd))

theorem loadSegmentLoop_spares {file : FilePtr} {w : Bool} {rounds m : ℕ}
    {ofs readBytes zeroBytes : UInt32} {upage : Vaddr}
    (hloop : loadSegmentLoop env t file w n rounds ofs upage readBytes zeroBytes k = (b, m, k')) :
    SparesPinned k k' := by
  induction rounds generalizing n ofs upage readBytes zeroBytes k with
  | zero =>
      cases hloop
      exact .of_sptes rfl
  | succ rounds ih =>
      unfold loadSegmentLoop at hloop
      split at hloop
      · dsimp only at hloop
        split at hloop
        next k₁ hadd =>
          cases hloop
          exact addFilePageTbl_spares hadd
        next k₁ hadd => exact (addFilePageTbl_spares hadd).trans (ih hloop)
      · cases hloop
        exact .of_sptes rfl

theorem loadSegments_spares {file : FilePtr} {m : ℕ} {segments : List Segment}
    (hload : loadSegments env t file n segments k = .ok (b, m, k')) : SparesPinned k k' := by
  induction segments generalizing n k with
  | nil =>
      cases hload
      exact .of_sptes rfl
  | cons s rest ih =>
      unfold loadSegments at hload
      obtain ⟨⟨b₁, n₁, k₁⟩, hseg, hrest⟩ := Lts.bind_eq_ok.mp hload
      have h₁ : SparesPinned k k₁ := by
        unfold loadSegment at hseg
        split_ifs at hseg
        exact loadSegmentLoop_spares (Except.ok.inj hseg)
      cases b₁ with
      | false =>
          cases hrest
          exact h₁
      | true => exact h₁.trans (ih hrest)

/-- A process is started: the entries it makes are new ones. -/
theorem load_spares {exe : Inode} {segments : List Segment}
    (hload : load env k t exe segments = .ok k') : SparesPinned k k' := by
  obtain ⟨-, file, k₀, n, k₁, -, hsegments, hgrow⟩ := load_iff.mp hload
  have hstart : SparesPinned k (startProcess k t file exe) := .of_sptes rfl
  exact (hstart.trans (loadSegments_spares hsegments)).trans (stackGrowth_spares hgrow)

theorem addMmapPageTbl_spares {file : FilePtr} {ofs readBytes zeroBytes : UInt32} {upage : Vaddr}
    (hadd : addMmapPageTbl env n k t file ofs upage readBytes zeroBytes = (b, k')) :
    SparesPinned k k' := by
  rcases addMmapPageTbl_cases hadd with ⟨-, rfl⟩ | ⟨p, hfresh, ⟨-, rfl⟩ | ⟨-, rfl⟩⟩
  · exact .of_sptes rfl
  · exact sparesPinned_of_fresh (k := k) hfresh
  · exact sparesPinned_of_fresh (k := k) hfresh

theorem mmapLoop_spares {file : FilePtr} {rounds : ℕ} {ofs readBytes : UInt32} {addr : Vaddr}
    (hloop : mmapLoop env t file n rounds ofs addr readBytes k = (b, k')) :
    SparesPinned k k' := by
  induction rounds generalizing n ofs addr readBytes k with
  | zero =>
      cases hloop
      exact .of_sptes rfl
  | succ rounds ih =>
      unfold mmapLoop at hloop
      split at hloop
      · dsimp only at hloop
        split at hloop
        next k₁ hadd =>
          cases hloop
          exact addMmapPageTbl_spares hadd
        next k₁ hadd => exact (addMmapPageTbl_spares hadd).trans (ih hloop)
      · cases hloop
        exact .of_sptes rfl

/-! ## Entries are removed -/

/-- Every entry is as it was, or it has been freed. -/
def Frees (k k' : Kernel) : Prop := ∀ p, k'.sptes p = k.sptes p ∨ k'.sptes p = none

theorem Frees.of_sptes (h : k'.sptes = k.sptes) : Frees k k' := fun p => .inl (congrFun h p)

theorem Frees.trans (h₁ : Frees k k₁) (h₂ : Frees k₁ k₂) : Frees k k₂ := by
  intro p
  rcases h₂ p with heq | hnone
  · rw [heq]
    exact h₁ p
  · exact .inr hnone

theorem frees_setSpte : Frees k (k.setSpte p none) := by
  intro q
  by_cases hq : q = p
  · subst hq
    exact .inr (Function.update_self ..)
  · exact .inl (Function.update_of_ne hq ..)

theorem fileClose_sptes {f : FilePtr} (hclose : fileClose k f = .ok k') : k'.sptes = k.sptes := by
  rw [fileClose_ok hclose]

/-- The loop of `process_remove_mmap` pins an entry only to free it. -/
theorem removeMmapLoop_frees {mapping close : ℤ} {rest : List MmapFile} {o : Option FilePtr}
    (hloop : removeMmapLoop t mapping rest o close k = .ok k') : Frees k k' := by
  induction rest generalizing o close k with
  | nil => exact .of_sptes (closePending_sptes hloop)
  | cons mm rest ih =>
      by_cases hrem : mm.mapid = mapping ∨ mapping = closeAll
      · obtain ⟨e, k₂, -, hun, hrest⟩ := removeMmapLoop_cons hrem hloop
        have hpin :
            k₂.sptes = Function.update k.sptes mm.spte (some { e with pinned := true }) := by
          split at hun
          · exact unloadMmap_sptes hun
          · cases hun
            rfl
        have hround : Frees k (forgetMapping k₂ t mm e) := by
          obtain ⟨spt, heq, -⟩ := forgetMapping_eq k₂ t mm e
          intro p
          rw [heq]
          by_cases hp : p = mm.spte
          · subst hp
            exact .inr (Function.update_self ..)
          · refine .inl ((Function.update_of_ne hp ..).trans ?_)
            rw [hpin]
            exact Function.update_of_ne hp ..
        rcases hrest with ⟨-, k₃, hclose, hnext⟩ | ⟨-, hnext⟩
        · exact hround.trans ((Frees.of_sptes (closePending_sptes hclose)).trans (ih hnext))
        · exact hround.trans (ih hnext)
      · rw [removeMmapLoop_skip hrem] at hloop
        exact ih hloop

theorem hashDestroy_frees {l : List Ptr} (hdestroy : hashDestroy t l k = .ok k') : Frees k k' := by
  induction l generalizing k with
  | nil =>
      cases hdestroy
      exact .of_sptes rfl
  | cons p rest ih =>
      obtain ⟨k₁, hfun, hrest⟩ := Lts.bind_eq_ok.mp hdestroy
      refine Frees.trans ?_ (ih hrest)
      obtain ⟨e, -, hbody⟩ := Lts.bind_eq_ok.mp hfun
      split at hbody
      · cases hbody
        have hsptes : (pagedirClearPage (freeFrame (k.setSpt t rest)
            (pagedirGetPage (k.setSpt t rest) t e.unusedVirtualAddress)) t
            e.unusedVirtualAddress).sptes = k.sptes := freeFrame_fields.1
        exact (Frees.of_sptes hsptes).trans frees_setSpte
      · cases hbody
        exact frees_setSpte (k := k.setSpt t rest)

theorem closeFileLoop_sptes {fd : ℤ} {l : List ProcessFile}
    (hloop : closeFileLoop t fd l k = .ok k') : k'.sptes = k.sptes := by
  induction l generalizing k with
  | nil =>
      cases hloop
      rfl
  | cons pf rest ih =>
      unfold closeFileLoop at hloop
      split at hloop
      · obtain ⟨k₁, hclose, hrest⟩ := Lts.bind_eq_ok.mp hloop
        have h₁ := fileClose_sptes hclose
        split at hrest
        · cases hrest
          exact h₁
        · exact (ih hrest).trans h₁
      · exact ih hloop

theorem processRemoveMmap_frees {mapping : ℤ} (hrem : processRemoveMmap k t mapping = .ok k') :
    Frees k k' :=
  removeMmapLoop_frees (processRemoveMmap_ok.mp hrem).2

theorem processExit_frees (hexit : processExit k t = .ok k') : Frees k k' := by
  obtain ⟨k₁, hclose, hexit⟩ := Lts.bind_eq_ok.mp hexit
  obtain ⟨k₂, hrem, hexit⟩ := Lts.bind_eq_ok.mp hexit
  obtain ⟨k₃, hrm, hret⟩ := Lts.bind_eq_ok.mp hexit
  cases hret
  obtain ⟨k₄, hfiles, hexe⟩ := Lts.bind_eq_ok.mp hclose
  have h₁ : k₁.sptes = k.sptes := (closePending_sptes hexe).trans
    (closeFileLoop_sptes (k := k.setStatus t .exiting) (processCloseFile_ok.mp hfiles).2)
  have h₃ : Frees k k₃ :=
    ((Frees.of_sptes h₁).trans (processRemoveMmap_frees hrem)).trans (hashDestroy_frees hrm)
  exact h₃.trans (.of_sptes rfl)

/-! ## Steps -/

/-- The entry that `get_spte` finds is for the page of the address. -/
theorem getSpte_address (hget : getSpte k t va = some p) :
    p ∈ k.spt t ∧ ∀ e, k.sptes p = some e → e.unusedVirtualAddress = pgRoundDown va := by
  refine ⟨List.mem_of_find?_eq_some hget, fun e he => ?_⟩
  have hfound : addressOf k p = some (pgRoundDown va) := by
    unfold getSpte hashFind at hget
    simpa using List.find?_some hget
  unfold addressOf at hfound
  rw [he] at hfound
  exact Option.some.inj hfound

/-- An entry that is pinned and loaded is as it was, or one of `unpins` and no longer
pinned, or it has been freed. -/
def KeepsLoaded (unpins : Ptr → Prop) (k k' : Kernel) : Prop :=
  ∀ p e, k.sptes p = some e → e.pinned = true → e.isLoaded = true →
    k'.sptes p = none ∨ k'.sptes p = some e ∨
      unpins p ∧ k'.sptes p = some { e with pinned := false }

variable {unpins : Ptr → Prop}

theorem SparesPinned.keepsLoaded (h : SparesPinned k k') : KeepsLoaded unpins k k' :=
  fun p e he hpin hl => .inr (.inl (h p e he hpin hl))

/-- Pinned entries stay until some are freed. -/
theorem SparesPinned.keepsLoaded_of_frees (h₁ : SparesPinned k k₁) (h₂ : Frees k₁ k₂) :
    KeepsLoaded unpins k k₂ := by
  intro p e he hpin hl
  rcases h₂ p with heq | hnone
  · exact .inr (.inl (heq.trans (h₁ p e he hpin hl)))
  · exact .inl hnone

theorem mmap_keepsLoaded {fd r : ℤ} {addr : Vaddr} (hmap : mmap env k t fd addr = .ok (r, k')) :
    KeepsLoaded unpins k k' := by
  rcases mmap_cases hmap with
    ⟨-, rfl⟩ | ⟨_, o, file, -, -, -, -, ⟨-, rfl⟩ | ⟨-, b, k₁, hloop, hend⟩⟩
  · exact (SparesPinned.of_sptes rfl).keepsLoaded
  · exact (SparesPinned.of_sptes (k := k) rfl).keepsLoaded
  · have hbegin : SparesPinned k (beginMapping k t file o.inode) := .of_sptes rfl
    have hadded : SparesPinned k k₁ := hbegin.trans (mmapLoop_spares hloop)
    rcases hend with ⟨-, -, rfl⟩ | ⟨-, -, hunmap⟩
    · exact hadded.keepsLoaded
    · exact hadded.keepsLoaded_of_frees (processRemoveMmap_frees hunmap)

/-- The process goes on or is killed. -/
theorem spares_of_load {load : Bool} (h : SparesPinned k k₁)
    (hk' : (if load then k₁ else k₁.setStatus t .killed) = k') : SparesPinned k k' := by
  refine h.trans (.of_sptes ?_)
  cases load <;> cases hk' <;> rfl

theorem checkValidPtr_spares {esp : Vaddr} (hcheck : checkValidPtr env k t va esp = .ok k') :
    SparesPinned k k' := by
  unfold checkValidPtr at hcheck
  split at hcheck
  · cases hcheck
    exact .of_sptes rfl
  · dsimp only at hcheck
    split at hcheck
    next p hget =>
      obtain ⟨⟨b, k₂⟩, hpage, hrest⟩ := Lts.bind_eq_ok.mp hcheck
      obtain ⟨e, -, hret⟩ := Lts.bind_eq_ok.mp hrest
      exact spares_of_load (loadPage_spares hpage) (Except.ok.inj hret)
    next =>
      split at hcheck
      next =>
        obtain ⟨⟨load, k₁⟩, hgrow, hret⟩ := Lts.bind_eq_ok.mp hcheck
        exact spares_of_load (stackGrowth_spares hgrow) (Except.ok.inj hret)
      next => exact spares_of_load (.of_sptes rfl) (Except.ok.inj hcheck)

/-- The handler unpins the entry whose page was not present. -/
theorem pageFault_spares {faultAddr esp : Vaddr} (h : Sound k)
    (hfault : pageFault env k t faultAddr esp = .ok k') : SparesPinned k k' := by
  unfold pageFault at hfault
  dsimp only at hfault
  split at hfault
  next hcond =>
    have hnone := Option.isNone_iff_eq_none.mp hcond.1
    split at hfault
    next p hget =>
      obtain ⟨⟨b, k₂⟩, hpage, hrest⟩ := Lts.bind_eq_ok.mp hfault
      obtain ⟨e₂, -, hret⟩ := Lts.bind_eq_ok.mp hrest
      refine spares_of_load ?_ (Except.ok.inj hret)
      have hspares := loadPage_spares hpage
      obtain ⟨hmem, haddr⟩ := getSpte_address hget
      intro q x hx hpin hl
      have hq : q ≠ p := by
        rintro rfl
        -- a page that is loaded is present
        obtain ⟨-, pte, -, -, -, hpte, -⟩ := h.tables.loaded_pte ⟨hmem, hx⟩ hl
        rw [haddr x hx, hnone] at hpte
        cases hpte
      exact (Function.update_of_ne hq ..).trans (hspares q x hx hpin hl)
    next =>
      split at hfault
      next =>
        obtain ⟨⟨load, k₁⟩, hgrow, hret⟩ := Lts.bind_eq_ok.mp hfault
        exact spares_of_load (stackGrowth_spares hgrow) (Except.ok.inj hret)
      next => exact spares_of_load (.of_sptes rfl) (Except.ok.inj hfault)
  next => exact spares_of_load (.of_sptes rfl) (Except.ok.inj hfault)

theorem unpinPtr_keepsLoaded (hunpin : unpinPtr k t va = .ok k') :
    KeepsLoaded (fun p => getSpte k t va = some p) k k' := by
  unfold unpinPtr at hunpin
  split at hunpin
  · cases hunpin
    exact (SparesPinned.of_sptes rfl).keepsLoaded
  next p hget =>
    obtain ⟨x, hx, hret⟩ := Lts.bind_eq_ok.mp hunpin
    cases hret
    intro q e he hpin hl
    by_cases hq : q = p
    · subst hq
      obtain rfl := Option.some.inj ((deref_ok hx).symm.trans he)
      exact .inr (.inr ⟨hget, Function.update_self ..⟩)
    · exact .inr (.inl ((Function.update_of_ne hq ..).trans he))

/-- What a step does to the entries that are pinned and loaded. -/
theorem Step.keepsLoaded (h : Settled k) (hs : Step k a k') :
    KeepsLoaded (a.Unpins k) k k' := by
  obtain ⟨-, hperf⟩ := hs
  cases a with
  | load t exe segments env => exact (load_spares hperf).keepsLoaded
  | userLoad t va =>
      obtain ⟨pte, -, hret⟩ := Lts.bind_eq_ok.mp hperf
      cases hret
      exact (SparesPinned.of_sptes (k := k) rfl).keepsLoaded
  | userStore t va byte =>
      exact (SparesPinned.of_sptes (store_fields hperf).2.2.2).keepsLoaded
  | pageFault t faultAddr esp env => exact (pageFault_spares h.sound hperf).keepsLoaded
  | checkValidPtr t va esp env => exact (checkValidPtr_spares hperf).keepsLoaded
  | unpinPtr t va => exact unpinPtr_keepsLoaded hperf
  | openFile t i env =>
      rcases openFile_cases hperf with rfl | ⟨f, -, rfl⟩
      · exact (SparesPinned.of_sptes rfl).keepsLoaded
      · exact (SparesPinned.of_sptes (k := k) rfl).keepsLoaded
  | closeFile t fd =>
      have hclose : close k t fd = .ok k' := hperf
      unfold close at hclose
      split at hclose
      · cases hclose
        exact (SparesPinned.of_sptes rfl).keepsLoaded
      · obtain ⟨k₁, hfile, hret⟩ := Lts.bind_eq_ok.mp hclose
        cases hret
        have hsame : SparesPinned k k₁ := .of_sptes (fileClose_sptes hfile)
        exact hsame.keepsLoaded
  | writeFile t fd data size ofs =>
      have hwrite : writeFile k t fd data size ofs = .ok k' := hperf
      obtain ⟨found, -, hwrite⟩ := Lts.bind_eq_ok.mp hwrite
      cases found with
      | none =>
          cases hwrite
          exact (SparesPinned.of_sptes rfl).keepsLoaded
      | some f => exact (SparesPinned.of_sptes (fileWriteAt_sptes hwrite)).keepsLoaded
  | mmap t fd addr env =>
      obtain ⟨⟨r, k₁⟩, hmap, hret⟩ := Lts.bind_eq_ok.mp hperf
      cases hret
      exact mmap_keepsLoaded hmap
  | munmap t mapping =>
      exact (SparesPinned.of_sptes rfl).keepsLoaded_of_frees (processRemoveMmap_frees hperf)
  | exit t =>
      cases hperf
      exact (SparesPinned.of_sptes rfl).keepsLoaded
  | processExit t =>
      exact (SparesPinned.of_sptes rfl).keepsLoaded_of_frees (processExit_frees hperf)

/-! ## Pages that are left alone -/

/-- An entry stays in its table unless the process leaves or removes a mapping. -/
theorem Change.mem_spt {R : Scope} (h : Sound k) (hc : Change R k k') (hp : p ∈ k.spt t)
    (ht : k.status t ≠ .exiting) (hR : ∀ j, ¬ R.removes t j) : p ∈ k'.spt t := by
  cases hc with
  | evict hfte hx hstatus hs =>
      rcases (saved_of_savePage hs).frame with ⟨swap, inodes, rfl⟩
      exact hp
  | growStack => exact mem_insertEntry.mpr (.inl hp)
  | addFile => exact mem_insertEntry.mpr (.inl hp)
  | addMmap => exact mem_insertEntry.mpr (.inl hp)
  | @removeMapping u mm x hmm hx hl hrem =>
      refine ((h.removes_forgetMapping hmm hx).spt t p).mpr ⟨hp, ?_⟩
      rintro rfl
      -- the entry is one of a mapping of the process itself
      obtain ⟨e, he, hty⟩ := h.tables.allocated t _ hp
      obtain ⟨y, hy, hcase⟩ := h.mappings.entry u mm hmm
      obtain rfl := Option.some.inj (he.symm.trans hy)
      rcases hcase with ⟨-, hmem⟩ | ⟨herr, -⟩
      · rw [h.tables.apart _ _ _ hmem hp] at hrem
        exact hR _ hrem
      · exact hty herr
  | @destroy u q rest x hexit hspt hx hl hmm =>
      refine ((h.removes_destroy hspt hmm).spt t p).mpr ⟨hp, ?_⟩
      rintro rfl
      have hq : p ∈ k.spt u := by
        rw [hspt]
        exact List.mem_cons_self
      rw [h.tables.apart _ _ _ hq hp] at hexit
      exact ht hexit
  | _ => exact hp

theorem Changes.mem_spt {R : Scope} (h : Sound k) (hc : Changes R k k') (hp : p ∈ k.spt t)
    (ht : k.status t ≠ .exiting) (hR : ∀ j, ¬ R.removes t j) : p ∈ k'.spt t := by
  have hgen : Sound k' ∧ k'.status t ≠ .exiting ∧ p ∈ k'.spt t := by
    refine hc.invariant (P := fun x => Sound x ∧ x.status t ≠ .exiting ∧ p ∈ x.spt t) ?_ ⟨h, ht, hp⟩
    rintro x y hxy ⟨hx, htx, hpx⟩
    exact ⟨hx.change hxy, by rw [hxy.status]; exact htx, hxy.mem_spt hx hpx htx hR⟩
  exact hgen.2.2

theorem not_removes_of_ne (hne : a.process ≠ t) (j : ℤ) : ¬ (a.scope k).removes t j := by
  intro h
  cases a with
  | mmap => exact hne h.1.symm
  | munmap => exact hne h.1.symm
  | processExit => exact hne h.symm
  | _ => exact h

/-- An entry stays in its table unless the step removes some from it. -/
theorem Step.mem_spt (h : Settled k) (hs : Step k a k') (hR : ∀ j, ¬ (a.scope k).removes t j)
    (hp : p ∈ k.spt t) : p ∈ k'.spt t := by
  have ht := h.noneExiting t
  cases step_effect h.sound h.noneExiting hs with
  | changes ha hc => exact hc.mem_spt h.sound hp ht hR
  | killed ha hal hc =>
      have hmem := hc.mem_spt h.sound hp ht hR
      exact hmem
  | store hs =>
      rw [(store_fields hs).2.2.1]
      exact hp
  | write hf ho =>
      rw [write_fields.2.2.1]
      exact hp
  | @start u exe segments env file _ hu hfile hc =>
      -- a process that is started has no entries
      have hne : t ≠ u := by
        rintro rfl
        exact h.sound.tables.living t p hp hu
      refine hc.mem_spt (h.sound.start hu hfile) hp ?_ hR
      have hst : (startProcess k u file exe).status t = k.status t := Function.update_of_ne hne ..
      rw [hst]
      exact ht
  | @leave u k₁ hu hc hspt hmmap hfiles =>
      have hne : t ≠ u := fun heq => hR 0 heq
      have ht₁ : (k.setStatus u .exiting).status t ≠ .exiting := by
        rw [setStatus_status, if_neg hne]
        exact ht
      have hk₁ : Sound (k.setStatus u .exiting) := h.sound.setStatus (.inr hu) (by decide)
      have hmem := hc.mem_spt hk₁ hp ht₁ hR
      exact hmem

/-- A step leaves a page alone that is pinned and loaded, unless it unpins it or
removes entries from the table. -/
theorem Step.spares (h : Settled k) (hs : Step k a k') (hR : ∀ j, ¬ (a.scope k).removes t j)
    (hun : ¬ a.Unpins k p) (he : Entry k t p e) (hpin : e.pinned = true) (hl : e.isLoaded = true) :
    Entry k' t p e := by
  have hmem := hs.mem_spt h hR he.mem
  rcases hs.keepsLoaded h p e he.at_ptr hpin hl with hnone | heq | ⟨hp, -⟩
  · obtain ⟨x, hx, -⟩ := (h.step hs).sound.tables.allocated t p hmem
    rw [hnone] at hx
    cases hx
  · exact ⟨hmem, heq⟩
  · exact absurd hp hun

/-- Only a process itself unpins its pages. -/
theorem not_unpins_of_ne (h : Settled k) (he : Entry k t p e) (hne : a.process ≠ t) :
    ¬ a.Unpins k p := by
  intro hun
  have howner : p ∈ k.spt a.process := by
    cases a with
    | pageFault u faultAddr esp env => exact (getSpte_address hun.1).1
    | unpinPtr u va => exact (getSpte_address hun).1
    | _ => cases hun
  exact hne (h.sound.tables.apart _ _ _ howner he.mem)

end Pintos.Vm
