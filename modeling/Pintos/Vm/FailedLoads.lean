import Pintos.Vm.Executable
import Pintos.Vm.PageIn

/-! # Page loads that fail

`load_file`, `load_swap` and `stack_growth` take a frame, a mapping and an entry of the
table in turn, and undo what they have done when a later step fails. Only the last step
of `stack_growth` does not: when the table has an entry for the page already, the frame
and the mapping stay behind.
-/

namespace Pintos.Vm

variable {k k' k₁ : Kernel} {t u : Tid} {p q : Ptr} {e e' : Spte} {env : Env} {va : Vaddr}
  {frame : Frame} {page : Page} {fte : FrameTblEnt} {b : Bool} {n : ℕ}

/-! ## What is left of a load that fails -/

/-- The page of the entry `e` at `p`, which was not pinned, has been evicted. -/
structure EvictedPage (k k' : Kernel) (p : Ptr) (e e' : Spte) : Prop where
  unpinned : e.pinned = false
  loaded : e.isLoaded = true
  unloaded : e'.isLoaded = false
  frame : ∃ fte ∈ k.frameTblList, fte.spte = p ∧ fte ∉ k'.frameTblList ∧
    k'.pteOf fte.thread e.unusedVirtualAddress = none

/-- But for evictions of pages, nothing is left: no entry of the frame table, no mapping and
no frame in use that was not there before, and no page is loaded or unloaded. -/
structure Undone (k k' : Kernel) : Prop where
  frameTblList : k'.frameTblList ⊆ k.frameTblList
  mappings : ∀ u va pte', k'.pteOf u va = some pte' →
    ∃ pte, k.pteOf u va = some pte ∧ pte'.frame = pte.frame
  freePages : k.freePages ⊆ k'.freePages
  entries : ∀ u p e, Entry k u p e → ∃ e', Entry k' u p e' ∧
    (e'.isLoaded = e.isLoaded ∨ EvictedPage k k' p e e')

theorem Undone.refl (k : Kernel) : Undone k k :=
  ⟨fun _ h => h, fun _ _ pte h => ⟨pte, h, rfl⟩, fun _ h => h,
    fun _ _ e h => ⟨e, h, .inl rfl⟩⟩

/-- With the tables consistent before and after, it is enough to look at the frame table:
what is in it, is mapped and loaded. -/
theorem undone_of_sound (h : Sound k) (h' : Sound k') (hpool : k'.userPool = k.userPool)
    (hsub : k'.frameTblList ⊆ k.frameTblList) (hspares : SparesPinned k k')
    (hentry : ∀ u p e, Entry k u p e → ∃ e', Entry k' u p e' ∧
      e'.unusedVirtualAddress = e.unusedVirtualAddress) : Undone k k' where
  frameTblList := hsub
  mappings := by
    intro u va pte' hpte'
    obtain ⟨p, e', he', haddr, hl'⟩ := h'.tables.mapped u va pte' hpte'
    obtain ⟨fte, pte₁, hfte, rfl, rfl, hpte₁, hframe⟩ := h'.tables.loaded_pte he' hl'
    obtain ⟨e, pte, he, -, hpte, hframe₀⟩ := h.tables.resident fte (hsub hfte)
    obtain ⟨x, hx, hxaddr⟩ := hentry _ _ e he
    obtain rfl := he'.eq_of_at hx.at_ptr
    rw [haddr] at hpte₁ hxaddr
    obtain rfl := Option.some.inj (hpte'.symm.trans hpte₁)
    exact ⟨pte, hxaddr ▸ hpte, hframe.trans hframe₀.symm⟩
  freePages := by
    intro f hf
    have hpool₀ : f ∈ k.userPool := h.tables.pool.subset (List.mem_append_right _ hf)
    rw [← hpool] at hpool₀
    rcases List.mem_append.mp (h'.tables.pool.mem_iff.mpr hpool₀) with hused | hfree
    · obtain ⟨fte, hfte, rfl⟩ := List.mem_map.mp hused
      exact absurd hf (h.tables.frame_not_free (hsub hfte))
    · exact hfree
  entries := by
    intro u p e he
    obtain ⟨e', he', haddr⟩ := hentry u p e he
    refine ⟨e', he', ?_⟩
    by_cases hsame : e'.isLoaded = e.isLoaded
    · exact .inl hsame
    cases hl : e.isLoaded with
    | false =>
        -- a page that is loaded afterwards was in the frame table before
        have hl' : e'.isLoaded = true := by
          rw [hl] at hsame
          simpa using hsame
        obtain ⟨fte, -, hfte, -, hp, -⟩ := h'.tables.loaded_pte he' hl'
        exact absurd hp (h.tables.fte_ne_of_notLoaded he hl (hsub hfte))
    | true =>
        have hl' : e'.isLoaded = false := by
          rw [hl] at hsame
          simpa using hsame
        obtain ⟨fte, -, hfte, rfl, hp, -⟩ := h.tables.loaded_pte he hl
        refine .inr ⟨?_, hl, hl', fte, hfte, hp, ?_, ?_⟩
        · cases hpin : e.pinned with
          | false => rfl
          | true =>
              have hkept := hspares p e he.at_ptr hpin hl
              rw [he'.eq_of_at hkept, hl] at hl'
              cases hl'
        · intro hfte'
          exact h'.tables.fte_ne_of_notLoaded he' hl' hfte' hp
        · rw [← haddr]
          exact h'.tables.pteOf_none he' hl'

/-- Entries that are reshaped stay where they are. -/
theorem Reshapes.entry (h : Reshapes k k') (he : Entry k t p e) :
    ∃ e', Entry k' t p e' ∧ e'.unusedVirtualAddress = e.unusedVirtualAddress := by
  have hrel := h.sptes p fun hun => hun.spt t he.mem
  have hmem : p ∈ k'.spt t := by
    rw [h.spt]
    exact he.mem
  rw [he.at_ptr] at hrel
  cases hat : k'.sptes p with
  | none =>
      rw [hat] at hrel
      cases hrel
  | some e' =>
      rw [hat] at hrel
      cases hrel with
      | some hre => exact ⟨e', ⟨hmem, hat⟩, hre.address⟩

/-- Pages are evicted and the frame is given back. -/
theorem undone_of_freed (h : Sound k) (h₁ : Sound k₁) (hsub : k₁.frameTblList ⊆ k.frameTblList)
    (hpool : k₁.userPool = k.userPool) (hfree : frame ∈ k₁.freePages)
    (hentry : ∀ u q e, Entry k u q e → ∃ e', Entry k₁ u q e' ∧
      e'.unusedVirtualAddress = e.unusedVirtualAddress)
    (hspares : SparesPinned k (freeFrame (holdFrame k₁ t p frame page) (some frame))) :
    Undone k (freeFrame (holdFrame k₁ t p frame page) (some frame)) := by
  have hsound : Sound (freeFrame (holdFrame k₁ t p frame page) (some frame)) :=
    h₁.changes (changes_of_freed (R := .none) h₁ hfree)
  rw [freeFrame_holdFrame h₁ hfree] at hspares hsound ⊢
  refine undone_of_sound h hsound hpool hsub hspares ?_
  intro u q e he
  obtain ⟨e', he', haddr⟩ := hentry u q e he
  exact ⟨e', ⟨he'.mem, he'.at_ptr⟩, haddr⟩

/-! ## The three functions -/

theorem loadFile_undone (h : Sound k) (hx : NoneExiting k) (he : Entry k t p e)
    (hl : e.isLoaded = false) (hty : e.type = .file ∨ e.type = .mmap)
    (hload : loadFile env k t p = .ok (false, k')) : Undone k k' := by
  have hspares : SparesPinned k k' := by
    refine loadFile_spares (fun x hx => ?_) hload
    obtain rfl := he.eq_of_at hx
    exact hl
  obtain ⟨k₁, frame, hev, hfree, -, ⟨-, page, rfl⟩ | ⟨hb, -⟩⟩ := loadFile_cases h hx he hl hty hload
  · exact undone_of_freed h (h.changes (hev.changes .none)) hev.sub (hev.changes .none).userPool
      hfree (fun _ _ _ he => hev.reshapes.entry he) hspares
  · cases hb

theorem loadSwap_undone (h : Sound k) (hx : NoneExiting k) (he : Entry k t p e)
    (hl : e.isLoaded = false) (hload : loadSwap env k t p = .ok (false, k')) : Undone k k' := by
  have hspares : SparesPinned k k' := by
    refine loadSwap_spares (fun x hx => ?_) hload
    obtain rfl := he.eq_of_at hx
    exact hl
  obtain ⟨⟨frame, k₂⟩, halloc, hload⟩ := Lts.bind_eq_ok.mp hload
  obtain ⟨k₁, hev, hfree, rfl⟩ := frameAlloc_ok h hx halloc
  obtain ⟨e₁, -, hload⟩ := Lts.bind_eq_ok.mp hload
  generalize (if false = true then zeroPage else env.garbage) = page at hload
  rcases hinst : installPage env (holdFrame k₁ t p frame page) t e₁.unusedVirtualAddress frame
    e₁.writable with ⟨b, k₂⟩
  rw [hinst] at hload
  cases b with
  | true =>
      obtain ⟨k₃, -, hret⟩ := Lts.bind_eq_ok.mp hload
      cases hret
  | false =>
      cases hload
      rw [installPage_false hinst] at hspares ⊢
      exact undone_of_freed h (h.changes (hev.changes .none)) hev.sub (hev.changes .none).userPool
        hfree (fun _ _ _ he => hev.reshapes.entry he) hspares

/-- `stack_growth` gets as far as `hash_insert`, and the table has an entry for the page. -/
structure Overlaps (env : Env) (n : ℕ) (k : Kernel) (t : Tid) (va : Vaddr) : Prop where
  size : StackPage (pgRoundDown va)
  entry : hashFind k t (pgRoundDown va) ≠ none
  setPage : env.setPage = true
  /-- There is memory for the entry and a frame, and the page is not present. -/
  frame : ∃ p frame k₁, mallocSpte env n k = some p ∧
    frameAlloc env false (k.setSpte p (some (stackEntry (pgRoundDown va)))) t p = .ok (frame, k₁) ∧
    k₁.pteOf t (pgRoundDown va) = none

/-- The entry and the frame are given back. -/
theorem Grows.undone {upage : Vaddr} (hg : Grows k upage p k₁ frame) (h : Sound k)
    (hspares : SparesPinned k
      (freeFrame (holdFrame (k₁.setSpte p none) t p frame page) (some frame))) :
    Undone k (freeFrame (holdFrame (k₁.setSpte p none) t p frame page) (some frame)) := by
  have hc : Changes .none k (k₁.setSpte p none) := (hg.changes h).tail (.cell none (hg.unused h))
  refine undone_of_freed h (h.changes hc) hg.evicts.sub hc.userPool hg.free ?_ hspares
  intro u q e he
  have hne : q ≠ p := by
    rintro rfl
    exact (h.unused hg.fresh).spt u he.mem
  have hcell : Entry (k.setSpte p (some (stackEntry upage))) u q e :=
    ⟨he.mem, (Function.update_of_ne hne ..).trans he.at_ptr⟩
  obtain ⟨e', he', haddr⟩ := hg.evicts.reshapes.entry hcell
  exact ⟨e', ⟨he'.mem, (Function.update_of_ne hne ..).trans he'.at_ptr⟩, haddr⟩

/-- A page that is present, or that the page directory does not take, is not installed. -/
theorem installPage_refused {w : Bool} (hno : ¬ (k.pteOf t va = none ∧ env.setPage = true)) :
    installPage env k t va frame w = (false, k) := by
  by_cases hnone : k.pteOf t va = none
  · rw [installPage_of_none hnone, if_neg fun hset => hno ⟨hnone, hset⟩]
  · unfold installPage pagedirGetPage
    rw [if_neg]
    intro hmap
    exact hnone (Option.map_eq_none_iff.mp hmap)

theorem stackGrowth_undone (h : Sound k) (hx : NoneExiting k)
    (hgrow : stackGrowth env n k t va = .ok (false, k')) :
    Undone k k' ↔ ¬ Overlaps env n k t va := by
  have hspares := stackGrowth_spares hgrow
  unfold stackGrowth at hgrow
  by_cases hsize : physBase - pgRoundDown va > maxStackSize
  · rw [if_pos hsize] at hgrow
    cases hgrow
    exact ⟨fun _ hov => hov.size hsize, fun _ => .refl k⟩
  rw [if_neg hsize] at hgrow
  cases hm : mallocSpte env n k with
  | none =>
      rw [hm] at hgrow
      cases hgrow
      refine ⟨fun _ hov => ?_, fun _ => .refl k⟩
      obtain ⟨p, -, -, hp, -⟩ := hov.frame
      rw [hm] at hp
      cases hp
  | some p =>
      rw [hm] at hgrow
      obtain ⟨⟨frame, k₂⟩, halloc, hgrow⟩ := Lts.bind_eq_ok.mp hgrow
      have hfresh := mallocSpte_some hm
      have hcell : Changes .none k (k.setSpte p (some (stackEntry (pgRoundDown va)))) :=
        .single (.cell _ (h.unused hfresh))
      obtain ⟨k₁, hev, hfree, rfl⟩ := frameAlloc_ok (h.changes hcell) hx halloc
      have hg : Grows k (pgRoundDown va) p k₁ frame := ⟨hsize, hfresh, hev, hfree⟩
      generalize (if false = true then zeroPage else env.garbage) = page at halloc hgrow
      by_cases hinst : (holdFrame k₁ t p frame page).pteOf t (pgRoundDown va) = none ∧
          env.setPage = true
      · -- the mapping is made, and `hash_insert` fails
        dsimp only at hgrow
        rw [installPage_of_none hinst.1, if_pos hinst.2] at hgrow
        have hins := Except.ok.inj hgrow
        unfold hashInsert at hins
        split at hins
        next q hfound =>
          cases hins
          have hfind : hashFind k₁ t (pgRoundDown va) = some q := hfound
          rw [hg.hashFind h] at hfind
          have hov : Overlaps env n k t va := by
            refine ⟨hsize, ?_, hinst.2, p, frame, _, hm, halloc, hinst.1⟩
            rw [hfind]
            exact nofun
          refine ⟨fun hundone => ?_, fun hno => absurd hov hno⟩
          have hnew : FrameTblEnt.mk frame t p ∈ k.frameTblList :=
            hundone.frameTblList (List.mem_append_right _ List.mem_cons_self)
          exact absurd rfl (h.tables.fte_ne_of_unused hnew (h.unused hfresh).spt)
        next => cases hins
      · dsimp only at hgrow
        rw [installPage_refused hinst] at hgrow
        cases hgrow
        refine ⟨fun _ hov => ?_, fun _ => hg.undone h hspares⟩
        obtain ⟨q, f, k₃, hq, halloc', hnone⟩ := hov.frame
        obtain rfl := Option.some.inj (hm.symm.trans hq)
        obtain rfl := (Prod.mk.inj (Except.ok.inj (halloc.symm.trans halloc'))).2
        exact hinst ⟨hnone, hov.setPage⟩

/-! ## The states in which pages are loaded -/

variable {m : Machine}

/-- The states in which process `t` loads pages: while it runs, when `load_page` has pinned
an entry of it, and when `load` has added the segments and calls `setup_stack`. -/
inductive LoadsPages (m : Machine) (t : Tid) : Kernel → Prop where
  | running {k : Kernel} (h : Reachable m k) (ht : k.status t = .alive) : LoadsPages m t k
  | pinned {k : Kernel} {p : Ptr} {e : Spte} (h : Reachable m k) (ht : k.status t = .alive)
      (he : Entry k t p e) : LoadsPages m t (pinEntry k p e)
  | starting {k k' : Kernel} {file : FilePtr} {exe : Inode} {env : Env} {phdrs : List Phdr}
      {segments : List Segment} {n : ℕ} (h : Reachable m k) (ht : k.status t = .absent)
      (hfile : file ∉ k.files) (hsegs : segmentsOf (k.bytesOf exe).length phdrs = some segments)
      (hload : loadSegments env t file 0 segments (startProcess k t file exe) = .ok (true, n, k')) :
      LoadsPages m t k'

theorem LoadsPages.settled (h : LoadsPages m t k) : Settled k := by
  cases h with
  | running h ht => exact settled_of_reachable h
  | @pinned k p e h ht he =>
      obtain ⟨hsound, hx⟩ := settled_of_reachable h
      exact ⟨hsound.pin he.at_ptr true, hx⟩
  | @starting k _ file exe env phdrs segments n h ht hfile hsegs hload =>
      obtain ⟨hsound, hx⟩ := settled_of_reachable h
      have h₀ : Sound (startProcess k t file exe) := hsound.start ht hfile
      have ht₀ : (startProcess k t file exe).status t = .alive := Function.update_self ..
      have hc := loadSegments_changes (R := { Scope.none with enters := fun _ _ => True }) h₀ ht₀
        (Function.update_self ..) (fun _ _ _ _ => trivial) hload
      refine ⟨h₀.changes hc, fun u => ?_⟩
      rw [hc.status]
      show Function.update k.status t .alive u ≠ _
      by_cases hu : u = t
      · rw [hu, Function.update_self]
        decide
      · rw [Function.update_of_ne hu]
        exact hx u

/-! ## The result -/

/-- A load that fails leaves nothing behind, unless `stack_growth` finds the page in the table
after it has mapped it. -/
theorem failed_loads_undone (h : Settled k) (t : Tid) :
    (∀ env p e k', Entry k t p e → e.isLoaded = false → (e.type = .file ∨ e.type = .mmap) →
      loadFile env k t p = .ok (false, k') → Undone k k') ∧
    (∀ env p e k', Entry k t p e → e.isLoaded = false →
      loadSwap env k t p = .ok (false, k') → Undone k k') ∧
    ∀ env n va k', stackGrowth env n k t va = .ok (false, k') →
      (Undone k k' ↔ ¬ Overlaps env n k t va) :=
  ⟨fun _ _ _ _ he hl hty hload => loadFile_undone h.sound h.noneExiting he hl hty hload,
    fun _ _ _ _ he hl hload => loadSwap_undone h.sound h.noneExiting he hl hload,
    fun _ _ _ _ hgrow => stackGrowth_undone h.sound h.noneExiting hgrow⟩

/-- A segment on the page where `setup_stack` puts the stack, which `validate_segment`
accepts. -/
def topSegment : Phdr where
  type := ptLoad
  offset := 0
  vaddr := 0xbffff000
  filesz := 3
  memsz := 0xfff
  flags := pfW

theorem topSegment_accepted : segmentsOf (twoFrames.boot.bytesOf 1).length [topSegment] =
    some [segmentOf topSegment] := by decide +kernel

/-- `setup_stack` fails for it, and leaves a frame and a mapping. -/
theorem stack_growth_overlaps : ∃ n k k', LoadsPages twoFrames 1 k ∧
    stackGrowth (generous 200) n k 1 (physBase - 4096) = .ok (false, k') ∧
    k.frameTblList = [] ∧ k'.frameTblList = [⟨0, 1, 201⟩] ∧ ¬ Undone k k' := by
  have hrun : (loadSegments (generous 200) 1 100 0 [segmentOf topSegment]
      (startProcess twoFrames.boot 1 100 1)).toOption.map (fun r => decide (r.1 = true ∧
        r.2.2.frameTblList = [] ∧
        (stackGrowth (generous 200) r.2.1 r.2.2 1 (physBase - 4096)).toOption.map
          (fun s => (s.1, s.2.frameTblList)) = some (false, [⟨0, 1, 201⟩]))) = some true := by
    decide +kernel
  obtain ⟨⟨b, n, k⟩, hk, hstate⟩ := Option.map_eq_some_iff.mp hrun
  obtain ⟨rfl, hempty, hgrow⟩ := of_decide_eq_true hstate
  obtain ⟨⟨b', k'⟩, hk', hend⟩ := Option.map_eq_some_iff.mp hgrow
  obtain ⟨rfl, htable⟩ := Prod.mk.inj hend
  refine ⟨n, k, k', .starting (.refl _) rfl (by decide) topSegment_accepted
    (Lts.eq_ok_of_toOption hk), Lts.eq_ok_of_toOption hk', hempty, htable, fun hundone => ?_⟩
  have hnew : FrameTblEnt.mk 0 1 201 ∈ k.frameTblList :=
    hundone.frameTblList (by rw [show k'.frameTblList = _ from htable]; exact List.mem_cons_self)
  rw [show k.frameTblList = [] from hempty] at hnew
  cases hnew

/-- When the page directory does not take the page either, everything is undone. -/
theorem failed_loads_undone_run : ∃ n k k', LoadsPages twoFrames 1 k ∧
    stackGrowth { generous 200 with setPage := false } n k 1 (physBase - 4096) = .ok (false, k') ∧
    Undone k k' := by
  have hrun : (loadSegments (generous 200) 1 100 0 [segmentOf topSegment]
      (startProcess twoFrames.boot 1 100 1)).toOption.map (fun r => decide (r.1 = true ∧
        (stackGrowth { generous 200 with setPage := false } r.2.1 r.2.2 1
          (physBase - 4096)).toOption.map (·.1) = some false)) = some true := by
    decide +kernel
  obtain ⟨⟨b, n, k⟩, hk, hstate⟩ := Option.map_eq_some_iff.mp hrun
  obtain ⟨rfl, hgrow⟩ := of_decide_eq_true hstate
  obtain ⟨⟨b', k'⟩, hk', rfl⟩ := Option.map_eq_some_iff.mp hgrow
  have hloads : LoadsPages twoFrames 1 k := .starting (.refl _) rfl (by decide) topSegment_accepted
    (Lts.eq_ok_of_toOption hk)
  have hgrow' := Lts.eq_ok_of_toOption hk'
  refine ⟨n, k, k', hloads, hgrow', ?_⟩
  exact ((failed_loads_undone hloads.settled 1).2.2 _ n _ k' hgrow').mpr fun hov =>
    Bool.false_ne_true hov.setPage

end Pintos.Vm
