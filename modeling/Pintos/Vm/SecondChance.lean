import Pintos.Lib.Clock
import Pintos.Vm.FrameTable

/-! # The page `evict_frame` chooses

The loop of `evict_frame` is a walk of the clock algorithm round the frame
table: pinned pages are passed, the accessed bits are the marks. So it stops
within two rounds (`evictLoop_eq`), and what it then does to the kernel is the
clearing of some accessed bits and the eviction of one page
(`second_chance_eviction`), provided that the page can be saved.
-/

namespace Pintos.Vm

variable {k k' k₁ : Kernel} {t : Tid} {va : Vaddr} {fte v : FrameTblEnt} {e e' : Spte}
  {l : List FrameTblEnt} {n rounds : ℕ}

/-- The thread and the page an entry of the frame table belongs to. -/
def pageOf (k : Kernel) (fte : FrameTblEnt) : Option (Tid × Vaddr) :=
  (k.sptes fte.spte).map fun e => (fte.thread, e.unusedVirtualAddress)

/-- The accessed bits of the pages in the frame table, as the marks of the clock
algorithm; pinned pages may not be chosen. -/
def frameMarks : Clock.Marks Kernel FrameTblEnt where
  skip k fte := (k.sptes fte.spte).any (·.pinned)
  used k fte := (pageOf k fte).any fun page => pagedirIsAccessed k page.1 page.2
  clear k fte := (pageOf k fte).elim k fun page => pagedirSetAccessed k page.1 page.2 false

/-- What `evict_frame` has to save of a page can be saved: a dirty page of a
mapping if its file is open, any other dirty page and every swap page if a swap
slot is free. -/
def Savable (k : Kernel) (fte : FrameTblEnt) (e : Spte) : Prop :=
  pagedirIsDirty k fte.thread e.unusedVirtualAddress = true ∨ e.type = .swap →
    if e.type = .mmap then k.files.lookup e.file ≠ none
    else ∃ s ∈ k.swap, false ∈ s.map

instance : Decidable (Savable k fte e) := inferInstanceAs (Decidable (_ → _))

/-- The messages of the panics that end an eviction whose page cannot be saved. -/
def savePanics : List String :=
  ["Need swap partition but no swap partition present!", "Swap partition is full!", kernelBug]

/-- A kernel in which the page of `v` has been evicted from `k`. -/
structure SecondChance (k k' : Kernel) (v : FrameTblEnt) : Prop where
  /-- Exactly one entry leaves the table; the others stay in their order. -/
  table : ∃ l₁ l₂, k.frameTblList = l₁ ++ v :: l₂ ∧ k'.frameTblList = l₁ ++ l₂
  /-- Its page is not pinned, is not loaded any more and is not mapped. -/
  evicted : ∃ e e', k.sptes v.spte = some e ∧ e.pinned = false ∧ k'.sptes v.spte = some e' ∧
    e'.isLoaded = false ∧ k'.pteOf v.thread e.unusedVirtualAddress = none
  freed : k'.freePages = v.frame :: k.freePages
  /-- The accessed bits that were cleared are those of the unpinned accessed
  pages before the one chosen, in the first or in both rounds. -/
  cleared : ∀ t va, pageOf k v ≠ some (t, va) →
    (∀ fte ∈ frameMarks.spared k.frameTblList k, pageOf k fte = some (t, va) →
      ∃ pte, k.pteOf t va = some pte ∧ pte.accessed = true ∧
        k'.pteOf t va = some { pte with accessed := false }) ∧
    ((∀ fte ∈ frameMarks.spared k.frameTblList k, pageOf k fte ≠ some (t, va)) →
      k'.pteOf t va = k.pteOf t va)
  /-- A pinned page keeps its entries. -/
  pinned : ∀ fte ∈ k.frameTblList, ∀ e, k.sptes fte.spte = some e → e.pinned = true →
    fte ∈ k'.frameTblList ∧ k'.sptes fte.spte = some e ∧
      k'.pteOf fte.thread e.unusedVirtualAddress = k.pteOf fte.thread e.unusedVirtualAddress
  others : ∀ p, p ≠ v.spte → k'.sptes p = k.sptes p

/-! ## Clearing an accessed bit -/

theorem pageOf_eq_some : pageOf k fte = some (t, va) ↔
    fte.thread = t ∧ ∃ e, k.sptes fte.spte = some e ∧ e.unusedVirtualAddress = va := by
  unfold pageOf
  cases k.sptes fte.spte <;> simp

theorem pteOf_setAccessed {u : Tid} {wa : Vaddr} : (pagedirSetAccessed k t va false).pteOf u wa =
    if u = t ∧ wa = va then (k.pteOf u wa).map fun pte => { pte with accessed := false }
    else k.pteOf u wa := by
  unfold pagedirSetAccessed
  cases hpte : k.pteOf t va with
  | none =>
      dsimp only
      split
      next heq => rw [heq.1, heq.2, hpte]; rfl
      next => rfl
  | some pte =>
      dsimp only
      rw [pteOf_setPte]
      split
      next heq => rw [heq.1, heq.2, hpte]; rfl
      next => rfl

/-- Clearing an accessed bit leaves everything else of the kernel alone. -/
theorem clear_frame (k : Kernel) (fte : FrameTblEnt) :
    ∃ pagedir, frameMarks.clear k fte = { k with pagedir := pagedir } := by
  show ∃ pagedir, (pageOf k fte).elim k _ = _
  cases pageOf k fte with
  | none => exact ⟨k.pagedir, rfl⟩
  | some page =>
      show ∃ pagedir, pagedirSetAccessed k page.1 page.2 false = _
      unfold pagedirSetAccessed
      cases k.pteOf page.1 page.2 with
      | none => exact ⟨k.pagedir, rfl⟩
      | some pte => exact ⟨_, rfl⟩

theorem pteOf_clear : (frameMarks.clear k fte).pteOf t va =
    if pageOf k fte = some (t, va) then (k.pteOf t va).map fun pte => { pte with accessed := false }
    else k.pteOf t va := by
  show ((pageOf k fte).elim k _).pteOf t va = _
  cases hpage : pageOf k fte with
  | none => simp
  | some page =>
      show (pagedirSetAccessed k page.1 page.2 false).pteOf t va = _
      rw [pteOf_setAccessed]
      simp only [Option.some.injEq, Prod.ext_iff, @eq_comm _ t, @eq_comm _ va]

theorem used_iff : frameMarks.used k fte = true ↔ ∃ t va pte, pageOf k fte = some (t, va) ∧
    k.pteOf t va = some pte ∧ pte.accessed = true := by
  show (pageOf k fte).any _ = true ↔ _
  rcases pageOf k fte with _ | ⟨t, va⟩
  · simp
  · rw [Option.any_some]
    cases hpte : k.pteOf t va with
    | none => simp [pagedirIsAccessed, hpte]
    | some pte => simp [pagedirIsAccessed, hpte]

theorem skip_eq (he : k.sptes fte.spte = some e) : frameMarks.skip k fte = e.pinned := by
  show (k.sptes fte.spte).any _ = _
  rw [he]
  rfl

/-- What the marks of a page are read off. -/
theorem marks_congr (hsptes : k'.sptes = k.sptes)
    (hpte : ∀ t va, pageOf k fte = some (t, va) → k'.pteOf t va = k.pteOf t va) :
    frameMarks.skip k' fte = frameMarks.skip k fte ∧
      frameMarks.used k' fte = frameMarks.used k fte := by
  have hpage : pageOf k' fte = pageOf k fte := by
    unfold pageOf
    rw [hsptes]
  constructor
  · show (k'.sptes fte.spte).any _ = (k.sptes fte.spte).any _
    rw [hsptes]
  · rw [Bool.eq_iff_iff, used_iff, used_iff, hpage]
    constructor
    · rintro ⟨t, va, pte, hp, hk', hacc⟩
      exact ⟨t, va, pte, hp, (hpte t va hp).symm.trans hk', hacc⟩
    · rintro ⟨t, va, pte, hp, hk, hacc⟩
      exact ⟨t, va, pte, hp, (hpte t va hp).trans hk, hacc⟩

/-- Entries of different pages do not share an accessed bit. -/
theorem frameMarks_lawful (hpages : (k.frameTblList.map (pageOf k)).Nodup) :
    frameMarks.Lawful (fun k' => k'.sptes = k.sptes ∧ k'.frameTblList = k.frameTblList)
      k.frameTblList where
  keeps := by
    rintro k' ⟨hsptes, htable⟩ fte _
    rcases clear_frame k' fte with ⟨pagedir, hclear⟩
    rw [hclear]
    exact ⟨hsptes, htable⟩
  skip_clear := by
    rintro k' - fte _ fte' _
    rcases clear_frame k' fte with ⟨pagedir, hclear⟩
    rw [hclear]
    rfl
  used_clear_self := by
    rintro k' - fte _
    apply Bool.eq_false_iff.mpr
    intro hused
    rcases used_iff.mp hused with ⟨t, va, pte, hpage, hpte, hacc⟩
    have hpage' : pageOf k' fte = some (t, va) := by
      rcases clear_frame k' fte with ⟨pagedir, hclear⟩
      rw [hclear] at hpage
      exact hpage
    rw [pteOf_clear, if_pos hpage', Option.map_eq_some_iff] at hpte
    rcases hpte with ⟨pte', -, rfl⟩
    cases hacc
  used_clear_of_ne := by
    rintro k' ⟨hsptes, -⟩ fte hfte fte' hfte' hne
    refine (marks_congr ?_ ?_).2
    · rcases clear_frame k' fte with ⟨pagedir, hclear⟩
      rw [hclear]
    · intro t va hpage'
      rw [pteOf_clear, if_neg]
      intro hpage
      have hkpage : pageOf k fte = pageOf k fte' := by
        unfold pageOf at hpage hpage' ⊢
        rw [← hsptes]
        exact hpage.trans hpage'.symm
      exact hne (List.inj_on_of_nodup_map hpages hfte hfte' hkpage)

/-! ## The loop -/

/-- Where the walk ends the loop takes the page. -/
theorem evictLoop_of_walk (hwalk : frameMarks.walk k.frameTblList n l k = some (v, k₁)) :
    evictLoop n l k = deref (k₁.sptes v.spte) >>= evictPage k₁ v := by
  induction n generalizing l k with
  | zero => cases hwalk
  | succ n ih =>
      cases l with
      | nil => cases hwalk
      | cons fte rest =>
          unfold Clock.Marks.walk at hwalk
          unfold evictLoop
          dsimp only at hwalk
          cases he : k.sptes fte.spte with
          | none =>
              -- no page: the walk stops here, and the kernel faults
              have hskip : frameMarks.skip k fte = false := by
                show (k.sptes fte.spte).any _ = false
                rw [he]
                rfl
              have hused : frameMarks.used k fte = false := by
                show (pageOf k fte).any _ = false
                rw [pageOf, he]
                rfl
              rw [if_neg (by simp [hskip]), if_neg (by simp [hused])] at hwalk
              cases hwalk
              rw [he]
              rfl
          | some e =>
              have hpage : pageOf k fte = some (fte.thread, e.unusedVirtualAddress) := by
                rw [pageOf, he]
                rfl
              have hskip : frameMarks.skip k fte = e.pinned := skip_eq he
              have hused : frameMarks.used k fte =
                  pagedirIsAccessed k fte.thread e.unusedVirtualAddress := by
                show (pageOf k fte).any _ = _
                rw [hpage]
                rfl
              have hclear : frameMarks.clear k fte =
                  pagedirSetAccessed k fte.thread e.unusedVirtualAddress false := by
                show (pageOf k fte).elim k _ = _
                rw [hpage]
                rfl
              show (if e.pinned then _ else _) = _
              rw [hskip, hused, hclear] at hwalk
              by_cases hpin : e.pinned = true
              · rw [if_pos hpin] at hwalk ⊢
                exact ih hwalk
              · rw [if_neg hpin] at hwalk ⊢
                by_cases hacc : pagedirIsAccessed k fte.thread e.unusedVirtualAddress = true
                · rw [if_pos hacc] at hwalk ⊢
                  apply ih
                  rw [← hclear] at hwalk ⊢
                  rcases clear_frame k fte with ⟨pagedir, hk⟩
                  rw [hk] at hwalk ⊢
                  exact hwalk
                · rw [if_neg hacc] at hwalk ⊢
                  cases hwalk
                  rw [he]
                  rfl

/-- The kernel after the accessed bits of the entries in `l` have been cleared. -/
theorem foldl_clear_frame (l : List FrameTblEnt) (k : Kernel) :
    ∃ pagedir, l.foldl frameMarks.clear k = { k with pagedir := pagedir } := by
  induction l generalizing k with
  | nil => exact ⟨k.pagedir, rfl⟩
  | cons fte l ih =>
      rcases clear_frame k fte with ⟨pagedir, hk⟩
      rcases ih (frameMarks.clear k fte) with ⟨pagedir', hl⟩
      refine ⟨pagedir', ?_⟩
      rw [List.foldl_cons, hl, hk]

theorem pteOf_foldl_clear (l : List FrameTblEnt) (k : Kernel) :
    (l.foldl frameMarks.clear k).pteOf t va =
      if ∃ fte ∈ l, pageOf k fte = some (t, va) then
        (k.pteOf t va).map fun pte => { pte with accessed := false }
      else k.pteOf t va := by
  induction l generalizing k with
  | nil => simp
  | cons fte l ih =>
      have hpage : ∀ fte', pageOf (frameMarks.clear k fte) fte' = pageOf k fte' := by
        intro fte'
        rcases clear_frame k fte with ⟨pagedir, hk⟩
        rw [hk]
        rfl
      rw [List.foldl_cons, ih, pteOf_clear]
      simp only [hpage, List.mem_cons, exists_eq_or_imp]
      by_cases hfte : pageOf k fte = some (t, va)
      · -- clearing a bit twice is clearing it once
        simp only [hfte, if_true, true_or, Option.map_map]
        split
        next => rfl
        next => rfl
      · simp only [hfte, if_false, false_or]

/-- The loop of `evict_frame` examines at most twice as many entries as the table
has and then evicts the page of the clock algorithm's choice. -/
theorem evictLoop_eq (hpages : (k.frameTblList.map (pageOf k)).Nodup)
    (hunpinned : ∃ fte ∈ k.frameTblList, frameMarks.skip k fte = false)
    (hrounds : 2 * k.frameTblList.length ≤ rounds) :
    ∃ v, frameMarks.choice k.frameTblList k = some v ∧
      evictLoop rounds k.frameTblList k = deref (k.sptes v.spte) >>= evictPage
        ((frameMarks.spared k.frameTblList k).foldl frameMarks.clear k) v := by
  rcases Clock.Marks.walk_eq (frameMarks_lawful hpages) ⟨rfl, rfl⟩ (List.Nodup.of_map _ hpages)
    hunpinned hrounds with ⟨v, hchoice, hwalk⟩
  refine ⟨v, hchoice, ?_⟩
  rw [evictLoop_of_walk hwalk]
  rcases foldl_clear_frame (frameMarks.spared k.frameTblList k) k with ⟨pagedir, hk⟩
  rw [hk]

/-! ## Saving the page -/

theorem savePage_of_savable (h : Savable k fte e) :
    ∃ e' k', savePage k fte e = .ok (e', k') := by
  unfold savePage
  by_cases hsave : pagedirIsDirty k fte.thread e.unusedVirtualAddress = true ∨ e.type = .swap
  · have hroom := h hsave
    rw [if_pos hsave]
    by_cases hmmap : e.type = .mmap
    · rw [if_pos hmmap] at hroom ⊢
      rcases Option.ne_none_iff_exists'.mp hroom with ⟨o, ho⟩
      unfold fileWriteAt
      rw [ho]
      exact ⟨_, _, rfl⟩
    · rw [if_neg hmmap] at hroom ⊢
      rcases hroom with ⟨s, hs, hfree⟩
      have hfind : (s.map.findIdx? fun inUse => !inUse).isSome :=
        List.findIdx?_isSome.trans (List.any_eq_true.mpr ⟨false, hfree, rfl⟩)
      rcases Option.isSome_iff_exists.mp hfind with ⟨j, hj⟩
      unfold swapOut
      rw [hs]
      dsimp only
      rw [hj]
      exact ⟨_, _, rfl⟩
  · rw [if_neg hsave]
    exact ⟨_, _, rfl⟩

/-- A page that cannot be saved stops the kernel. -/
theorem savePage_panics (h : ¬ Savable k fte e) :
    ∃ msg ∈ savePanics, savePage k fte e = .error msg := by
  unfold Savable at h
  rw [Classical.not_imp] at h
  rcases h with ⟨hsave, hroom⟩
  unfold savePage
  rw [if_pos hsave]
  by_cases hmmap : e.type = .mmap
  · rw [if_pos hmmap, not_not] at hroom
    rw [if_pos hmmap]
    unfold fileWriteAt
    rw [hroom]
    exact ⟨kernelBug, by simp [savePanics], rfl⟩
  · rw [if_neg hmmap] at hroom ⊢
    unfold swapOut
    cases hs : k.swap with
    | none => exact ⟨_, by simp [savePanics], rfl⟩
    | some s =>
        have hfull : (s.map.findIdx? fun inUse => !inUse) = none := by
          refine List.findIdx?_eq_none_iff.mpr ?_
          intro inUse hm
          cases inUse with
          | false => exact absurd ⟨s, hs, hm⟩ hroom
          | true => rfl
        dsimp only
        rw [hfull]
        exact ⟨_, by simp [savePanics], rfl⟩

/-- Clearing accessed bits does not change what can be saved. -/
theorem savable_foldl_clear (l : List FrameTblEnt) :
    Savable (l.foldl frameMarks.clear k) fte e ↔ Savable k fte e := by
  have hdirty : pagedirIsDirty (l.foldl frameMarks.clear k) fte.thread e.unusedVirtualAddress =
      pagedirIsDirty k fte.thread e.unusedVirtualAddress := by
    unfold pagedirIsDirty
    rw [pteOf_foldl_clear]
    split
    next => cases k.pteOf fte.thread e.unusedVirtualAddress <;> rfl
    next => rfl
  rcases foldl_clear_frame l k with ⟨pagedir, hk⟩
  unfold Savable
  rw [hdirty, hk]

/-- The page that is taken, once it has been saved. -/
theorem evictPage_eq (hsave : savePage k fte e = .ok (e', k')) :
    evictPage k fte e = .ok (unmapPage k' fte { e' with isLoaded := false }) ∧
      e'.unusedVirtualAddress = e.unusedVirtualAddress := by
  constructor
  · unfold evictPage
    rw [hsave]
    rfl
  · cases saved_of_savePage hsave <;> rfl

/-! ## The whole eviction -/

/-- Two entries with one page are one entry. -/
theorem eq_of_pageOf (hpages : (k.frameTblList.map (pageOf k)).Nodup) {fte' : FrameTblEnt}
    (hfte : fte ∈ k.frameTblList) (hfte' : fte' ∈ k.frameTblList)
    (h : pageOf k fte = some (t, va)) (h' : pageOf k fte' = some (t, va)) : fte = fte' :=
  List.inj_on_of_nodup_map hpages hfte hfte' (h.trans h'.symm)

theorem secondChance_of_evictPage (hpages : (k.frameTblList.map (pageOf k)).Nodup)
    (hv : v ∈ k.frameTblList) (he : k.sptes v.spte = some e) (hpin : e.pinned = false)
    (hev : evictPage ((frameMarks.spared k.frameTblList k).foldl frameMarks.clear k) v e =
      .ok k') : SecondChance k k' v := by
  set spared := frameMarks.spared k.frameTblList k with hspared
  have hpageV : pageOf k v = some (v.thread, e.unusedVirtualAddress) :=
    pageOf_eq_some.mpr ⟨rfl, e, he, rfl⟩
  rcases foldl_clear_frame spared k with ⟨pagedir, hk₁⟩
  have hpte₁ : ∀ t va, (spared.foldl frameMarks.clear k).pteOf t va = _ :=
    fun t va => pteOf_foldl_clear spared k
  generalize spared.foldl frameMarks.clear k = k₁ at hev hk₁ hpte₁
  rcases Lts.bind_eq_ok.mp hev with ⟨⟨e', k₂⟩, hsave, -⟩
  rcases evictPage_eq hsave with ⟨heq, haddr⟩
  rw [heq] at hev
  obtain rfl : unmapPage k₂ v { e' with isLoaded := false } = k' := Except.ok.inj hev
  rcases (saved_of_savePage hsave).frame with ⟨swap, inodes, hk₂⟩
  have hpte : ∀ t va, pageOf k v ≠ some (t, va) →
      (unmapPage k₂ v { e' with isLoaded := false }).pteOf t va = k₁.pteOf t va := by
    intro t va hne
    rw [pteOf_unmapPage, if_neg, hk₂]
    · rfl
    · rintro ⟨rfl, rfl⟩
      rw [hpageV, haddr] at hne
      exact hne rfl
  constructor
  case table =>
    rcases List.exists_erase_eq hv with ⟨l₁, l₂, -, hsplit, herase⟩
    refine ⟨l₁, l₂, hsplit, ?_⟩
    show k₂.frameTblList.erase v = l₁ ++ l₂
    rw [hk₂, hk₁]
    exact herase
  case evicted =>
    refine ⟨e, { e' with isLoaded := false }, he, hpin, Function.update_self .., rfl, ?_⟩
    rw [pteOf_unmapPage, if_pos ⟨rfl, haddr.symm⟩]
  case freed =>
    show v.frame :: k₂.freePages = _
    rw [hk₂, hk₁]
  case cleared =>
    intro t va hne
    rw [hpte t va hne, hpte₁]
    constructor
    · intro fte hfte hpage
      rcases Clock.Marks.mem_spared hfte with ⟨hmem, -, hused⟩
      rcases used_iff.mp hused with ⟨t', va', pte, hpage', hpte', hacc⟩
      obtain ⟨rfl, rfl⟩ : t = t' ∧ va = va' := by
        simpa using hpage.symm.trans hpage'
      refine ⟨pte, hpte', hacc, ?_⟩
      rw [if_pos ⟨fte, hfte, hpage⟩, hpte']
      rfl
    · intro hnone
      rw [if_neg]
      rintro ⟨fte, hfte, hpage⟩
      exact hnone fte hfte hpage
  case pinned =>
    intro fte hfte x hx hpinned
    have hskip : frameMarks.skip k fte = true := (skip_eq hx).trans hpinned
    have hskipV : frameMarks.skip k v = false := (skip_eq he).trans hpin
    have hne : fte ≠ v := by
      rintro rfl
      rw [hskip] at hskipV
      cases hskipV
    have hpage : pageOf k fte = some (fte.thread, x.unusedVirtualAddress) :=
      pageOf_eq_some.mpr ⟨rfl, x, hx, rfl⟩
    have hspte : fte.spte ≠ v.spte := by
      intro heq
      rw [heq, he] at hx
      cases hx
      rw [hpin] at hpinned
      cases hpinned
    refine ⟨?_, ?_, ?_⟩
    · show fte ∈ k₂.frameTblList.erase v
      rw [hk₂, hk₁]
      exact (List.mem_erase_of_ne hne).mpr hfte
    · show Function.update k₂.sptes v.spte _ fte.spte = some x
      rw [Function.update_of_ne hspte, hk₂, hk₁]
      exact hx
    · -- neither the page of `v` nor one that was spared is this one
      have hneV : pageOf k v ≠ some (fte.thread, x.unusedVirtualAddress) :=
        fun hp => hne (eq_of_pageOf hpages hfte hv hpage hp)
      rw [hpte _ _ hneV, hpte₁, if_neg]
      rintro ⟨fte', hfte', hpage'⟩
      rcases Clock.Marks.mem_spared hfte' with ⟨hmem', hskip', -⟩
      rw [eq_of_pageOf hpages hmem' hfte hpage' hpage, hskip] at hskip'
      cases hskip'
  case others =>
    intro p hp
    show Function.update k₂.sptes v.spte _ p = _
    rw [Function.update_of_ne hp, hk₂, hk₁]

/-- Second-chance eviction. Let the entries of the frame table belong to pairwise
distinct pages of threads, at least one of them not pinned. Then the loop of
`evict_frame` ends after examining at most twice as many entries as there are,
at the first unpinned one whose accessed bit is clear or, if there is none, at
the first unpinned one. If the page can be saved it is evicted, and of the rest
only the accessed bits of unpinned accessed pages passed are cleared; if it
cannot, the kernel panics. -/
theorem second_chance_eviction {pages : List (Tid × Vaddr)}
    (hpages : k.frameTblList.map (pageOf k) = pages.map some) (hdistinct : pages.Nodup)
    (hunpinned : ∃ fte ∈ k.frameTblList, frameMarks.skip k fte = false)
    (hrounds : 2 * k.frameTblList.length ≤ rounds) :
    ∃ v e, frameMarks.choice k.frameTblList k = some v ∧ k.sptes v.spte = some e ∧
      (Savable k v e → ∃ k', evictLoop rounds k.frameTblList k = .ok k' ∧ SecondChance k k' v) ∧
      (¬ Savable k v e →
        ∃ msg ∈ savePanics, evictLoop rounds k.frameTblList k = .error msg) := by
  have hnodup : (k.frameTblList.map (pageOf k)).Nodup := by
    rw [hpages]
    exact hdistinct.map fun _ _ heq => Option.some.inj heq
  rcases evictLoop_eq hnodup hunpinned hrounds with ⟨v, hchoice, hloop⟩
  rcases Clock.Marks.choice_some hchoice with ⟨hv, hskip⟩
  have hpage : pageOf k v ∈ pages.map some := hpages ▸ List.mem_map_of_mem hv
  rcases List.mem_map.mp hpage with ⟨⟨t, va⟩, -, hsome⟩
  rcases pageOf_eq_some.mp hsome.symm with ⟨-, e, he, -⟩
  have hpin : e.pinned = false := (skip_eq he).symm.trans hskip
  rw [he] at hloop
  refine ⟨v, e, hchoice, he, ?_, ?_⟩
  · intro hsavable
    rcases savePage_of_savable ((savable_foldl_clear _).mpr hsavable) with ⟨e', k₁, hsave⟩
    have hev := (evictPage_eq hsave).1
    exact ⟨_, hloop.trans hev, secondChance_of_evictPage hnodup hv he hpin hev⟩
  · intro hstuck
    rcases savePage_panics fun h => hstuck ((savable_foldl_clear _).mp h) with ⟨msg, hmsg, hsave⟩
    refine ⟨msg, hmsg, hloop.trans ?_⟩
    show evictPage _ v e = _
    unfold evictPage
    rw [hsave]
    rfl

/-- In the run of the frame table the unpinned one of two pages is evicted. -/
theorem second_chance_eviction_run : ∃ k k', Reachable twoFrames k ∧
    k.frameTblList = [⟨0, 1, 102⟩, ⟨1, 1, 100⟩] ∧
    evictLoop 4 k.frameTblList k = .ok k' ∧ SecondChance k k' ⟨1, 1, 100⟩ := by
  have hrun : (runActs twoFrames.boot swapRun).toOption.map (fun k => decide
      (k.frameTblList = [⟨0, 1, 102⟩, ⟨1, 1, 100⟩] ∧
        k.frameTblList.map (pageOf k) = [(1, 0xbffff000), (1, 0x08049000)].map some ∧
        frameMarks.skip k ⟨1, 1, 100⟩ = false ∧
        frameMarks.choice k.frameTblList k = some ⟨1, 1, 100⟩ ∧
        (k.sptes 100).all fun e => Savable k ⟨1, 1, 100⟩ e)) = some true := by decide +kernel
  rcases Option.map_eq_some_iff.mp hrun with ⟨k, hk, hall⟩
  rcases of_decide_eq_true hall with ⟨htable, hpages, hskip, hchoice, hsavable⟩
  have hreach : Reachable twoFrames k := ⟨swapRun, run_of_runActs (Lts.eq_ok_of_toOption hk)⟩
  have hlen : 2 * k.frameTblList.length ≤ 4 := by
    rw [htable]
    decide
  rcases second_chance_eviction hpages (by decide) ⟨⟨1, 1, 100⟩, by simp [htable], hskip⟩ hlen with
    ⟨v, e, hv, he, hok, -⟩
  obtain rfl : v = ⟨1, 1, 100⟩ := Option.some.inj (hv.symm.trans hchoice)
  have he' : k.sptes 100 = some e := he
  rw [he', Option.all_some, decide_eq_true_eq] at hsavable
  rcases hok hsavable with ⟨k', hloop, hsecond⟩
  exact ⟨k, k', hreach, htable, hloop, hsecond⟩

/-- A machine with two pages for users and one swap slot. -/
def oneSlot : Machine where
  listed := true
  pool := [0, 1]
  pool_nodup := nodup_twoPages
  mem := fun _ => zeroPage
  swapBlock := some (8, fun _ _ => 0)
  inodes := fun i => if i = 1 then some ⟨[7, 8, 9], length_threeBytes⟩ else none

/-- A process stores to two pages of its executable, of which only one fits beside
its stack: the first goes to the swap slot. -/
def fullRun : List Act :=
  [.load 1 1 [⟨0, 0x08049000, 3, 8189, true⟩] (generous 100),
   .pageFault 1 0x08049001 0xbffffff0 (generous 200),
   .userStore 1 0x08049002 42,
   .pageFault 1 0x0804a000 0xbffffff0 (generous 300),
   .userStore 1 0x0804a000 42]

/-- Then the loop of `evict_frame` finds the only page that is not pinned, and no
swap slot for it. -/
theorem eviction_panics : ∃ k, Reachable oneSlot k ∧
    k.frameTblList.map (pageOf k) = [(1, 0xbffff000), (1, 0x0804a000)].map some ∧
    (∃ fte ∈ k.frameTblList, frameMarks.skip k fte = false) ∧
    evictLoop (2 * k.frameTblList.length) k.frameTblList k =
      .error "Swap partition is full!" := by
  have hrun : (runActs oneSlot.boot fullRun).toOption.map (fun k => decide
      (k.frameTblList.map (pageOf k) = [(1, 0xbffff000), (1, 0x0804a000)].map some ∧
        (∃ fte ∈ k.frameTblList, frameMarks.skip k fte = false) ∧
        (match evictLoop (2 * k.frameTblList.length) k.frameTblList k with
          | .ok _ => false
          | .error msg => msg = "Swap partition is full!") = true)) = some true := by
    decide +kernel
  rcases Option.map_eq_some_iff.mp hrun with ⟨k, hk, hall⟩
  rcases of_decide_eq_true hall with ⟨hpages, hunpinned, hloop⟩
  refine ⟨k, ⟨fullRun, run_of_runActs (Lts.eq_ok_of_toOption hk)⟩, hpages, hunpinned, ?_⟩
  cases hresult : evictLoop (2 * k.frameTblList.length) k.frameTblList k with
  | ok k' =>
      rw [hresult] at hloop
      cases hloop
  | error msg =>
      rw [hresult] at hloop
      exact congrArg Except.error (of_decide_eq_true hloop)

end Pintos.Vm
