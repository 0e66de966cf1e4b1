import Pintos.Vm.Pins

/-! # What is in a page that a process gets

Two states that differ in the contents of frames and of swap slots only go through
`load_file` and `stack_growth` alike, evictions included. `load_file` then has
overwritten the frame: the process reads the file, and zeros after it. `stack_growth`
writes nothing, so the process reads what `palloc_get_page` left in the frame.

A page of a mapping that is dirty is taken to be a part of its file, to which an
eviction writes it.
-/

namespace Pintos.Vm

/-- What of the swap block does not depend on the contents of its slots. -/
def Swap.slots (s : Swap) : ℕ × List Bool := (s.blockSize, s.map)

/-- The states differ in the contents of frames and of swap slots only. -/
inductive SameTables (k : Kernel) : Kernel → Prop
  | mk (mem : Frame → Page) (swap : Option Swap) (hist : List Event)
      (hslots : swap.map Swap.slots = k.swap.map Swap.slots) :
      SameTables k { k with mem := mem, swap := swap, hist := hist }

/-- The frame holds a page of a mapping that has yet to be written to its file. -/
def Unwritten (k : Kernel) (fte : FrameTblEnt) : Prop :=
  ∃ e, k.sptes fte.spte = some e ∧ e.type = .mmap ∧
    pagedirIsDirty k fte.thread e.unusedVirtualAddress = true

/-- And the files will be the same: what has yet to be written to them is. -/
inductive Alike (k : Kernel) : Kernel → Prop
  | mk (mem : Frame → Page) (swap : Option Swap) (hist : List Event)
      (hslots : swap.map Swap.slots = k.swap.map Swap.slots)
      (hfiles : ∀ fte ∈ k.frameTblList, Unwritten k fte → mem fte.frame = k.mem fte.frame) :
      Alike k { k with mem := mem, swap := swap, hist := hist }

theorem Alike.sameTables {k k₂ : Kernel} (h : Alike k k₂) : SameTables k k₂ := by
  cases h with
  | mk mem swap hist hslots _ => exact .mk mem swap hist hslots

theorem SameTables.sptes {k k₂ : Kernel} (h : SameTables k k₂) : k₂.sptes = k.sptes := by
  cases h
  rfl

theorem SameTables.frameTblList {k k₂ : Kernel} (h : SameTables k k₂) :
    k₂.frameTblList = k.frameTblList := by
  cases h
  rfl

theorem SameTables.pteOf {k k₂ : Kernel} (h : SameTables k k₂) (t : Tid) (va : Vaddr) :
    k₂.pteOf t va = k.pteOf t va := by
  cases h
  rfl

theorem SameTables.files {k k₂ : Kernel} (h : SameTables k k₂) : k₂.files = k.files := by
  cases h
  rfl

/-- The page that a process reads from at an address. -/
def readable (k : Kernel) (t : Tid) (va : Vaddr) : Option Page :=
  (k.pteOf t va).map fun pte => k.mem pte.frame

variable {k k' k₁ k₂ : Kernel} {fte : FrameTblEnt} {e e' : Spte} {env : Env} {zero : Bool}
  {frame : Frame} {t : Tid} {p : Ptr} {g : Page} {n : ℕ} {b : Bool} {va : Vaddr}

/-! ## Pages that have yet to be written -/

/-- Another state has fewer such pages, if the entry it has for the page is no other. -/
theorem Unwritten.of_dirty (h : Unwritten k' fte)
    (hentry : ∀ x, k'.sptes fte.spte = some x → x.type = .mmap →
      ∃ e, k.sptes fte.spte = some e ∧ e.type = .mmap ∧
        e.unusedVirtualAddress = x.unusedVirtualAddress)
    (hdirty : ∀ wa, pagedirIsDirty k' fte.thread wa = true → pagedirIsDirty k fte.thread wa = true) :
    Unwritten k fte := by
  obtain ⟨x, hx, hmmap, hd⟩ := h
  obtain ⟨e, he, htype, haddr⟩ := hentry x hx hmmap
  refine ⟨e, he, htype, ?_⟩
  rw [haddr]
  exact hdirty _ hd

/-- One entry of the heap is written, and stays the entry of its page if it is of a mapping. -/
theorem Unwritten.of_update (h : Unwritten k' fte)
    (hsptes : k'.sptes = Function.update k.sptes p (some e'))
    (he : e'.type = .mmap → ∃ e, k.sptes p = some e ∧ e.type = .mmap ∧
      e.unusedVirtualAddress = e'.unusedVirtualAddress)
    (hdirty : ∀ wa, pagedirIsDirty k' fte.thread wa = true → pagedirIsDirty k fte.thread wa = true) :
    Unwritten k fte := by
  refine h.of_dirty (fun x hx hmmap => ?_) hdirty
  rw [hsptes] at hx
  by_cases hp : fte.spte = p
  · rw [hp, Function.update_self] at hx
    obtain rfl := Option.some.inj hx
    rw [hp]
    exact he hmmap
  · rw [Function.update_of_ne hp] at hx
    exact ⟨x, hx, hmmap, rfl⟩

theorem pagedirIsDirty_setAccessed {u : Tid} {wa : Vaddr} {accessed : Bool} :
    pagedirIsDirty (pagedirSetAccessed k t va accessed) u wa = pagedirIsDirty k u wa := by
  unfold pagedirSetAccessed
  cases hpte : k.pteOf t va with
  | none => rfl
  | some pte =>
      unfold pagedirIsDirty
      dsimp only
      rw [pteOf_setPte]
      split
      · rename_i heq
        rw [heq.1, heq.2, hpte]
        rfl
      · rfl

theorem pagedirIsDirty_of_unmapPage {u : Tid} {wa : Vaddr}
    (h : pagedirIsDirty (unmapPage k fte e) u wa = true) : pagedirIsDirty k u wa = true := by
  unfold pagedirIsDirty at h ⊢
  rw [pteOf_unmapPage] at h
  split at h
  · cases h
  · exact h

/-! ## Evictions -/

theorem swapOut_alike {index : ℕ} (h : Alike k k₂) (hout : swapOut k frame = .ok (index, k')) :
    ∃ k₂', swapOut k₂ frame = .ok (index, k₂') ∧ Alike k' k₂' := by
  cases h with
  | mk mem swap hist hslots hfiles =>
      unfold swapOut at hout ⊢
      cases hs : k.swap with
      | none =>
          rw [hs] at hout
          cases hout
      | some s =>
          rw [hs] at hout hslots
          obtain ⟨s₂, rfl, hs₂⟩ := Option.map_eq_some_iff.mp hslots
          have hmap : s₂.map = s.map := (Prod.mk.inj hs₂).2
          have hblock : s₂.blockSize = s.blockSize := (Prod.mk.inj hs₂).1
          dsimp only at hout ⊢
          rw [hmap]
          cases hidx : s.map.findIdx? (fun inUse => !inUse) with
          | none =>
              rw [hidx] at hout
              cases hout
          | some i =>
              rw [hidx] at hout
              cases hout
              refine ⟨_, rfl, .mk mem _ hist ?_ hfiles⟩
              show some (s₂.blockSize, s₂.map.set index true) =
                some (s.blockSize, s.map.set index true)
              rw [hmap, hblock]

theorem inodeWriteAt_alike {i : Inode} {data : ℕ → UInt8} {size ofs : ℕ} (h : Alike k k₂) :
    Alike (inodeWriteAt k i data size ofs) (inodeWriteAt k₂ i data size ofs) := by
  cases h with
  | mk mem swap hist hslots hfiles =>
      unfold inodeWriteAt
      by_cases hdenied : WritesDenied k i
      · have hdenied₂ : WritesDenied { k with mem := mem, swap := swap, hist := hist } i := hdenied
        rw [if_pos hdenied, if_pos hdenied₂]
        exact .mk mem swap hist hslots hfiles
      · have hdenied₂ : ¬ WritesDenied { k with mem := mem, swap := swap, hist := hist } i := hdenied
        rw [if_neg hdenied, if_neg hdenied₂]
        exact .mk mem swap hist hslots hfiles

theorem savePage_alike (h : Alike k k₂) (hfte : fte ∈ k.frameTblList)
    (he : k.sptes fte.spte = some e) (hsave : savePage k fte e = .ok (e', k')) :
    ∃ k₂', savePage k₂ fte e = .ok (e', k₂') ∧ Alike k' k₂' := by
  have hdirty : pagedirIsDirty k₂ fte.thread e.unusedVirtualAddress =
      pagedirIsDirty k fte.thread e.unusedVirtualAddress := by
    unfold pagedirIsDirty
    rw [h.sameTables.pteOf]
  unfold savePage at hsave ⊢
  rw [hdirty]
  by_cases hcond : pagedirIsDirty k fte.thread e.unusedVirtualAddress = true ∨ e.type = .swap
  · rw [if_pos hcond] at hsave ⊢
    by_cases hmmap : e.type = .mmap
    · -- the bytes that go to the file are the same
      rw [if_pos hmmap] at hsave ⊢
      have hmem : k₂.mem fte.frame = k.mem fte.frame := by
        have hd : pagedirIsDirty k fte.thread e.unusedVirtualAddress = true := by
          apply hcond.resolve_right
          rw [hmmap]
          exact nofun
        cases h with
        | mk mem swap hist hslots hfiles => exact hfiles fte hfte ⟨e, he, hmmap, hd⟩
      obtain ⟨k₁, hwrite, hret⟩ := Lts.bind_eq_ok.mp hsave
      obtain ⟨o, ho, hk₁⟩ := Lts.bind_eq_ok.mp hwrite
      cases hk₁
      cases hret
      have hwrite₂ : fileWriteAt k₂ e.file (pageByte (k₂.mem fte.frame)) e.readBytes.toNat
          e.offset.toNat = .ok (inodeWriteAt k₂ o.inode (pageByte (k.mem fte.frame))
            e.readBytes.toNat e.offset.toNat) := by
        unfold fileWriteAt
        rw [h.sameTables.files, ho, hmem]
        rfl
      rw [hwrite₂]
      exact ⟨_, rfl, inodeWriteAt_alike h⟩
    · rw [if_neg hmmap] at hsave ⊢
      -- the slot found is the same, whatever it is going to hold
      obtain ⟨⟨index, k₁⟩, hout, hret⟩ := Lts.bind_eq_ok.mp hsave
      obtain ⟨k₂', hout₂, halike⟩ := swapOut_alike h hout
      cases hret
      rw [hout₂]
      exact ⟨k₂', rfl, halike⟩
  · rw [if_neg hcond] at hsave ⊢
    cases hsave
    exact ⟨k₂, rfl, h⟩

theorem evictPage_alike (h : Alike k k₂) (hfte : fte ∈ k.frameTblList)
    (he : k.sptes fte.spte = some e) (hev : evictPage k fte e = .ok k') :
    ∃ k₂', evictPage k₂ fte e = .ok k₂' ∧ Alike k' k₂' := by
  unfold evictPage at hev ⊢
  obtain ⟨⟨e', k₁⟩, hsave, hret⟩ := Lts.bind_eq_ok.mp hev
  obtain ⟨k₂', hsave₂, halike⟩ := savePage_alike h hfte he hsave
  cases hret
  rw [hsave₂]
  refine ⟨_, rfl, ?_⟩
  have hsaved := saved_of_savePage hsave
  have htype : e'.type = .mmap → e.type = .mmap := by
    cases hsaved with
    | clean => exact id
    | written => exact id
    | swapped => exact nofun
  have haddr : e.unusedVirtualAddress = e'.unusedVirtualAddress := by
    cases hsaved with
    | clean => rfl
    | written => rfl
    | swapped => rfl
  obtain ⟨swap₁, inodes₁, rfl⟩ := hsaved.frame
  cases halike with
  | mk mem swap hist hslots hfiles =>
      refine .mk mem swap hist hslots ?_
      intro fte' hfte' hunwritten
      refine hfiles fte' (List.mem_of_mem_erase hfte') ?_
      exact hunwritten.of_update rfl (fun hmmap => ⟨e, he, htype hmmap, haddr⟩)
        fun wa hd => pagedirIsDirty_of_unmapPage hd

theorem pagedirSetAccessed_alike {accessed : Bool} (h : Alike k k₂) :
    Alike (pagedirSetAccessed k t va accessed) (pagedirSetAccessed k₂ t va accessed) := by
  have hdirty : ∀ u wa, pagedirIsDirty (pagedirSetAccessed k t va accessed) u wa = true →
      pagedirIsDirty k u wa = true := by
    intro u wa hd
    rw [pagedirIsDirty_setAccessed] at hd
    exact hd
  cases h with
  | mk mem swap hist hslots hfiles =>
      unfold pagedirSetAccessed at hdirty ⊢
      cases hpte : k.pteOf t va with
      | none =>
          have hpte₂ : Kernel.pteOf { k with mem := mem, swap := swap, hist := hist } t va = none :=
            hpte
          rw [hpte₂]
          exact .mk mem swap hist hslots hfiles
      | some pte =>
          have hpte₂ : Kernel.pteOf { k with mem := mem, swap := swap, hist := hist } t va =
            some pte := hpte
          rw [hpte] at hdirty
          rw [hpte₂]
          refine .mk mem swap hist hslots fun fte hfte hunwritten => hfiles fte hfte ?_
          exact hunwritten.of_dirty (fun x hx hmmap => ⟨x, hx, hmmap, rfl⟩) (hdirty fte.thread)

theorem evictLoop_alike {l : List FrameTblEnt} (h : Alike k k₂) (hl : l ⊆ k.frameTblList)
    (hloop : evictLoop n l k = .ok k') : ∃ k₂', evictLoop n l k₂ = .ok k₂' ∧ Alike k' k₂' := by
  induction n generalizing l k k₂ with
  | zero => cases hloop
  | succ n ih =>
      cases l with
      | nil => cases hloop
      | cons fte rest =>
          unfold evictLoop at hloop ⊢
          obtain ⟨e, he, hbody⟩ := Lts.bind_eq_ok.mp hloop
          have hfte : fte ∈ k.frameTblList := hl List.mem_cons_self
          have haccessed : pagedirIsAccessed k₂ fte.thread e.unusedVirtualAddress =
              pagedirIsAccessed k fte.thread e.unusedVirtualAddress := by
            unfold pagedirIsAccessed
            rw [h.sameTables.pteOf]
          have hnext := nextRound_subset hl
          rw [h.sameTables.sptes, he]
          dsimp only at hbody
          show ∃ k₂', (if e.pinned then _ else _) = Except.ok k₂' ∧ Alike k' k₂'
          rw [h.sameTables.frameTblList, haccessed]
          split at hbody
          · -- pinned: the round goes on
            rename_i hpin
            rw [if_pos hpin]
            exact ih h hnext hbody
          · rename_i hpin
            rw [if_neg hpin]
            split at hbody
            · -- its second chance
              rename_i hacc
              rw [if_pos hacc]
              refine ih (pagedirSetAccessed_alike h) ?_ hbody
              rw [setAccessed_frameTblList]
              exact hnext
            · rename_i hacc
              rw [if_neg hacc]
              exact evictPage_alike h hfte (deref_ok he) hbody

/-! ## A frame is taken -/

/-- The same run with another content of the frame that is taken. -/
@[reducible] def Env.with (env : Env) (g : Page) : Env := { env with garbage := g }

theorem pallocGetPage_sameTables {o : Option Frame} (h : SameTables k k₂)
    (hget : pallocGetPage env zero k = (o, k')) :
    ∃ k₂', pallocGetPage (env.with g) zero k₂ = (o, k₂') ∧ SameTables k' k₂' := by
  cases h with
  | mk mem swap hist hslots =>
      unfold pallocGetPage at hget ⊢
      dsimp only
      cases hf : k.freePages[env.pick % k.freePages.length]? with
      | none =>
          rw [hf] at hget
          cases hget
          exact ⟨_, rfl, .mk mem swap hist hslots⟩
      | some f =>
          rw [hf] at hget
          cases hget
          exact ⟨_, rfl, .mk _ swap hist hslots⟩

theorem evictUntilFree_alike (h : Alike k k₂)
    (hloop : evictUntilFree env zero n k = .ok (frame, k')) :
    ∃ k₂', evictUntilFree (env.with g) zero n k₂ = .ok (frame, k₂') ∧ SameTables k' k₂' := by
  induction n generalizing k k₂ with
  | zero => cases hloop
  | succ n ih =>
      unfold evictUntilFree at hloop ⊢
      obtain ⟨⟨o, k₁⟩, hev, hrest⟩ := Lts.bind_eq_ok.mp hloop
      unfold evictFrame at hev ⊢
      obtain ⟨k₃, hl, hget⟩ := Lts.bind_eq_ok.mp hev
      obtain ⟨k₄, hl₂, halike⟩ := evictLoop_alike h (fun _ hm => hm) hl
      have hget' : pallocGetPage env zero k₃ = (o, k₁) := Except.ok.inj hget
      have hl₂' : evictLoop (env.with g).rounds k₂.frameTblList k₂ = .ok k₄ := by
        rw [h.sameTables.frameTblList]
        exact hl₂
      rw [hl₂']
      obtain ⟨k₅, hget₂, hsame⟩ := pallocGetPage_sameTables (g := g) halike.sameTables hget'
      dsimp only [bind, Except.bind, pure, Except.pure]
      cases o with
      | some f =>
          cases hrest
          rw [hget₂]
          exact ⟨k₅, rfl, hsame⟩
      | none =>
          -- nothing has been taken, and the next round evicts another page
          obtain rfl := pallocGetPage_none hget'
          obtain rfl := pallocGetPage_none hget₂
          rw [hget₂]
          exact ih halike hrest

theorem frameGet_alike (h : Alike k k₂) (hget : frameGet env zero k = .ok (frame, k')) :
    ∃ k₂', frameGet (env.with g) zero k₂ = .ok (frame, k₂') ∧ SameTables k' k₂' := by
  unfold frameGet at hget ⊢
  rcases hp : pallocGetPage env zero k with ⟨o, k₁⟩
  rw [hp] at hget
  obtain ⟨k₃, hp₂, hsame⟩ := pallocGetPage_sameTables (g := g) h.sameTables hp
  rw [hp₂]
  cases o with
  | some f =>
      cases hget
      exact ⟨k₃, rfl, hsame⟩
  | none =>
      obtain rfl := pallocGetPage_none hp
      obtain rfl := pallocGetPage_none hp₂
      exact evictUntilFree_alike h hget

theorem frameAlloc_alike (h : Alike k k₂) (halloc : frameAlloc env zero k t p = .ok (frame, k')) :
    ∃ k₂', frameAlloc (env.with g) zero k₂ t p = .ok (frame, k₂') ∧ SameTables k' k₂' := by
  unfold frameAlloc at halloc ⊢
  obtain ⟨⟨f, k₁⟩, hget, hrest⟩ := Lts.bind_eq_ok.mp halloc
  obtain ⟨k₃, hadd, hret⟩ := Lts.bind_eq_ok.mp hrest
  cases hret
  obtain ⟨k₄, hget₂, hsame⟩ := frameGet_alike (g := g) h hget
  rw [hget₂]
  unfold addFrameToTbl at hadd
  split at hadd
  · rename_i hm
    cases hadd
    have hadd₂ : addFrameToTbl (env.with g) k₄ t frame p = .ok { k₄ with
        frameTblList := k₄.frameTblList ++ [{ frame := frame, thread := t, spte := p }] } :=
      if_pos hm
    show ∃ k₂', (addFrameToTbl (env.with g) k₄ t frame p).bind _ = _ ∧ _
    rw [hadd₂]
    refine ⟨_, rfl, ?_⟩
    cases hsame with
    | mk mem swap hist hslots => exact .mk mem swap hist hslots
  · cases hadd

/-! ## A page is loaded -/

theorem freeFrame_sameTables {o : Option Frame} (h : SameTables k k₂) :
    SameTables (freeFrame k o) (freeFrame k₂ o) := by
  cases h with
  | mk mem swap hist hslots =>
      unfold freeFrame
      dsimp only
      cases k.frameTblList.find? (fun fte => some fte.frame = o) with
      | none => exact .mk mem swap hist hslots
      | some fte => exact .mk mem swap hist hslots

theorem installPage_sameTables {upage : Vaddr} {w : Bool} (h : SameTables k k₂)
    (hinst : installPage env k t upage frame w = (b, k')) :
    ∃ k₂', installPage (env.with g) k₂ t upage frame w = (b, k₂') ∧ SameTables k' k₂' := by
  cases h with
  | mk mem swap hist hslots =>
      unfold installPage pagedirSetPage at hinst ⊢
      have hget : pagedirGetPage { k with mem := mem, swap := swap, hist := hist } t upage =
        pagedirGetPage k t upage := rfl
      rw [hget]
      by_cases hnone : pagedirGetPage k t upage = none
      · rw [if_pos hnone] at hinst ⊢
        by_cases hset : env.setPage = true
        · rw [if_pos hset] at hinst
          have hset₂ : (env.with g).setPage = true := hset
          rw [if_pos hset₂]
          cases hinst
          exact ⟨_, rfl, .mk mem swap hist hslots⟩
        · rw [if_neg hset] at hinst
          have hset₂ : ¬ (env.with g).setPage = true := hset
          rw [if_neg hset₂]
          cases hinst
          exact ⟨_, rfl, .mk mem swap hist hslots⟩
      · rw [if_neg hnone] at hinst ⊢
        cases hinst
        exact ⟨_, rfl, .mk mem swap hist hslots⟩

theorem readPage_sameTables (h : SameTables k k₂) (hread : readPage k frame e = .ok (b, k')) :
    ∃ k₂', readPage k₂ frame e = .ok (b, k₂') ∧ SameTables k' k₂' := by
  cases h with
  | mk mem swap hist hslots =>
      unfold readPage at hread ⊢
      by_cases hr : e.readBytes.toNat = 0
      · rw [if_pos hr] at hread ⊢
        cases hread
        exact ⟨_, rfl, .mk mem swap hist hslots⟩
      · rw [if_neg hr] at hread ⊢
        obtain ⟨⟨count, page⟩, hfile, hrest⟩ := Lts.bind_eq_ok.mp hread
        unfold fileReadAt at hfile ⊢
        obtain ⟨o, ho, hret⟩ := Lts.bind_eq_ok.mp hfile
        obtain ⟨hcount, -⟩ := Prod.mk.inj (Except.ok.inj hret)
        dsimp only at hrest ⊢
        rw [ho]
        -- the length of the file decides how much is read
        have hbytes : Kernel.bytesOf { k with mem := mem, swap := swap, hist := hist } o.inode =
          k.bytesOf o.inode := rfl
        show ∃ k₂', (if min e.readBytes.toNat ((k.bytesOf o.inode).length - e.offset.toNat) =
          e.readBytes.toNat then _ else _) = Except.ok (b, k₂') ∧ _
        rw [hcount]
        split at hrest
        · rename_i hc
          rw [if_pos hc]
          cases hrest
          exact ⟨_, rfl, .mk _ swap hist hslots⟩
        · rename_i hc
          rw [if_neg hc]
          cases hrest
          exact ⟨_, rfl, .mk _ swap hist hslots⟩

/-- `load_file` from `read_page` on. -/
theorem loadFile_eq {f : Frame} (he : deref (k.sptes p) = .ok e)
    (halloc : frameAlloc env (e.readBytes.toNat = 0) k t p = .ok (f, k₁))
    (he' : deref (k₁.sptes p) = .ok e') (hread : readPage k₁ f e' = .ok (b, k₂)) :
    loadFile env k t p = .ok
      (if b then
        if (installPage env k₂ t e'.unusedVirtualAddress f e'.writable).1 then
          (true, (installPage env k₂ t e'.unusedVirtualAddress f e'.writable).2.setSpte p
            (some { e' with isLoaded := true }))
        else
          (false, freeFrame (installPage env k₂ t e'.unusedVirtualAddress f e'.writable).2 (some f))
      else
        (false, freeFrame k₂ (some f))) := by
  refine Lts.bind_eq_ok.mpr ⟨e, he, Lts.bind_eq_ok.mpr ⟨(f, k₁), halloc,
    Lts.bind_eq_ok.mpr ⟨e', he', Lts.bind_eq_ok.mpr ⟨(b, k₂), hread, ?_⟩⟩⟩⟩
  cases b with
  | false => rfl
  | true =>
      dsimp only
      rcases installPage env k₂ t e'.unusedVirtualAddress f e'.writable with ⟨b₁, k₃⟩
      cases b₁ with
      | false => rfl
      | true => rfl

theorem loadFile_alike (h : Alike k k₂) (hload : loadFile env k t p = .ok (b, k')) :
    ∃ k₂', loadFile (env.with g) k₂ t p = .ok (b, k₂') ∧ SameTables k' k₂' := by
  have hbegin := hload
  unfold loadFile at hbegin
  obtain ⟨e, he, hbegin⟩ := Lts.bind_eq_ok.mp hbegin
  obtain ⟨⟨f, k₁⟩, halloc, hbegin⟩ := Lts.bind_eq_ok.mp hbegin
  obtain ⟨k₃, halloc₂, hsame⟩ := frameAlloc_alike (g := g) h halloc
  obtain ⟨e₁, he₁, hbegin⟩ := Lts.bind_eq_ok.mp hbegin
  obtain ⟨⟨b₁, k₄⟩, hread, -⟩ := Lts.bind_eq_ok.mp hbegin
  obtain ⟨k₅, hread₂, hsame₅⟩ := readPage_sameTables hsame hread
  have he₂ : deref (k₂.sptes p) = .ok e := by
    rw [h.sameTables.sptes]
    exact he
  have he₃ : deref (k₃.sptes p) = .ok e₁ := by
    rw [hsame.sptes]
    exact he₁
  rw [loadFile_eq he halloc he₁ hread] at hload
  rw [loadFile_eq he₂ halloc₂ he₃ hread₂]
  cases b₁ with
  | false =>
      cases hload
      exact ⟨_, rfl, freeFrame_sameTables hsame₅⟩
  | true =>
      rcases hinst : installPage env k₄ t e₁.unusedVirtualAddress f e₁.writable with ⟨b₂, k₆⟩
      obtain ⟨k₇, hinst₂, hsame₇⟩ := installPage_sameTables (g := g) hsame₅ hinst
      rw [hinst] at hload
      rw [hinst₂]
      cases b₂ with
      | false =>
          cases hload
          exact ⟨_, rfl, freeFrame_sameTables hsame₇⟩
      | true =>
          cases hload
          refine ⟨_, rfl, ?_⟩
          cases hsame₇ with
          | mk mem swap hist hslots => exact .mk mem swap hist hslots

/-- A pinned entry is the same entry. -/
theorem setPinned_alike (h : Alike k k₂) (he : k.sptes p = some e) :
    Alike (k.setSpte p (some { e with pinned := true }))
      (k₂.setSpte p (some { e with pinned := true })) := by
  cases h with
  | mk mem swap hist hslots hfiles =>
      refine .mk mem swap hist hslots fun fte hfte hunwritten => hfiles fte hfte ?_
      exact hunwritten.of_update rfl (fun hmmap => ⟨e, he, hmmap, rfl⟩) fun _ hd => hd

/-- The page is there already. -/
theorem loadPage_loaded (he : k.sptes p = some e) (hl : e.isLoaded = true) :
    loadPage env k t p = .ok (false, k.setSpte p (some { e with pinned := true })) := by
  unfold loadPage
  rw [he]
  exact if_pos hl

/-- The page comes from a file. -/
theorem loadPage_file (he : k.sptes p = some e) (hl : e.isLoaded = false)
    (hty : e.type = .file ∨ e.type = .mmap) :
    loadPage env k t p = loadFile env (k.setSpte p (some { e with pinned := true })) t p := by
  have hnot : ¬ e.isLoaded = true := by
    rw [hl]
    exact Bool.false_ne_true
  unfold loadPage
  rw [he]
  refine (if_neg hnot).trans ?_
  rcases hty with hty | hty
  · rw [hty]
  · rw [hty]

theorem loadPage_alike (h : Alike k k₂) (he : k.sptes p = some e)
    (hty : e.type = .file ∨ e.type = .mmap) (hload : loadPage env k t p = .ok (b, k')) :
    ∃ k₂', loadPage (env.with g) k₂ t p = .ok (b, k₂') ∧ SameTables k' k₂' := by
  have he₂ : k₂.sptes p = some e := by
    rw [h.sameTables.sptes]
    exact he
  have hpinned := setPinned_alike h he
  cases hl : e.isLoaded with
  | true =>
      rw [loadPage_loaded he hl] at hload
      rw [loadPage_loaded he₂ hl]
      cases hload
      exact ⟨_, rfl, hpinned.sameTables⟩
  | false =>
      rw [loadPage_file he hl hty] at hload
      rw [loadPage_file he₂ hl hty]
      exact loadFile_alike hpinned hload

/-! ## The stack grows -/

theorem setSpte_sameTables {o : Option Spte} (h : SameTables k k₂) :
    SameTables (k.setSpte p o) (k₂.setSpte p o) := by
  cases h with
  | mk mem swap hist hslots => exact .mk mem swap hist hslots

/-- An entry of a page of stack does not matter to the files. -/
theorem setStackEntry_alike (h : Alike k k₂) :
    Alike (k.setSpte p (some (stackEntry va))) (k₂.setSpte p (some (stackEntry va))) := by
  cases h with
  | mk mem swap hist hslots hfiles =>
      refine .mk mem swap hist hslots fun fte hfte hunwritten => hfiles fte hfte ?_
      exact hunwritten.of_update rfl nofun fun _ hd => hd

theorem hashInsert_sameTables {upage : Vaddr} {page : Page} (h : SameTables k k₂)
    (hins : hashInsert k t p upage page = (b, k')) (page₂ : Page) :
    ∃ k₂', hashInsert k₂ t p upage page₂ = (b, k₂') ∧ SameTables k' k₂' := by
  cases h with
  | mk mem swap hist hslots =>
      unfold hashInsert at hins ⊢
      have hfind : hashFind { k with mem := mem, swap := swap, hist := hist } t upage =
        hashFind k t upage := rfl
      rw [hfind]
      cases hf : hashFind k t upage with
      | some q =>
          rw [hf] at hins
          cases hins
          exact ⟨_, rfl, .mk mem swap hist hslots⟩
      | none =>
          rw [hf] at hins
          cases hins
          exact ⟨_, rfl, .mk mem swap _ hslots⟩

/-- `stack_growth` from `install_page` on. -/
theorem stackGrowth_eq {f : Frame} (hsize : ¬ physBase - pgRoundDown va > maxStackSize)
    (hm : mallocSpte env n k = some p)
    (halloc : frameAlloc env false (k.setSpte p (some (stackEntry (pgRoundDown va)))) t p =
      .ok (f, k₁)) :
    stackGrowth env n k t va = .ok
      (if (installPage env k₁ t (pgRoundDown va) f true).1 then
        hashInsert (installPage env k₁ t (pgRoundDown va) f true).2 t p (pgRoundDown va)
          ((installPage env k₁ t (pgRoundDown va) f true).2.mem f)
      else
        (false, freeFrame ((installPage env k₁ t (pgRoundDown va) f true).2.setSpte p none)
          (some f))) := by
  unfold stackGrowth
  rw [if_neg hsize, hm]
  refine Lts.bind_eq_ok.mpr ⟨(f, k₁), halloc, ?_⟩
  dsimp only
  rcases installPage env k₁ t (pgRoundDown va) f true with ⟨b₁, k₂⟩
  cases b₁ with
  | false => rfl
  | true => rfl

theorem stackGrowth_alike (h : Alike k k₂) (hgrow : stackGrowth env n k t va = .ok (b, k')) :
    ∃ k₂', stackGrowth (env.with g) n k₂ t va = .ok (b, k₂') ∧ SameTables k' k₂' := by
  have hmalloc : mallocSpte (env.with g) n k₂ = mallocSpte env n k := by
    unfold mallocSpte
    rw [h.sameTables.sptes]
  by_cases hsize : physBase - pgRoundDown va > maxStackSize
  · unfold stackGrowth at hgrow ⊢
    rw [if_pos hsize] at hgrow ⊢
    cases hgrow
    exact ⟨k₂, rfl, h.sameTables⟩
  · cases hm : mallocSpte env n k with
    | none =>
        unfold stackGrowth at hgrow ⊢
        rw [if_neg hsize, hm] at hgrow
        rw [if_neg hsize, hmalloc, hm]
        cases hgrow
        exact ⟨k₂, rfl, h.sameTables⟩
    | some p =>
        have hbegin := hgrow
        unfold stackGrowth at hbegin
        rw [if_neg hsize, hm] at hbegin
        obtain ⟨⟨f, k₁⟩, halloc, -⟩ := Lts.bind_eq_ok.mp hbegin
        have hentry : Alike (k.setSpte p (some (stackEntry (pgRoundDown va))))
            (k₂.setSpte p (some (stackEntry (pgRoundDown va)))) := setStackEntry_alike h
        obtain ⟨k₃, halloc₂, hsame⟩ := frameAlloc_alike (g := g) hentry halloc
        rcases hinst : installPage env k₁ t (pgRoundDown va) f true with ⟨b₁, k₄⟩
        obtain ⟨k₅, hinst₂, hsame₅⟩ := installPage_sameTables (g := g) hsame hinst
        rw [stackGrowth_eq hsize hm halloc, hinst] at hgrow
        rw [stackGrowth_eq hsize (hmalloc.trans hm) halloc₂, hinst₂]
        cases b₁ with
        | false =>
            cases hgrow
            exact ⟨_, rfl, freeFrame_sameTables (setSpte_sameTables hsame₅)⟩
        | true =>
            have hins := Except.ok.inj hgrow
            obtain ⟨k₆, hins₂, hsame₆⟩ := hashInsert_sameTables hsame₅ hins (k₅.mem f)
            exact ⟨k₆, congrArg Except.ok hins₂, hsame₆⟩

/-! ## What is in the page -/

theorem SameTables.sound (h : SameTables k k₂) (hs : Sound k) : Sound k₂ := by
  cases h with
  | mk mem swap hist _ => exact hs.contents mem swap k.inodes hist

theorem SameTables.filePage (h : SameTables k k₂) : Vm.filePage k₂ e = Vm.filePage k e := by
  cases h
  rfl

/-- A page that has been mapped is read from its frame. -/
theorem readable_mapPage {page : Page} {used : Bool} :
    readable (mapPage k t p e frame page used) t e.unusedVirtualAddress = some page := by
  unfold readable
  rw [pteOf_mapPage, if_pos ⟨rfl, rfl⟩]
  exact congrArg some (Function.update_self ..)

/-- `load_file` has overwritten the whole frame. -/
theorem loadFile_readable (h : Sound k) (hx : NoneExiting k) (he : Entry k t p e)
    (hl : e.isLoaded = false) (hty : e.type = .file ∨ e.type = .mmap)
    (hload : loadFile env k t p = .ok (true, k')) :
    readable k' t e.unusedVirtualAddress = some (filePage k' e) := by
  rcases loadFile_cases h hx he hl hty hload with ⟨k₁, frame, -, -, -, ⟨hno, -⟩ | ⟨-, rfl⟩⟩
  · cases hno
  · exact readable_mapPage

/-- `stack_growth` leaves the frame as it is. -/
theorem stackGrowth_readable (h : Sound k) (hx : NoneExiting k)
    (hgrow : stackGrowth env n k t va = .ok (true, k')) :
    readable k' t (pgRoundDown va) = some env.garbage := by
  rcases stackGrowth_cases h hx hgrow with
    ⟨hno, -⟩ | ⟨p, k₁, frame, -, ⟨hno, -⟩ | ⟨hno, -⟩ | ⟨-, -, rfl⟩⟩
  · cases hno
  · cases hno
  · cases hno
  · exact readable_mapPage (p := p) (e := stackEntry (pgRoundDown va))

/-- `load_page` as well. -/
theorem loadPage_readable (h : Sound k) (hx : NoneExiting k) (he : Entry k t p e)
    (hty : e.type = .file ∨ e.type = .mmap) (hload : loadPage env k t p = .ok (true, k')) :
    readable k' t e.unusedVirtualAddress = some (filePage k' e) := by
  cases hl : e.isLoaded with
  | true =>
      rw [loadPage_loaded he.at_ptr hl] at hload
      cases hload
  | false =>
      rw [loadPage_file he.at_ptr hl hty] at hload
      have hpin : Changes .none k (k.setSpte p (some { e with pinned := true })) :=
        .single (.pin true he.at_ptr nofun)
      have hent : Entry (k.setSpte p (some { e with pinned := true })) t p { e with pinned := true } :=
        ⟨he.mem, Function.update_self ..⟩
      have hread := loadFile_readable (h.changes hpin) hx hent hl hty hload
      exact hread

/-! ## The routes by which a process gets a page -/

inductive Route where
  /-- `load_page` of the entry `e` at `p`. -/
  | file (p : Ptr) (e : Spte)
  /-- `stack_growth`, whose entry is the `n`-th allocation of the operation. -/
  | stack (n : ℕ) (va : Vaddr)

namespace Route

/-- The page belongs to the executable or to a mapping of the process. -/
def Open (k : Kernel) (t : Tid) : Route → Prop
  | file p e => Entry k t p e ∧ (e.type = .file ∨ e.type = .mmap)
  | stack _ _ => True

def take (env : Env) (k : Kernel) (t : Tid) : Route → Except String (Bool × Kernel)
  | file p _ => loadPage env k t p
  | stack n va => stackGrowth env n k t va

def upage : Route → Vaddr
  | file _ e => e.unusedVirtualAddress
  | stack _ va => pgRoundDown va

/-- Bytes of the file followed by zeros, or zeros. -/
def due (k : Kernel) : Route → Page
  | file _ e => filePage k e
  | stack _ _ => zeroPage

/-- `frame_alloc` is called without `PAL_ZERO`, and nothing is written to the frame. -/
def Unzeroed : Route → Prop
  | file _ _ => False
  | stack _ _ => True

end Route

variable {r : Route}

theorem Route.take_alike (h : Alike k k₂) (hr : r.Open k t) (htake : r.take env k t = .ok (b, k')) :
    ∃ k₂', r.take (env.with g) k₂ t = .ok (b, k₂') ∧ SameTables k' k₂' := by
  cases r with
  | file p e => exact loadPage_alike h hr.1.at_ptr hr.2 htake
  | stack n va => exact stackGrowth_alike h htake

/-- What the process reads is what is due, unless it is what `palloc_get_page` left in the
frame. -/
theorem Route.take_readable (h : Sound k) (hx : NoneExiting k) (hr : r.Open k t)
    (htake : r.take env k t = .ok (true, k')) :
    (r.Unzeroed → readable k' t r.upage = some env.garbage) ∧
      (¬ r.Unzeroed → readable k' t r.upage = some (r.due k')) := by
  cases r with
  | file p e =>
      constructor
      · exact False.elim
      · exact fun _ => loadPage_readable h hx hr.1 hr.2 htake
  | stack n va =>
      constructor
      · exact fun _ => stackGrowth_readable h hx htake
      · exact fun hno => absurd trivial hno

theorem Route.due_of_unzeroed (h : r.Unzeroed) : r.due k = zeroPage := by
  cases r with
  | file p e => exact h.elim
  | stack n va => rfl

theorem Alike.opened (h : Alike k k₂) (hr : r.Open k t) : r.Open k₂ t := by
  cases h with
  | mk mem swap hist _ _ =>
      cases r with
      | file p e => exact ⟨⟨hr.1.mem, hr.1.at_ptr⟩, hr.2⟩
      | stack n va => exact hr

theorem SameTables.due (h : SameTables k k₂) : r.due k₂ = r.due k := by
  cases r with
  | file p e => exact h.filePage
  | stack n va => rfl

/-- The process reads the same in both runs, and what is due, if the page comes from a file;
for a page of stack it does if the frame happens to hold zeros in both. -/
theorem fresh_pages_leak_nothing (h : Settled k) (halike : Alike k k₂) (hr : r.Open k t)
    (htake : r.take env k t = .ok (true, k')) :
    ∃ k₂', r.take (env.with g) k₂ t = .ok (true, k₂') ∧
      ((readable k' t r.upage = readable k₂' t r.upage ∧
          readable k' t r.upage = some (r.due k')) ↔
        (r.Unzeroed → env.garbage = zeroPage ∧ g = zeroPage)) := by
  obtain ⟨k₂', htake₂, hsame⟩ := r.take_alike (g := g) halike hr htake
  refine ⟨k₂', htake₂, ?_⟩
  have hx₂ : NoneExiting k₂ := by
    cases halike
    exact h.noneExiting
  obtain ⟨hstack, hfile⟩ := Route.take_readable h.sound h.noneExiting hr htake
  obtain ⟨hstack₂, hfile₂⟩ :=
    Route.take_readable (halike.sameTables.sound h.sound) hx₂ (halike.opened hr) htake₂
  by_cases hz : r.Unzeroed
  · rw [hstack hz, hstack₂ hz, Route.due_of_unzeroed hz]
    constructor
    · rintro ⟨hgarbage, hzero⟩ -
      have hzero := Option.some.inj hzero
      exact ⟨hzero, (Option.some.inj hgarbage).symm.trans hzero⟩
    · intro hzero
      obtain ⟨hgarbage, rfl⟩ := hzero hz
      rw [hgarbage]
      exact ⟨rfl, rfl⟩
  · rw [hfile hz, hfile₂ hz, hsame.due]
    constructor
    · exact fun _ hno => absurd hno hz
    · exact fun _ => ⟨rfl, rfl⟩

/-- The process of `swapRun` gets a second page of stack, in a frame that holds `page`. -/
def growthRun (page : Page) : List Act :=
  swapRun.take 1 ++ [.pageFault 1 0xbfffe000 0xbfffe000 ((generous 200).with page)]

/-- Two runs that differ in what was in a free frame: the process reads it. -/
theorem stack_page_leaks : ∃ k₁ k₂,
    Lts.Run Step twoFrames.boot (growthRun fun _ => 7) k₁ ∧
    Lts.Run Step twoFrames.boot (growthRun fun _ => 8) k₂ ∧
    readable k₁ 1 0xbfffe000 ≠ readable k₂ 1 0xbfffe000 ∧
    readable k₁ 1 0xbfffe000 ≠ some zeroPage := by
  have hrun₁ : (runActs twoFrames.boot (growthRun fun _ => 7)).toOption.map
      (fun k => (readable k 1 0xbfffe000).map (· 0)) = some (some 7) := by decide +kernel
  have hrun₂ : (runActs twoFrames.boot (growthRun fun _ => 8)).toOption.map
      (fun k => (readable k 1 0xbfffe000).map (· 0)) = some (some 8) := by decide +kernel
  obtain ⟨k₁, hk₁, hread₁⟩ := Option.map_eq_some_iff.mp hrun₁
  obtain ⟨k₂, hk₂, hread₂⟩ := Option.map_eq_some_iff.mp hrun₂
  refine ⟨k₁, k₂, run_of_runActs (Lts.eq_ok_of_toOption hk₁),
    run_of_runActs (Lts.eq_ok_of_toOption hk₂), ?_, ?_⟩
  · intro heq
    rw [heq, hread₂] at hread₁
    cases hread₁
  · intro heq
    rw [heq] at hread₁
    cases hread₁

/-- The second page of the executable gets the frame of the first one, which is evicted; what
the frames hold differs, and so does what `palloc_get_page` leaves in the frame. -/
theorem fresh_pages_leak_nothing_run : ∃ k k₁ k₂ e, Reachable twoFrames k ∧
    (Route.file 101 e).take (generous 300) k 1 = .ok (true, k₁) ∧
    (Route.file 101 e).take ((generous 300).with fun _ => 7) { k with mem := fun _ _ => 5 } 1 =
      .ok (true, k₂) ∧
    readable k₁ 1 0x0804a000 = readable k₂ 1 0x0804a000 ∧
    readable k₁ 1 0x0804a000 = some (filePage k₁ e) := by
  have hrun : (runActs twoFrames.boot (swapRun.take 3)).toOption.map (fun k => decide
      (101 ∈ k.spt 1 ∧ (∀ fte ∈ k.frameTblList, (k.sptes fte.spte).map (·.type) ≠ some .mmap) ∧
        (k.sptes 101).map (fun e => (e.type, e.unusedVirtualAddress)) = some (.file, 0x0804a000) ∧
        (loadPage (generous 300) k 1 101).toOption.map (·.1) = some true)) = some true := by
    decide +kernel
  obtain ⟨k, hk, hstate⟩ := Option.map_eq_some_iff.mp hrun
  obtain ⟨hmem, hmapped, hentry, hload⟩ := of_decide_eq_true hstate
  have hreach : Reachable twoFrames k := ⟨_, run_of_runActs (Lts.eq_ok_of_toOption hk)⟩
  obtain ⟨e, he, hpair⟩ := Option.map_eq_some_iff.mp hentry
  obtain ⟨hty, haddr⟩ := Prod.mk.inj hpair
  obtain ⟨⟨b, k₁⟩, hload, hb⟩ := Option.map_eq_some_iff.mp hload
  obtain rfl : b = true := hb
  have halike : Alike k { k with mem := fun _ _ => 5 } := by
    refine .mk _ k.swap k.hist rfl ?_
    intro fte hfte hunwritten
    obtain ⟨x, hx, hmmap, -⟩ := hunwritten
    refine absurd ?_ (hmapped fte hfte)
    rw [hx]
    exact congrArg some hmmap
  have hload := Lts.eq_ok_of_toOption hload
  obtain ⟨k₂, hload₂, hiff⟩ := fresh_pages_leak_nothing (g := fun _ => 7) (r := .file 101 e)
    (settled_of_reachable hreach) halike ⟨⟨hmem, he⟩, .inl hty⟩ hload
  obtain ⟨hsame, hdue⟩ := hiff.mpr False.elim
  rw [show (Route.file 101 e).upage = 0x0804a000 from haddr] at hsame hdue
  exact ⟨k, k₁, k₂, e, hreach, hload, hload₂, hsame, hdue⟩

end Pintos.Vm
