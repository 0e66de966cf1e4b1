import Pintos.Elf.System

/-! # Which files become processes

`load` makes an entry for every page of the segments and one for the first page of the
stack. With memory for all that it allocates nothing else can fail: a file becomes a process
exactly if it is an executable no two pages of which, nor the page of the stack, are the
same. But `start_process` then stores through `cp`, which the source never sets.
-/

namespace Pintos.Elf

open Vm

variable {env : Env} {k k' k₁ : Kernel} {t : Tid} {file : FilePtr} {exe : Inode}
  {i n m n' r : ℕ} {w b : Bool} {upage va : Vaddr} {ofs readBytes zeroBytes : UInt32} {s : Segment}
  {ss : List Segment} {M : Machine}

/-! ## Pages -/

/-- The pages of a segment, in order. -/
def pageList (upage : Vaddr) (m : ℕ) : List Vaddr := (List.range m).map (pageAt upage)

/-- The pages of the segments, in the order in which they get their entries. -/
def pagesOf (ss : List Segment) : List Vaddr := ss.flatMap fun s => pageList s.upage s.pages

theorem pageList_succ : pageList upage (m + 1) = upage :: pageList (upage + 4096) m := by
  unfold pageList
  rw [List.range_succ_eq_map, List.map_cons, List.map_map, pageAt_zero, List.cons.injEq]
  exact ⟨rfl, List.map_congr_left fun i _ => pageAt_succ.symm⟩

/-! ## Which pages have entries -/

/-- The pages of `l` get entries, which they did not have, and no others do. -/
structure Enters (k k' : Kernel) (t : Tid) (l : List Vaddr) : Prop where
  nodup : l.Nodup
  fresh : ∀ va ∈ l, hashFind k t va = none
  entered : ∀ va, hashFind k' t va = none ↔ hashFind k t va = none ∧ va ∉ l

theorem Enters.nil (k : Kernel) (t : Tid) : Enters k k t [] :=
  ⟨List.nodup_nil, fun _ hva => absurd hva List.not_mem_nil,
    fun _ => ⟨fun h => ⟨h, List.not_mem_nil⟩, fun h => h.1⟩⟩

theorem Enters.append {l l' : List Vaddr} (h : Enters k k₁ t l) (h' : Enters k₁ k' t l') :
    Enters k k' t (l ++ l') where
  nodup := List.nodup_append.mpr ⟨h.nodup, h'.nodup, fun va hva wa hwa heq =>
    ((h.entered wa).mp (h'.fresh wa hwa)).2 (heq ▸ hva)⟩
  fresh := by
    intro va hva
    rcases List.mem_append.mp hva with hva | hva
    · exact h.fresh va hva
    · exact ((h.entered va).mp (h'.fresh va hva)).1
  entered := by
    intro va
    rw [h'.entered, h.entered, List.mem_append, not_or, and_assoc]

/-- An entry that is made is the first for its page. -/
theorem addFilePageTbl_enters (h : Sound k)
    (hadd : addFilePageTbl env n k t file ofs upage readBytes zeroBytes w = (true, k')) :
    Enters k k' t [upage] := by
  unfold addFilePageTbl at hadd
  split at hadd
  · cases hadd
  next p hp =>
    have hun : Unused k p := h.unused (mallocSpte_some hp)
    dsimp only at hadd
    unfold hashInsert at hadd
    split at hadd
    · cases hadd
    next hnone =>
      cases hadd
      have hnew : hashFind k t upage = none := (hashFind_setSpte (hun.spt t)).symm.trans hnone
      refine ⟨List.nodup_singleton upage, fun va hva => ?_, fun va => ?_⟩
      · rw [List.mem_singleton.mp hva]
        exact hnew
      · rw [List.mem_singleton]
        constructor
        · intro hno
          let e : Spte := fileEntry file ofs upage readBytes zeroBytes w
          let k₂ : Kernel := insertEntry (k.setSpte p (some e)) t p upage (filePage k e)
          obtain ⟨hself, hothers⟩ : Entry k₂ t p e ∧ ∀ u q x, Entry k u q x → Entry k₂ u q x :=
            entry_insert hun
          refine ⟨?_, fun heq => Tables.not_entry_of_hashFind hno hself heq.symm⟩
          refine List.find?_eq_none.mpr fun q hq => ?_
          obtain ⟨x, hx⟩ := h.tables.exists_entry hq
          have hne := Tables.not_entry_of_hashFind hno (hothers t q x hx)
          unfold addressOf
          rw [hx.at_ptr]
          simpa using hne
        · rintro ⟨hno, hne⟩
          exact hashFind_insert hun (fun heq => hne heq.symm) hno

/-- With room for an entry it is made if it is the first for its page. -/
theorem addFilePageTbl_room (h : Sound k) (hroom : HasRoom env n (r + 1) k)
    (hnew : hashFind k t upage = none) :
    ∃ k', addFilePageTbl env n k t file ofs upage readBytes zeroBytes w = (true, k') ∧
      HasRoom env (n + 1) r k' := by
  obtain ⟨p, hm, hp⟩ := hroom.fresh 0 (Nat.succ_pos r)
  exact ⟨_, addFilePageTbl_new h hm hp hnew,
    hroom.next hm fun q hq => Function.update_of_ne hq ..⟩

/-! ## Segments -/

/-- A segment that `load_segment` goes through page by page. -/
structure Placed (s : Segment) : Prop where
  asserts : (s.readBytes + s.zeroBytes) % 4096 = 0 ∧ pgOfs s.upage = 0 ∧ s.ofs % 4096 = 0
  sum : s.readBytes.toNat + s.zeroBytes.toNat = pgSize * s.pages

theorem loadSegmentLoop_enters (h : Sound k) (ht : k.status t = .alive)
    (hexe : k.executable t = some file) (hsum : readBytes.toNat + zeroBytes.toNat = pgSize * m)
    (hloop : loadSegmentLoop env t file w n m ofs upage readBytes zeroBytes k = (true, n', k')) :
    Enters k k' t (pageList upage m) := by
  induction m generalizing n ofs upage readBytes zeroBytes k with
  | zero =>
      cases hloop
      exact .nil _ t
  | succ m ih =>
      have hround := round hsum
      unfold loadSegmentLoop at hloop
      rw [if_pos hround.more] at hloop
      dsimp only at hloop
      split at hloop
      · cases hloop
      next k₁ hadd =>
        have hc := addFilePageTbl_any h ht hexe (pageBytes_add readBytes) hadd
        have ht₁ : k₁.status t = .alive := by
          rw [hc.status]
          exact ht
        have hexe₁ : k₁.executable t = some file := by
          rw [hc.executable]
          exact hexe
        have hrest := ih (h.changes hc) ht₁ hexe₁ hround.rest hloop
        rw [pageList_succ]
        exact (addFilePageTbl_enters h hadd).append hrest

theorem loadSegmentLoop_room (h : Sound k) (ht : k.status t = .alive)
    (hexe : k.executable t = some file) (hsum : readBytes.toNat + zeroBytes.toNat = pgSize * m)
    (hroom : HasRoom env n (m + r) k) (hnodup : (pageList upage m).Nodup)
    (hnew : ∀ va ∈ pageList upage m, hashFind k t va = none) :
    ∃ k', loadSegmentLoop env t file w n m ofs upage readBytes zeroBytes k = (true, n + m, k') ∧
      HasRoom env (n + m) r k' := by
  induction m generalizing n ofs upage readBytes zeroBytes k with
  | zero =>
      rw [Nat.zero_add] at hroom
      exact ⟨k, rfl, hroom⟩
  | succ m ih =>
      have hround := round hsum
      rw [pageList_succ] at hnodup hnew
      rw [show m + 1 + r = m + r + 1 by omega] at hroom
      obtain ⟨k₁, hadd, hroom₁⟩ : ∃ k₁, addFilePageTbl env n k t file ofs upage
          (pageReadBytes readBytes) (4096 - pageReadBytes readBytes) w = (true, k₁) ∧
          HasRoom env (n + 1) (m + r) k₁ := addFilePageTbl_room h hroom (hnew _ List.mem_cons_self)
      have hc := addFilePageTbl_any h ht hexe (pageBytes_add readBytes) hadd
      have ht₁ : k₁.status t = .alive := by
        rw [hc.status]
        exact ht
      have hexe₁ : k₁.executable t = some file := by
        rw [hc.executable]
        exact hexe
      have henters := addFilePageTbl_enters h hadd
      obtain ⟨hnotMem, hnodup₁⟩ := List.nodup_cons.mp hnodup
      have hnew₁ : ∀ va ∈ pageList (upage + 4096) m, hashFind k₁ t va = none := by
        intro va hva
        refine (henters.entered va).mpr ⟨hnew va (List.mem_cons_of_mem upage hva), fun hself => ?_⟩
        have heq : va = upage := List.mem_singleton.mp hself
        rw [heq] at hva
        exact hnotMem hva
      obtain ⟨k', hloop, hroom'⟩ : ∃ k', loadSegmentLoop env t file w (n + 1) m
          (ofs + pageReadBytes readBytes) (upage + 4096) (readBytes - pageReadBytes readBytes)
          (zeroBytes - (4096 - pageReadBytes readBytes)) k₁ = (true, n + 1 + m, k') ∧
          HasRoom env (n + 1 + m) r k' :=
        ih (h.changes hc) ht₁ hexe₁ hround.rest hroom₁ hnodup₁ hnew₁
      rw [show n + (m + 1) = n + 1 + m by omega]
      refine ⟨k', ?_, hroom'⟩
      unfold loadSegmentLoop
      rw [if_pos hround.more]
      dsimp only
      rw [hadd]
      exact hloop

/-- Segments that are loaded get entries for their pages. -/
theorem loadSegments_enters (h : Sound k) (ht : k.status t = .alive)
    (hexe : k.executable t = some file) (hplaced : ∀ s ∈ ss, Placed s)
    (hload : loadSegments env t file n ss k = .ok (true, n', k')) :
    Enters k k' t (pagesOf ss) := by
  induction ss generalizing n k with
  | nil =>
      cases hload
      exact .nil _ t
  | cons s rest ih =>
      unfold loadSegments at hload
      obtain ⟨⟨b, n₁, k₁⟩, hsegment, hload⟩ := Lts.bind_eq_ok.mp hload
      cases b with
      | false => cases hload
      | true =>
          have hloop := loadSegment_loop hsegment
          have hc := loadSegmentLoop_any h ht hexe hloop
          have ht₁ : k₁.status t = .alive := by
            rw [hc.status]
            exact ht
          have hexe₁ : k₁.executable t = some file := by
            rw [hc.executable]
            exact hexe
          have hpages : pagesOf (s :: rest) = pageList s.upage s.pages ++ pagesOf rest :=
            List.flatMap_cons ..
          rw [hpages]
          exact (loadSegmentLoop_enters h ht hexe (hplaced s List.mem_cons_self).sum hloop).append
            (ih (h.changes hc) ht₁ hexe₁ (fun s' hs' => hplaced s' (List.mem_cons_of_mem s hs'))
              hload)

/-- With room they are loaded if the pages are different and have no entries. -/
theorem loadSegments_room (h : Sound k) (ht : k.status t = .alive)
    (hexe : k.executable t = some file) (hplaced : ∀ s ∈ ss, Placed s)
    (hroom : HasRoom env n ((pagesOf ss).length + r) k) (hnodup : (pagesOf ss).Nodup)
    (hnew : ∀ va ∈ pagesOf ss, hashFind k t va = none) :
    ∃ m k', loadSegments env t file n ss k = .ok (true, m, k') ∧ HasRoom env m r k' := by
  induction ss generalizing n k with
  | nil =>
      have hroom₀ : HasRoom env n (0 + r) k := hroom
      rw [Nat.zero_add] at hroom₀
      exact ⟨n, k, rfl, hroom₀⟩
  | cons s rest ih =>
      have hpages : pagesOf (s :: rest) = pageList s.upage s.pages ++ pagesOf rest :=
        List.flatMap_cons ..
      rw [hpages] at hroom hnodup hnew
      obtain ⟨hnodup₁, hnodup₂, hdisjoint⟩ := List.nodup_append.mp hnodup
      have hcount : (pageList s.upage s.pages).length = s.pages := by
        unfold pageList
        rw [List.length_map, List.length_range]
      rw [List.length_append, hcount, Nat.add_assoc] at hroom
      obtain ⟨hasserts, hsum⟩ := hplaced s List.mem_cons_self
      obtain ⟨k₁, hloop, hroom₁⟩ : ∃ k₁, loadSegmentLoop env t file s.writable n s.pages s.ofs
          s.upage s.readBytes s.zeroBytes k = (true, n + s.pages, k₁) ∧
          HasRoom env (n + s.pages) ((pagesOf rest).length + r) k₁ :=
        loadSegmentLoop_room h ht hexe hsum hroom hnodup₁ fun va hva =>
          hnew va (List.mem_append_left _ hva)
      have hsegment : loadSegment env n k t file s = .ok (true, n + s.pages, k₁) := by
        obtain ⟨hsumOk, hupage, hofs⟩ := hasserts
        unfold loadSegment
        rw [if_neg (not_not.mpr hsumOk), if_neg (not_not.mpr hupage), if_neg (not_not.mpr hofs)]
        exact congrArg Except.ok hloop
      have hc := loadSegmentLoop_any h ht hexe hloop
      have ht₁ : k₁.status t = .alive := by
        rw [hc.status]
        exact ht
      have hexe₁ : k₁.executable t = some file := by
        rw [hc.executable]
        exact hexe
      have henters := loadSegmentLoop_enters h ht hexe hsum hloop
      obtain ⟨m, k', hrest, hroom'⟩ := ih (h.changes hc) ht₁ hexe₁
        (fun s' hs' => hplaced s' (List.mem_cons_of_mem s hs')) hroom₁ hnodup₂ fun va hva =>
          (henters.entered va).mpr ⟨hnew va (List.mem_append_right _ hva),
            fun hmem => hdisjoint va hmem va hva rfl⟩
      exact ⟨m, k', Lts.bind_eq_ok.mpr ⟨_, hsegment, hrest⟩, hroom'⟩

theorem placed_of_segments {phdrs : List Elf32Phdr} {ehdr : Elf32Ehdr}
    (hexe : IsExecutable (k.bytesOf exe) ehdr phdrs) (hs : s ∈ segments phdrs) : Placed s := by
  obtain ⟨p, hp, rfl⟩ := List.mem_map.mp hs
  obtain ⟨hmem, htype⟩ := List.mem_filter.mp hp
  have hvalid := (validateSegment_iff (k.length_bytesOf_lt exe)).mpr
    (hexe.loadable p hmem (of_decide_eq_true htype))
  exact ⟨segmentOf_asserts hvalid, segmentOf_sum hvalid⟩

/-! ## The stack -/

/-- With room for an entry and a free page the stack grows if the page has no entry. -/
theorem stackGrowth_room (h : Sound k) (hroom : HasRoom env n 1 k) (hset : env.setPage = true)
    (hfte : env.mallocFte = true) (hfree : k.freePages ≠ []) (hsize : StackPage (pgRoundDown va))
    (hnone : hashFind k t (pgRoundDown va) = none) :
    ∃ k', stackGrowth env n k t va = .ok (true, k') := by
  obtain ⟨p, hm, hp⟩ := hroom.fresh 0 Nat.one_pos
  have hmalloc : mallocSpte env n k = some p := by
    unfold mallocSpte
    rw [show env.malloc n = some p from hm]
    exact Option.filter_eq_some_iff.mpr ⟨rfl, decide_eq_true hp⟩
  let k₁ : Kernel := k.setSpte p (some (stackEntry (pgRoundDown va)))
  obtain ⟨f, -, hget⟩ : ∃ f ∈ k₁.freePages, pallocGetPage env false k₁ =
      (some f, takeFrame k₁ f env.garbage) := pallocGetPage_room hfree
  have halloc : frameAlloc env false k₁ t p = .ok (f, holdFrame k₁ t p f env.garbage) := by
    refine Lts.bind_eq_ok.mpr ⟨(f, takeFrame k₁ f env.garbage), ?_, ?_⟩
    · unfold frameGet
      rw [hget]
    · unfold addFrameToTbl
      dsimp only
      rw [if_pos hfte]
      rfl
  have hpte : (holdFrame k₁ t p f env.garbage).pteOf t (pgRoundDown va) = none :=
    h.tables.pteOf_new hnone
  let k₂ : Kernel := (holdFrame k₁ t p f env.garbage).setPte t (pgRoundDown va)
    { frame := f, writable := true, accessed := false, dirty := false }
  have hfind : hashFind k₂ t (pgRoundDown va) = none :=
    (hashFind_setSpte ((h.unused hp).spt t)).trans hnone
  rw [stackGrowth_eq hsize hmalloc halloc, installPage_of_none hpte, if_pos hset]
  refine ⟨insertEntry k₂ t p (pgRoundDown va) (k₂.mem f), ?_⟩
  show Except.ok (hashInsert k₂ t p (pgRoundDown va) (k₂.mem f)) = _
  unfold hashInsert
  rw [hfind]
  rfl

/-! ## Files -/

theorem stackPage_aligned : pgRoundDown (physBase - 4096) = physBase - 4096 := by decide

/-- With enough memory the segments of an executable are loaded exactly if no two of their
pages, nor the first page of the stack, are the same. -/
theorem load_succeeds {phdrs : List Elf32Phdr} {ehdr : Elf32Ehdr} (h : Healthy k)
    (ht : k.status t = .absent) (hexecutable : IsExecutable (k.bytesOf exe) ehdr phdrs)
    (hopen : fileOpen env (initThread k t) exe = (some file, k₁)) (hset : env.setPage = true)
    (hfte : env.mallocFte = true) (hfree : k.freePages ≠ [])
    (hroom : HasRoom env 0 ((pagesOf (segments phdrs)).length + 1) k) :
    (∃ k', Vm.load env k t exe (segments phdrs) = .ok k') ↔
      env.pagedirCreate = true ∧ ((physBase - 4096) :: pagesOf (segments phdrs)).Nodup := by
  have h₀ : Healthy (startProcess k t file exe) := healthy_startProcess h ht (fileOpen_some hopen).1
  have hsound := h₀.settled.sound
  have halive : (startProcess k t file exe).status t = .alive := Function.update_self ..
  have hexe : (startProcess k t file exe).executable t = some file := Function.update_self ..
  have hempty : ∀ va, hashFind (startProcess k t file exe) t va = none := by
    intro va
    unfold hashFind
    rw [show (startProcess k t file exe).spt t = [] from (h.settled.sound.bare ht).1]
    rfl
  -- the state after the segments
  have hsegments : ∀ {n k₂},
      loadSegments env t file 0 (segments phdrs) (startProcess k t file exe) = .ok (true, n, k₂) →
      Sound k₂ ∧ NoneExiting k₂ ∧ (pagesOf (segments phdrs)).Nodup ∧
        (hashFind k₂ t (physBase - 4096) = none ↔ physBase - 4096 ∉ pagesOf (segments phdrs)) := by
    intro n k₂ hload
    have hc : Changes .entering (startProcess k t file exe) k₂ :=
      loadSegments_changes hsound halive hexe (fun _ _ _ _ => trivial) hload
    have henters := loadSegments_enters hsound halive hexe
      (fun s hs => placed_of_segments hexecutable hs) hload
    refine ⟨hsound.changes hc, h₀.settled.noneExiting.changes hc, henters.nodup, ?_⟩
    rw [henters.entered]
    exact and_iff_right (hempty _)
  constructor
  · rintro ⟨k', hload⟩
    obtain ⟨hcreate, file', k₀, n, k₂, hopen', hload, hgrow⟩ := Vm.load_iff.mp hload
    rw [hopen] at hopen'
    cases hopen'
    obtain ⟨hsound₂, hx₂, hnodup, hstack⟩ := hsegments hload
    refine ⟨hcreate, List.nodup_cons.mpr ⟨hstack.mp ?_, hnodup⟩⟩
    rcases stackGrowth_cases hsound₂ hx₂ hgrow with ⟨hno, -⟩ | ⟨p, k₃, frame, -, hcases⟩
    · cases hno
    · rcases hcases with ⟨hno, -⟩ | ⟨hno, -⟩ | ⟨-, hnone, -⟩
      · cases hno
      · cases hno
      · rw [← stackPage_aligned]
        exact hnone
  · rintro ⟨hcreate, hnodup⟩
    obtain ⟨hstackPage, hnodup⟩ := List.nodup_cons.mp hnodup
    have hroom₀ : HasRoom env 0 ((pagesOf (segments phdrs)).length + 1)
        (startProcess k t file exe) := ⟨hroom.fresh, hroom.apart⟩
    obtain ⟨n, k₂, hload, hroom₂⟩ := loadSegments_room hsound halive hexe
      (fun s hs => placed_of_segments hexecutable hs) hroom₀ hnodup fun va _ => hempty va
    obtain ⟨hsound₂, -, -, hstack⟩ := hsegments hload
    have hfree₂ : k₂.freePages ≠ [] := by
      rw [(loadSegments_adds hload).freePages]
      exact hfree
    have hnone : hashFind k₂ t (pgRoundDown (physBase - 4096)) = none := by
      rw [stackPage_aligned]
      exact hstack.mpr hstackPage
    obtain ⟨k', hgrow⟩ := stackGrowth_room hsound₂ hroom₂ hset hfte hfree₂
      (show StackPage (pgRoundDown (physBase - 4096)) by unfold StackPage; decide) hnone
    exact ⟨k', Vm.load_iff.mpr ⟨hcreate, file, k₁, n, k₂, hopen, hload, hgrow⟩⟩

/-- With its segments loaded an executable is started if `argv` gets its memory and the
arguments fit on the page of the stack. -/
theorem load_some_iff {env : StartEnv} {cmd : Command} (h : Healthy k) (ht : k.status t = .absent)
    (hfits : cmd.Fits) :
    (∃ entry esp k', load env k t exe cmd = .ok (some (entry, esp), k')) ↔
      env.AllocatesArgv cmd ∧ ∃ ehdr phdrs, IsExecutable (k.bytesOf exe) ehdr phdrs ∧
        ∃ k₁, Vm.load env.toEnv k t exe (segments phdrs) = .ok k₁ := by
  constructor
  · rintro ⟨entry, esp, k', hload⟩
    obtain ⟨ehdr, phdrs, k₁, hexe, -, hvm, hargv, -⟩ := load_refines.mp hload
    exact ⟨hargv, ehdr, phdrs, hexe, k₁, hvm⟩
  · rintro ⟨hargv, ehdr, phdrs, hexe, k₁, hvm⟩
    obtain ⟨file, n, k₂, -, h₀, hx₀, hsegments, hgrow⟩ :=
      Vm.load_cases h.settled.sound h.settled.noneExiting ht hvm
    have hc : Changes .entering (startProcess k t file exe) k₂ :=
      loadSegments_changes h₀ (Function.update_self ..) (Function.update_self ..)
        (fun _ _ _ _ => trivial) hsegments
    have hx₂ : NoneExiting k₂ := hx₀.changes hc
    obtain ⟨k', hstore, -⟩ := storeStack_present env
      (Arguments.argumentStack_inPage.mpr hfits) (stackGrowth_present (h₀.changes hc) hx₂ hgrow)
    exact ⟨ehdr.entry, _, k', load_refines.mpr ⟨ehdr, phdrs, k₁, hexe, rfl, hvm, hargv, rfl, hstore⟩⟩

/-- A process is started, from any state that the system reaches and with enough memory
for its pages, exactly if the new thread has a `cp`, the command line begins with a token,
the page directory and `argv` are allocated, and the file is an executable no two pages of
which, nor the first page of the stack, are the same. -/
theorem started_iff_executable {env : StartEnv} {cmd : Command} (h : Reachable M k)
    (ht : k.status t = .absent) (hopen : fileOpen env.toEnv (initThread k t) exe = (some file, k₁))
    (hset : env.setPage = true) (hfte : env.mallocFte = true) (hfree : k.freePages ≠ [])
    (hroom : ∀ ehdr phdrs, IsExecutable (k.bytesOf exe) ehdr phdrs →
      HasRoom env.toEnv 0 ((pagesOf (segments phdrs)).length + 1) k) (hfits : cmd.Fits) :
    (∃ k', start env k t exe cmd = .ok k' ∧ k'.status t = .alive) ↔
      env.cp = true ∧ cmd.Starts ∧ env.pagedirCreate = true ∧ env.AllocatesArgv cmd ∧
        ∃ ehdr phdrs, IsExecutable (k.bytesOf exe) ehdr phdrs ∧
          ((physBase - 4096) :: pagesOf (segments phdrs)).Nodup := by
  obtain ⟨hhealthy, -⟩ := healthy_of_reachable h
  have hload : (∃ entry esp k', load env k t exe cmd = .ok (some (entry, esp), k')) ↔
      env.pagedirCreate = true ∧ env.AllocatesArgv cmd ∧
        ∃ ehdr phdrs, IsExecutable (k.bytesOf exe) ehdr phdrs ∧
          ((physBase - 4096) :: pagesOf (segments phdrs)).Nodup := by
    rw [load_some_iff hhealthy ht hfits]
    constructor
    · rintro ⟨hargv, ehdr, phdrs, hexe, hvm⟩
      obtain ⟨hcreate, hnodup⟩ := (load_succeeds hhealthy ht hexe hopen hset hfte hfree
        (hroom ehdr phdrs hexe)).mp hvm
      exact ⟨hcreate, hargv, ehdr, phdrs, hexe, hnodup⟩
    · rintro ⟨hcreate, hargv, ehdr, phdrs, hexe, hnodup⟩
      exact ⟨hargv, ehdr, phdrs, hexe, (load_succeeds hhealthy ht hexe hopen hset hfte hfree
        (hroom ehdr phdrs hexe)).mpr ⟨hcreate, hnodup⟩⟩
  rw [← hload]
  constructor
  · rintro ⟨k', hstart, halive⟩
    obtain ⟨hcp, hstarts, ⟨entry, esp, hload⟩ | ⟨k₂, -, hexit⟩⟩ := start_cases.mp hstart
    · exact ⟨hcp, hstarts, entry, esp, k', hload⟩
    · -- the thread has left
      obtain ⟨k₃, -, hexit⟩ := Lts.bind_eq_ok.mp hexit
      obtain ⟨k₄, -, hexit⟩ := Lts.bind_eq_ok.mp hexit
      obtain ⟨k₅, -, hexit⟩ := Lts.bind_eq_ok.mp hexit
      cases hexit
      have habsent : ((pagedirDestroy k₅ t).setStatus t .absent).status t = .absent :=
        Function.update_self ..
      rw [habsent] at halive
      cases halive
  · rintro ⟨hcp, hstarts, entry, esp, k', hload⟩
    exact ⟨k', start_cases.mpr ⟨hcp, hstarts, .inl ⟨entry, esp, hload⟩⟩,
      load_alive hhealthy ht hload⟩

/-- The executable with one segment becomes a process. -/
theorem started_iff_executable_tiny : ∃ k',
    start startEnv (tinyMachine [0, 1] nodup_twoPages).boot 1 1 tinyCommand = .ok k' ∧
      k'.status 1 = .alive := by
  have hroom : ∀ n, HasRoom startEnv.toEnv 0 n (tinyMachine [0, 1] nodup_twoPages).boot := by
    intro n
    refine ⟨fun i _ => ⟨100 + (0 + i), rfl, rfl⟩, fun i _ j _ heq => ?_⟩
    have hsome : some (100 + (0 + i)) = some (100 + (0 + j)) := heq
    have hsum := Option.some.inj hsome
    omega
  rcases hopen : fileOpen startEnv.toEnv (initThread (tinyMachine [0, 1] nodup_twoPages).boot 1) 1
    with ⟨opened, k₁⟩
  have hopened : opened = some 100 := congrArg (·.1) hopen.symm
  subst hopened
  exact (started_iff_executable (.refl _) rfl hopen rfl rfl (List.cons_ne_nil 0 [1])
    (fun _ _ _ => hroom _) (by decide)).mpr ⟨rfl, rfl, rfl, ⟨rfl, rfl, fun _ _ => rfl⟩, tinyEhdr,
      [tinyPhdr], isExecutable_tiny, by decide +kernel⟩

end Pintos.Elf
