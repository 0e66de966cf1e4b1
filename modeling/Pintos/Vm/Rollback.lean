import Pintos.Vm.Unmapping

/-! # A mapping that is given up

`mmap` adds the pages of a file one after the other. When a page cannot be added
it calls `munmap` for the half-built mapping, whose last entry may be in the list of
mappings but not in the table. What the loop has added up to then is exactly what
`munmap` takes away.
-/

namespace Pintos.Vm

open Grouped

variable {k k' k₁ s : Kernel} {t : Tid} {p : Ptr} {e : Spte} {mm : MmapFile} {m : Machine}
  {news : List MmapFile} {env : Env} {file : FilePtr} {ofs readBytes zeroBytes : UInt32}
  {addr upage : Vaddr} {page : Page} {n : ℕ} {b : Bool}

/-! ## The pages that are added -/

/-- What `add_mmap_page_tbl` does: nothing, or it lists an entry that is marked
`HASH_ERROR`, or it lists an entry and puts it into the table. -/
theorem addMmapPageTbl_cases
    (hadd : addMmapPageTbl env n k t file ofs upage readBytes zeroBytes = (b, k')) :
    b = false ∧ k' = k ∨ ∃ p, k.sptes p = none ∧
      (b = false ∧ k' = listMapping (k.setSpte p
          (some { mmapEntry file ofs upage readBytes zeroBytes with type := .hashError })) t p ∨
        b = true ∧ k' = insertEntry (listMapping (k.setSpte p
          (some (mmapEntry file ofs upage readBytes zeroBytes))) t p) t p upage
            (filePage k (mmapEntry file ofs upage readBytes zeroBytes))) := by
  cases b with
  | true =>
      obtain ⟨p, hp, -, hk'⟩ := addMmapPageTbl_true hadd
      exact .inr ⟨p, hp, .inr ⟨rfl, hk'⟩⟩
  | false =>
      unfold addMmapPageTbl at hadd
      cases hm : mallocSpte env n k with
      | none =>
          rw [hm] at hadd
          cases hadd
          exact .inl ⟨rfl, rfl⟩
      | some p =>
          have hp := mallocSpte_some hm
          rw [hm] at hadd
          dsimp only at hadd
          unfold processAddMmap at hadd
          by_cases hlist : env.mallocMmap n = true
          · rw [if_pos hlist] at hadd
            refine .inr ⟨p, hp, .inl ⟨rfl, ?_⟩⟩
            dsimp only at hadd
            unfold hashInsert at hadd
            split at hadd
            next hins =>
              split at hins <;> cases hins
              cases hadd
            next hins =>
              split at hins <;> cases hins
              cases hadd
              unfold listMapping Kernel.setMmapList Kernel.setSpte mmapEntry
              dsimp only
              rw [Function.update_idem]
          · rw [if_neg hlist] at hadd
            cases hadd
            refine .inl ⟨rfl, ?_⟩
            unfold Kernel.setSpte
            dsimp only
            rw [Function.update_idem, ← hp, Function.update_eq_self]

/-- `s` is `k` with the entries `news` of a mapping of `file` that process `t` is making;
those in the table are among them. -/
structure Halfway (k : Kernel) (t : Tid) (file : FilePtr) (news : List MmapFile) (s : Kernel) :
    Prop where
  mmapList : s.mmapList = Function.update k.mmapList t (k.mmapList t ++ news)
  spt : ∃ added, s.spt = Function.update k.spt t (k.spt t ++ added) ∧
    ∀ p ∈ added, p ∈ news.map (·.spte)
  mapid : ∀ mm ∈ news, mm.mapid = k.mapid t
  fresh : ∀ mm ∈ news, k.sptes mm.spte = none
  entry : ∀ mm ∈ news, ∃ e, s.sptes mm.spte = some e ∧ e.isLoaded = false ∧ e.file = file
  sptes : ∀ p, p ∉ news.map (·.spte) → s.sptes p = k.sptes p
  rest : s = { k with
    mmapList := s.mmapList
    spt := s.spt
    sptes := s.sptes
    hist := s.hist }

namespace Halfway

theorem refl (k : Kernel) (t : Tid) (file : FilePtr) : Halfway k t file [] k where
  mmapList := by
    rw [List.append_nil]
    exact (Function.update_eq_self ..).symm
  spt := by
    refine ⟨[], ?_, fun p hp => absurd hp List.not_mem_nil⟩
    rw [List.append_nil]
    exact (Function.update_eq_self ..).symm
  mapid _ hmm := absurd hmm List.not_mem_nil
  fresh _ hmm := absurd hmm List.not_mem_nil
  entry _ hmm := absurd hmm List.not_mem_nil
  sptes _ _ := rfl
  rest := rfl

/-- A new entry is listed. -/
theorem list (h : Halfway k t file news s) (hp : s.sptes p = none) (hl : e.isLoaded = false)
    (hfile : e.file = file) :
    Halfway k t file (news ++ [⟨p, k.mapid t⟩]) (listMapping (s.setSpte p (some e)) t p) := by
  have hmapid : s.mapid = k.mapid := by rw [h.rest]
  have hnot : p ∉ news.map (·.spte) := by
    intro hmem
    obtain ⟨mm, hmm, rfl⟩ := List.mem_map.mp hmem
    obtain ⟨x, hx, -⟩ := h.entry mm hmm
    rw [hp] at hx
    cases hx
  have hsnoc : ∀ {q : Ptr}, q ∉ (news ++ [(⟨p, k.mapid t⟩ : MmapFile)]).map (·.spte) →
      q ∉ news.map (·.spte) ∧ q ≠ p := by
    intro q hq
    simpa [not_or] using hq
  constructor
  case mmapList =>
    show Function.update s.mmapList t (s.mmapList t ++ [⟨p, s.mapid t⟩]) = _
    rw [h.mmapList, hmapid, Function.update_self, Function.update_idem, List.append_assoc]
  case spt =>
    obtain ⟨added, hspt, hadded⟩ := h.spt
    refine ⟨added, hspt, fun q hq => ?_⟩
    rw [List.map_append]
    exact List.mem_append_left _ (hadded q hq)
  case mapid =>
    intro mm hmm
    rcases List.mem_append.mp hmm with hold | hnew
    · exact h.mapid mm hold
    · rw [List.mem_singleton.mp hnew]
  case fresh =>
    intro mm hmm
    rcases List.mem_append.mp hmm with hold | hnew
    · exact h.fresh mm hold
    · rw [List.mem_singleton.mp hnew, ← hp]
      exact (h.sptes p hnot).symm
  case entry =>
    intro mm hmm
    show ∃ x, Function.update s.sptes p (some e) mm.spte = some x ∧ x.isLoaded = false ∧
      x.file = file
    rcases List.mem_append.mp hmm with hold | hnew
    · have hne : mm.spte ≠ p := by
        rintro rfl
        exact hnot (List.mem_map_of_mem hold)
      rw [Function.update_of_ne hne]
      exact h.entry mm hold
    · rw [List.mem_singleton.mp hnew]
      exact ⟨e, Function.update_self .., hl, hfile⟩
  case sptes =>
    intro q hq
    obtain ⟨hold, hne⟩ := hsnoc hq
    exact (Function.update_of_ne hne ..).trans (h.sptes q hold)
  case rest =>
    unfold listMapping Kernel.setMmapList Kernel.setSpte
    rw [h.rest]

/-- It enters the table. -/
theorem insert (h : Halfway k t file news s) (hp : p ∈ news.map (·.spte)) :
    Halfway k t file news (insertEntry s t p upage page) where
  mmapList := h.mmapList
  spt := by
    obtain ⟨added, hspt, hadded⟩ := h.spt
    refine ⟨added ++ [p], ?_, ?_⟩
    · show Function.update s.spt t (s.spt t ++ [p]) = _
      rw [hspt, Function.update_self, Function.update_idem, List.append_assoc]
    · intro q hq
      rcases List.mem_append.mp hq with hold | hnew
      · exact hadded q hold
      · rwa [List.mem_singleton.mp hnew]
  mapid := h.mapid
  fresh := h.fresh
  entry := h.entry
  sptes := h.sptes
  rest := by
    unfold insertEntry Kernel.setSpt Kernel.log
    rw [h.rest]

theorem add (h : Halfway k t file news s)
    (hadd : addMmapPageTbl env n s t file ofs upage readBytes zeroBytes = (b, k')) :
    ∃ news', Halfway k t file news' k' := by
  rcases addMmapPageTbl_cases hadd with ⟨-, rfl⟩ | ⟨p, hp, ⟨-, rfl⟩ | ⟨-, rfl⟩⟩
  · exact ⟨news, h⟩
  · exact ⟨_, h.list hp rfl rfl⟩
  · refine ⟨_, (h.list hp rfl rfl).insert ?_⟩
    rw [List.map_append]
    exact List.mem_append_right _ List.mem_cons_self

end Halfway

/-- The loop of `mmap`, as far as it gets. -/
theorem mmapLoop_halfway {rounds : ℕ} (h : Halfway k t file news s)
    (hloop : mmapLoop env t file n rounds ofs addr readBytes s = (b, k')) :
    ∃ news', Halfway k t file news' k' := by
  induction rounds generalizing n ofs addr readBytes s news with
  | zero =>
      cases hloop
      exact ⟨news, h⟩
  | succ rounds ih =>
      unfold mmapLoop at hloop
      split at hloop
      next =>
        dsimp only at hloop
        split at hloop
        next hadd =>
          cases hloop
          exact h.add hadd
        next hadd =>
          obtain ⟨news₁, h₁⟩ := h.add hadd
          exact ih h₁ hloop
      next =>
        cases hloop
        exact ⟨news, h⟩

/-! ## What `munmap` leaves -/

/-- `k'` is `k` but for the newest mapping's number and the file that has been opened
for it. -/
structure RolledBack (k k' : Kernel) : Prop where
  spt : k'.spt = k.spt
  sptes : k'.sptes = k.sptes
  mmapList : k'.mmapList = k.mmapList
  frameTblList : k'.frameTblList = k.frameTblList
  ptes : ∀ u va, k'.pteOf u va = k.pteOf u va
  /-- No byte of a file has been written. -/
  inodes : k'.inodes = k.inodes
  freePages : k'.freePages.Perm k.freePages
  files : ∀ f ∈ k.files, k'.files.lookup f = k.files.lookup f
  /-- Nothing else changes, the contents of the frames included. -/
  rest : k' = { k with
    pagedir := k'.pagedir
    freePages := k'.freePages
    files := k'.files
    mapid := k'.mapid
    hist := k'.hist }

theorem RolledBack.refl (k : Kernel) : RolledBack k k :=
  ⟨rfl, rfl, rfl, rfl, fun _ _ => rfl, rfl, .refl _, fun _ _ => rfl, rfl⟩

/-- Only the file has been opened. -/
theorem rolledBack_openFile {o : OpenFile} (hnew : file ∉ k.files) :
    RolledBack k { k with files := k.files.insert file o } := by
  refine ⟨rfl, rfl, rfl, rfl, fun _ _ => rfl, rfl, .refl _, ?_, rfl⟩
  intro f hf
  have hne : f ≠ file := by
    rintro rfl
    exact hnew hf
  exact AList.lookup_insert_ne hne

/-- Every address finds the entry it found before. -/
theorem RolledBack.hashFind (h : RolledBack k k') {u : Tid} {va : Vaddr} :
    Vm.hashFind k' u va = Vm.hashFind k u va := by
  unfold Vm.hashFind addressOf
  rw [h.spt, h.sptes]

namespace Halfway

variable {i : Inode}

/-- The elements that `munmap` removes are the new ones. -/
theorem removed (h : Halfway (beginMapping k t file i) t file news s) (hk : Sound k) :
    removed s t (s.mapid t) = news := by
  have hmapid : s.mapid t = k.mapid t + 1 := by
    rw [h.rest]
    show (beginMapping k t file i).mapid t = _
    exact beginMapping_mapid
  have hnonneg := hk.mappings.mapidNonneg t
  have hold : (k.mmapList t).filter (fun mm => Removed (s.mapid t) mm) = [] := by
    apply List.filter_eq_nil_iff.mpr
    intro mm hmm hrem
    have hle := (hk.mappings.bounded t mm hmm).2
    rcases of_decide_eq_true hrem with heq | hall
    · omega
    · unfold closeAll at hall
      omega
  have hnew : news.filter (fun mm => Removed (s.mapid t) mm) = news := by
    apply List.filter_eq_self.mpr
    intro mm hmm
    exact decide_eq_true (.inl ((h.mapid mm hmm).trans (beginMapping_mapid.trans hmapid.symm)))
  unfold Vm.removed
  rw [h.mmapList, Function.update_self, List.filter_append]
  exact (congrArg₂ _ hold hnew).trans (List.nil_append _)

/-- An entry that was there at the start is not new. -/
theorem old (h : Halfway (beginMapping k t file i) t file news s) (he : k.sptes p = some e) :
    p ∉ news.map (·.spte) := by
  intro hmem
  obtain ⟨mm, hmm, rfl⟩ := List.mem_map.mp hmem
  have hnone : k.sptes mm.spte = none := h.fresh mm hmm
  rw [he] at hnone
  cases hnone

theorem spt_filter (h : Halfway (beginMapping k t file i) t file news s) (hk : Sound k) :
    (s.spt t).filter (· ∉ news.map (·.spte)) = k.spt t := by
  obtain ⟨added, hspt, hadded⟩ := h.spt
  rw [hspt, Function.update_self, List.filter_append]
  have hsame : (k.spt t).filter (· ∉ news.map (·.spte)) = k.spt t := by
    apply List.filter_eq_self.mpr
    intro p hp
    obtain ⟨e, he, -⟩ := hk.tables.allocated t p hp
    exact decide_eq_true (h.old he)
  have hnone : added.filter (· ∉ news.map (·.spte)) = [] := by
    apply List.filter_eq_nil_iff.mpr
    intro p hp hnot
    exact of_decide_eq_true hnot (hadded p hp)
  exact (congrArg₂ _ hsame hnone).trans (List.append_nil _)

theorem mmapList_filter (h : Halfway (beginMapping k t file i) t file news s) (hk : Sound k) :
    (s.mmapList t).filter (· ∉ news) = k.mmapList t := by
  rw [h.mmapList, Function.update_self, List.filter_append]
  have hsame : (k.mmapList t).filter (· ∉ news) = k.mmapList t := by
    apply List.filter_eq_self.mpr
    intro mm hmm
    obtain ⟨e, he, -⟩ := hk.mappings.entry t mm hmm
    exact decide_eq_true fun hmem => h.old he (List.mem_map_of_mem hmem)
  have hnone : news.filter (· ∉ news) = [] := by
    apply List.filter_eq_nil_iff.mpr
    intro mm hmm hnot
    exact of_decide_eq_true hnot hmm
  exact (congrArg₂ _ hsame hnone).trans (List.append_nil _)

/-- No frame has been taken for the new mapping. -/
theorem notMem_of_fte (h : Halfway (beginMapping k t file i) t file news s) (hk : Sound k) :
    ∀ fte ∈ s.frameTblList, fte.spte ∉ news.map (·.spte) := by
  intro fte hfte
  rw [h.rest] at hfte
  obtain ⟨e, -, he, -⟩ := hk.tables.resident fte hfte
  exact h.old he.at_ptr

theorem not_resident (h : Halfway k t file news s) (hmm : mm ∈ news) (va : Vaddr) :
    ¬ Resident s mm va := by
  rintro ⟨e, he, hl, -⟩
  obtain ⟨x, hx, hxl, -⟩ := h.entry mm hmm
  obtain rfl := Option.some.inj (he.symm.trans hx)
  rw [hxl] at hl
  cases hl

/-- Nothing is written back. -/
theorem writeBack_news (h : Halfway k t file news s) {l : List MmapFile}
    (hl : ∀ mm ∈ l, mm ∈ news) (inodes : Inode → Option FileData) :
    l.foldl (writeBack s t) inodes = inodes := by
  induction l with
  | nil => rfl
  | cons mm l ih =>
      obtain ⟨x, hx, hxl, -⟩ := h.entry mm (hl mm List.mem_cons_self)
      rw [List.foldl_cons, writeBack_of_not_loaded hx (by rw [hxl]; decide)]
      exact ih fun m hm => hl m (List.mem_cons_of_mem _ hm)

/-- What was added is taken away. -/
theorem rolledBack (h : Halfway (beginMapping k t file i) t file news s) (hk : Sound k)
    (hnew : file ∉ k.files) (hs : Sound s) (hb : Backed s) (hk' : Sound k')
    (ha : After s t (removals s t (s.mapid t)) k') : RolledBack k k' := by
  have hremoved := h.removed hk
  have hvisits : visits (removals s t (s.mapid t)) = news := visits_walk.trans hremoved
  have hfinishes : finishes (removals s t (s.mapid t)) = news := finishes_walk.trans hremoved
  have hspt : k'.spt = k.spt := by
    obtain ⟨added, hspt, -⟩ := h.spt
    rw [ha.spt, hvisits, h.spt_filter hk, hspt, Function.update_idem]
    exact Function.update_eq_self ..
  have hsptes : k'.sptes = k.sptes := by
    funext p
    by_cases hp : p ∈ news.map (·.spte)
    · obtain ⟨mm, hmm, rfl⟩ := List.mem_map.mp hp
      rw [ha.freed mm (hfinishes ▸ hmm)]
      exact (h.fresh mm hmm).symm
    · exact (ha.sptes p (hvisits ▸ hp)).trans (h.sptes p hp)
  have hmmap : k'.mmapList = k.mmapList := by
    rw [ha.mmapList, hvisits, h.mmapList_filter hk, h.mmapList, Function.update_idem]
    exact Function.update_eq_self ..
  have htbl : k'.frameTblList = k.frameTblList := by
    rw [ha.frameTblList, hvisits, List.filter_eq_self.mpr fun fte hfte =>
      decide_eq_true (h.notMem_of_fte hk fte hfte), h.rest]
    rfl
  have hptes : ∀ u va, k'.pteOf u va = k.pteOf u va := by
    intro u va
    rw [ha.ptes u va fun _ mm hmm => h.not_resident (hvisits ▸ hmm) va]
    unfold Kernel.pteOf
    rw [h.rest]
    rfl
  have hinodes : k'.inodes = k.inodes := by
    rw [ha.inodes, hvisits, h.writeBack_news fun _ hmm => hmm, h.rest]
    rfl
  have hfree : k'.freePages.Perm k.freePages := by
    have hperm := ha.freePages hs hk'
    have hnone : s.frameTblList.filter (·.spte ∈ news.map (·.spte)) = [] := by
      apply List.filter_eq_nil_iff.mpr
      intro fte hfte hmem
      exact h.notMem_of_fte hk fte hfte (of_decide_eq_true hmem)
    have hsame : s.freePages = k.freePages := by
      rw [h.rest]
      rfl
    rwa [hvisits, hnone, hsame] at hperm
  have hfiles : ∀ f ∈ k.files, k'.files.lookup f = k.files.lookup f := by
    intro f hf
    have hne : f ≠ file := by
      rintro rfl
      exact hnew hf
    have hkept : f ∉ releases (removals s t (s.mapid t)) := by
      intro hrel
      obtain ⟨mm, hmm, rfl⟩ := (mem_releases_removals hs hb).mp hrel
      rw [hremoved] at hmm
      obtain ⟨x, hx, -, hfile⟩ := h.entry mm hmm
      exact hne ((fileOf_eq hx).trans hfile)
    have hopen : s.files = k.files.insert file ⟨i, false⟩ := by
      rw [h.rest]
      rfl
    rw [ha.lookup f hkept, hopen, AList.lookup_insert_ne hne]
  refine ⟨hspt, hsptes, hmmap, htbl, hptes, hinodes, hfree, hfiles, ha.rest.trans ?_⟩
  rw [hspt, hsptes, hmmap, htbl, hinodes, ha.rest, h.rest]
  rfl

end Halfway

/-- `mmap` gives up a mapping. -/
theorem munmap_rolledBack {i : Inode} (h : Sound k) (hb : Backed k) (ht : k.status t = .alive)
    (hnew : file ∉ k.files) (hloop : mmapLoop env t file 0 (k.bytesOf i).length 0 addr
      (UInt32.ofNat (k.bytesOf i).length) (beginMapping k t file i) = (b, k₁))
    (hun : munmap k₁ t (k₁.mapid t) = .ok k') : RolledBack k k' := by
  obtain ⟨h₁, hb₁⟩ := mapping_backed h hb ht hnew hloop
  obtain ⟨news, hhalf⟩ := mmapLoop_halfway (.refl (beginMapping k t file i) t file) hloop
  have hchanges := processRemoveMmap_changes (R := ⟨fun _ _ => False, fun _ _ => True,
    fun _ _ => False, fun _ => False⟩) h₁ (fun _ _ => trivial) hun
  obtain ⟨s, hrun, ha⟩ :=
    removals_moment h₁ hb₁ (List.append_nil (removals k₁ t (k₁.mapid t))).symm
  have hok := (removeMmap_eq h₁).trans (Lts.foldlM_of_run _ hrun)
  obtain rfl := Except.ok.inj (hok.symm.trans (processRemoveMmap_ok.mp hun).2)
  exact hhalf.rolledBack h hnew h₁ hb₁ (h₁.changes hchanges.1) ha

/-- `mmap` returns, unless `file_list` is not a list, and if it returns `ERROR` it has
rolled back. -/
theorem mmap_rolls_back (h : Reachable m k) (ht : k.status t = .alive) (env : Env) (fd : ℤ)
    (addr : Vaddr) : ∃ id k',
      mmap env k t fd addr = (if k.listed then .ok (id, k') else .error kernelBug) ∧
      (id = error → RolledBack k k') := by
  have hsound := (settled_of_reachable h).sound
  obtain ⟨⟨id, k'⟩, hmmap⟩ := mmap_returns env fd addr hsound ht
  by_cases hl : k.listed = true
  swap
  · simp only [if_neg hl]
    exact ⟨error, k, (by rw [hmmap, if_neg hl]), fun _ => .refl _⟩
  rw [if_pos hl] at hmmap
  refine ⟨id, k', (by rw [hmmap, if_pos hl]), fun hid => ?_⟩
  rcases mmap_cases hmmap with ⟨-, rfl⟩ | ⟨_, o, file, -, -, -, hnew, hcases⟩
  · exact .refl _
  · rcases hcases with ⟨-, rfl⟩ | ⟨-, b, k₃, hloop, ⟨-, hmapid, -⟩ | ⟨-, -, hun⟩⟩
    · exact rolledBack_openFile hnew
    · -- the number of a mapping that is made is positive
      have hpos : k₃.mapid t = k.mapid t + 1 := by
        rw [mmapLoop_mapid hloop]
        exact beginMapping_mapid
      have hnonneg := hsound.mappings.mapidNonneg t
      unfold error at hid
      omega
    · exact munmap_rolledBack hsound (backed_of_reachable h) ht hnew hloop hun

/-- A mapping of two pages of which the second one is in the way of another mapping. -/
theorem mmap_rolls_back_run : ∃ k k', Reachable twoPages k ∧
    hashFind k 1 0x0ffff000 = none ∧ hashFind k 1 0x10000000 = some 300 ∧
    mmap (generous 400) k 1 2 0x0ffff000 = .ok (error, k') ∧ k'.mapid 1 = 2 ∧
    RolledBack k k' := by
  have hrun : (runActs twoPages.boot mappingRun).toOption.map
      (fun k => decide (k.status 1 = .alive ∧ hashFind k 1 0x0ffff000 = none ∧
        hashFind k 1 0x10000000 = some 300 ∧
        (mmap (generous 400) k 1 2 0x0ffff000).toOption.map (fun r => (r.1, r.2.mapid 1)) =
          some (error, 2))) = some true := by
    decide +kernel
  obtain ⟨k, hk, hstate⟩ := Option.map_eq_some_iff.mp hrun
  obtain ⟨halive, hfree, hused, hresult⟩ := of_decide_eq_true hstate
  have hreach : Reachable twoPages k := ⟨mappingRun, run_of_runActs (Lts.eq_ok_of_toOption hk)⟩
  obtain ⟨id, k', hmmap, hback⟩ := mmap_rolls_back hreach halive (generous 400) 2 0x0ffff000
  have hlisted : k.listed = true := listed_of_reachable hreach
  rw [if_pos hlisted] at hmmap
  rw [hmmap] at hresult
  obtain ⟨rfl, hmapid⟩ := Prod.mk.inj (Option.some.inj hresult)
  exact ⟨k, k', hreach, hfree, hused, hmmap, hmapid, hback rfl⟩

end Pintos.Vm
