import Pintos.Vm.RemoveMmap

/-! # `process_remove_mmap` is exact

The calls of `process_remove_mmap` that there are, and what each of them does to
the mappings it is for and to everything else.
-/

namespace Pintos.Vm

open Grouped

variable {k k' s : Kernel} {t : Tid} {p : Ptr} {e : Spte} {m : Machine} {mm : MmapFile}
  {mapping : ℤ} {va : Vaddr} {pte : Pte} {i : Inode} {es : List Removal}

/-! ## The calls -/

/-- Where `process_remove_mmap` is called: by `munmap`, by `mmap` when a page of the
new mapping could not be added, and by `process_exit`. The lists of mappings it
finds there are those that calls of `mmap` have built. -/
inductive Calls (m : Machine) : Kernel → Tid → ℤ → Prop where
  | munmap {k : Kernel} {t : Tid} {mapping : ℤ} (h : Reachable m k) : Calls m k t mapping
  | mmap {k k₁ : Kernel} {t : Tid} {env : Env} {file : FilePtr} {i : Inode} {addr : Vaddr}
      (h : Reachable m k) (ht : k.status t = .alive) (hnew : file ∉ k.files)
      (hloop : mmapLoop env t file 0 (k.bytesOf i).length 0 addr
        (UInt32.ofNat (k.bytesOf i).length) (beginMapping k t file i) = (false, k₁)) :
      Calls m k₁ t (k₁.mapid t)
  | processExit {k k₁ : Kernel} {t : Tid} (h : Reachable m k) (ht : k.status t = .killed)
      (hclose : closeFiles (k.setStatus t .exiting) t = .ok k₁) : Calls m k₁ t closeAll

theorem Calls.backed (h : Calls m k t mapping) : Sound k ∧ Backed k := by
  cases h with
  | munmap h => exact ⟨(settled_of_reachable h).sound, backed_of_reachable h⟩
  | mmap h ht hnew hloop =>
      exact mapping_backed (settled_of_reachable h).sound (backed_of_reachable h) ht hnew hloop
  | processExit h ht hclose =>
      have hset := settled_of_reachable h
      have hexiting := hset.sound.setStatus (.inr ht) (s := .exiting) (by decide)
      obtain ⟨hc, -⟩ := closeFiles_changes (R := .none)
        (fun _ hf _ => hset.sound.not_holds_executable ht hf)
        (by rw [setStatus_status, if_pos rfl]; decide) hclose
      refine ⟨hexiting.changes hc, Backed.changes hexiting ?_ hc fun _ _ hno => hno⟩
      exact (backed_of_reachable h).congr (fun _ _ hmm => hmm) rfl (fun _ _ _ _ _ => rfl)
        fun _ => rfl

/-! ## What is written -/

/-- The bytes of a file in a state of all files. -/
def bytesIn (inodes : Inode → Option FileData) (i : Inode) : List UInt8 :=
  (inodes i).elim [] (·.bytes)

/-- Either a page is not written, or it is dirty and nobody denies it. -/
theorem writeBack_cases (k : Kernel) (t : Tid) (inodes : Inode → Option FileData)
    (mm : MmapFile) : writeBack k t inodes mm = inodes ∨
      ∃ (e : Spte) (pte : Pte) (o : OpenFile), ¬ WritesDenied k o.inode ∧
        writeBack k t inodes mm = Function.update inodes o.inode ((inodes o.inode).map
          (·.write e.offset.toNat e.readBytes.toNat (pageByte (k.mem pte.frame)))) := by
  unfold writeBack
  split
  next => exact .inl rfl
  next e _ =>
    split
    next pte o _ _ =>
      split
      next hall => exact .inr ⟨e, pte, o, hall.2.2, rfl⟩
      next => exact .inl rfl
    next => exact .inl rfl

/-- A file keeps its length. -/
theorem length_writeBack {inodes : Inode → Option FileData} :
    (bytesIn (writeBack k t inodes mm) i).length = (bytesIn inodes i).length := by
  rcases writeBack_cases k t inodes mm with heq | ⟨e, pte, o, -, heq⟩
  · rw [heq]
  · rw [heq]
    unfold bytesIn
    by_cases hi : i = o.inode
    · rw [hi, Function.update_self]
      cases inodes o.inode with
      | none => rfl
      | some d => exact length_overwrite ..
    · rw [Function.update_of_ne hi]

/-- A file to which writes are denied keeps its bytes. -/
theorem writeBack_denied {inodes : Inode → Option FileData} (hdenied : WritesDenied k i) :
    writeBack k t inodes mm i = inodes i := by
  rcases writeBack_cases k t inodes mm with heq | ⟨e, pte, o, hallowed, heq⟩
  · rw [heq]
  · rw [heq]
    apply Function.update_of_ne
    rintro rfl
    exact hallowed hdenied

theorem After.length (ha : After k t es s) : (s.bytesOf i).length = (k.bytesOf i).length := by
  have hgen : ∀ (l : List MmapFile) (inodes : Inode → Option FileData),
      (bytesIn (l.foldl (writeBack k t) inodes) i).length = (bytesIn inodes i).length := by
    intro l
    induction l with
    | nil => exact fun _ => rfl
    | cons mm l ih => exact fun inodes => (ih _).trans length_writeBack
  show (bytesIn s.inodes i).length = _
  rw [ha.inodes]
  exact hgen _ _

theorem After.denied_inodes (ha : After k t es s) (hdenied : WritesDenied k i) :
    s.inodes i = k.inodes i := by
  have hgen : ∀ (l : List MmapFile) (inodes : Inode → Option FileData),
      l.foldl (writeBack k t) inodes i = inodes i := by
    intro l
    induction l with
    | nil => exact fun _ => rfl
    | cons mm l ih => exact fun inodes => (ih _).trans (writeBack_denied hdenied)
  rw [ha.inodes]
  exact hgen _ _

/-! ## What a call does -/

/-- `k'` is `k` without what belongs to the mapping, or to any mapping. -/
structure RemovesExactly (k : Kernel) (t : Tid) (mapping : ℤ) (k' : Kernel) : Prop where
  mmapList : k'.mmapList = Function.update k.mmapList t
    ((k.mmapList t).filter fun mm => ¬ Removed mapping mm)
  freed : ∀ mm ∈ removed k t mapping, k'.sptes mm.spte = none
  /-- The frame of a page that is resident is freed, and the page directory forgets it. -/
  unmapped : ∀ mm ∈ removed k t mapping, ∀ va, Resident k mm va → ∃ fte ∈ k.frameTblList,
    fte.spte = mm.spte ∧ pagedirGetPage k t va = some fte.frame ∧
      fte ∉ k'.frameTblList ∧ fte.frame ∈ k'.freePages ∧ k'.pteOf t va = none
  forgotten : ∀ mm ∈ removed k t mapping, ∀ e, k.sptes mm.spte = some e → e.type ≠ .hashError →
    hashFind k' t e.unusedVirtualAddress = none
  /-- What is found at an address stays there, also where a page of the mapping could
  not be added because of it. -/
  found : ∀ va p, hashFind k t va = some p → p ∉ (removed k t mapping).map (·.spte) →
    hashFind k' t va = some p ∧ k'.sptes p = k.sptes p
  closed : ∀ mm ∈ removed k t mapping, fileOf k mm ∈ k.files ∧ fileOf k mm ∉ k'.files
  opened : ∀ f, (∀ mm ∈ removed k t mapping, fileOf k mm ≠ f) →
    k'.files.lookup f = k.files.lookup f
  inodes : k'.inodes = (removed k t mapping).foldl (writeBack k t) k.inodes
  spt : k'.spt = Function.update k.spt t
    ((k.spt t).filter (· ∉ (removed k t mapping).map (·.spte)))
  sptes : ∀ p, p ∉ (removed k t mapping).map (·.spte) → k'.sptes p = k.sptes p
  ptes : ∀ u va, (u = t → ∀ mm ∈ removed k t mapping, ¬ Resident k mm va) →
    k'.pteOf u va = k.pteOf u va
  frameTblList : k'.frameTblList =
    k.frameTblList.filter (·.spte ∉ (removed k t mapping).map (·.spte))
  freePages : k'.freePages.Perm
    ((k.frameTblList.filter (·.spte ∈ (removed k t mapping).map (·.spte))).map (·.frame) ++
      k.freePages)
  /-- Nothing else changes, the contents of the frames included. -/
  rest : k' = { k with
    mmapList := k'.mmapList
    spt := k'.spt
    sptes := k'.sptes
    pagedir := k'.pagedir
    frameTblList := k'.frameTblList
    freePages := k'.freePages
    files := k'.files
    inodes := k'.inodes }

/-- Each mapping has its file closed once, and that is behind the rounds of all its
pages. -/
structure ClosesInTurn (k : Kernel) (t : Tid) (mapping : ℤ) : Prop where
  visits : visits (removals k t mapping) = removed k t mapping
  finishes : finishes (removals k t mapping) = removed k t mapping
  files : ∀ f, f ∈ releases (removals k t mapping) ↔
    ∃ mm ∈ removed k t mapping, fileOf k mm = f
  once : (releases (removals k t mapping)).Nodup
  /-- Two pages have the same file if they are of the same mapping, and only then. -/
  distinct : ∀ mm ∈ removed k t mapping, ∀ mm' ∈ removed k t mapping,
    mm.mapid = mm'.mapid ↔ fileOf k mm = fileOf k mm'
  behind : ∀ mm ∈ removed k t mapping,
    [.visit mm, .finish mm, .release (fileOf k mm)].Sublist (removals k t mapping)

theorem closes_in_turn (h : Sound k) (hb : Backed k) : ClosesInTurn k t mapping where
  visits := visits_walk
  finishes := finishes_walk
  files := fun _ => mem_releases_removals h hb
  once := nodup_releases_walk (hb.sorted h t mapping)
  distinct := (hb.sorted h t mapping).same
  behind := fun _ hmm => sublist_walk (hb.sorted h t mapping) hmm

/-- `hash_find` finds the entry for an address. -/
theorem Tables.hashFind_eq_some (h : Tables k) :
    hashFind k t va = some p ↔ ∃ e, Entry k t p e ∧ e.unusedVirtualAddress = va := by
  -- an entry of the table is found at its address only
  have hat : ∀ {q x}, Entry k t q x →
      (decide (addressOf k q = some va) = true ↔ x.unusedVirtualAddress = va) := by
    intro q x hx
    unfold addressOf
    rw [decide_eq_true_iff, hx.at_ptr]
    exact Option.some_inj
  constructor
  · intro hfind
    obtain ⟨e, he⟩ := h.exists_entry (List.mem_of_find?_eq_some hfind)
    have hq := List.find?_some (p := fun q => decide (addressOf k q = some va)) hfind
    exact ⟨e, he, (hat he).mp hq⟩
  · rintro ⟨e, he, haddr⟩
    cases hfind : hashFind k t va with
    | none => exact absurd haddr (not_entry_of_hashFind hfind he)
    | some q =>
        obtain ⟨x, hx⟩ := h.exists_entry (List.mem_of_find?_eq_some hfind)
        have hxa := (hat hx).mp
          (List.find?_some (p := fun q => decide (addressOf k q = some va)) hfind)
        rw [h.addressUnique t p q e x he hx (haddr.trans hxa.symm)]

/-- The entries of a table that are left. -/
theorem After.entry_iff {x : Spte} (ha : After k t es s) :
    Entry s t p x ↔ Entry k t p x ∧ p ∉ (visits es).map (·.spte) := by
  rw [Vm.entry_iff, Vm.entry_iff, spt_of_after ha, List.mem_filter, decide_eq_true_iff]
  constructor
  · rintro ⟨⟨hmem, hp⟩, hx⟩
    exact ⟨⟨hmem, (ha.sptes p hp).symm.trans hx⟩, hp⟩
  · rintro ⟨⟨hmem, hx⟩, hp⟩
    exact ⟨⟨hmem, hp⟩, (ha.sptes p hp).trans hx⟩

/-- Frames are neither lost nor found. -/
theorem After.freePages (h : Sound k) (h' : Sound s) (ha : After k t es s) : s.freePages.Perm
    ((k.frameTblList.filter (·.spte ∈ (visits es).map (·.spte))).map (·.frame) ++ k.freePages) := by
  have hpool : (s.frameTblList.map (·.frame) ++ s.freePages).Perm
      (k.frameTblList.map (·.frame) ++ k.freePages) := by
    apply h'.tables.pool.trans
    rw [show s.userPool = k.userPool from by rw [ha.rest]]
    exact h.tables.pool.symm
  have hparts := List.filter_append_perm (fun fte : FrameTblEnt =>
    decide (fte.spte ∉ (visits es).map (·.spte))) k.frameTblList
  have hframes := hpool.trans ((hparts.symm.map (·.frame)).append_right k.freePages)
  rw [List.map_append, List.append_assoc, ha.frameTblList] at hframes
  have hcancel := (List.perm_append_left_iff _).mp hframes
  refine hcancel.trans (List.Perm.of_eq ?_)
  congr 3
  apply funext
  intro fte
  rw [decide_not, Bool.not_not]

/-- A page that has been handled has lost its frame. -/
theorem After.unmapped (h : Sound k) (h' : Sound s) (ha : After k t es s)
    (hmm : mm ∈ k.mmapList t) (hvisit : mm ∈ visits es) (hres : Resident k mm va) :
    ∃ fte ∈ k.frameTblList, fte.spte = mm.spte ∧ pagedirGetPage k t va = some fte.frame ∧
      fte ∉ s.frameTblList ∧ fte.frame ∈ s.freePages ∧ s.pteOf t va = none := by
  obtain ⟨e, he, hl, rfl⟩ := id hres
  obtain ⟨fte, pte, hfte, -, hspte, hpte, hframe⟩ :=
    h.tables.loaded_pte (h.entry_of_loaded hmm he hl) hl
  have hmem : fte.spte ∈ (visits es).map (·.spte) := by
    rw [hspte]
    exact List.mem_map_of_mem hvisit
  refine ⟨fte, hfte, hspte, ?_, ?_, ?_, ha.cleared mm hvisit _ hres⟩
  · unfold pagedirGetPage
    rw [hpte, Option.map_some, hframe]
  · rw [ha.frameTblList, List.mem_filter, decide_eq_true_iff]
    exact fun hkept => hkept.2 hmem
  · apply (ha.freePages h h').symm.subset
    apply List.mem_append_left
    exact List.mem_map_of_mem (List.mem_filter.mpr ⟨hfte, decide_eq_true hmem⟩)

/-- Nothing is found at its address. -/
theorem After.forgotten (h : Sound k) (h' : Sound s) (ha : After k t es s)
    (hmm : mm ∈ k.mmapList t) (hvisit : mm ∈ visits es) (he : k.sptes mm.spte = some e)
    (hty : e.type ≠ .hashError) : hashFind s t e.unusedVirtualAddress = none := by
  obtain ⟨x, hx, ⟨-, hmem⟩ | ⟨herr, -⟩⟩ := h.mappings.entry t mm hmm
  · cases hfind : hashFind s t e.unusedVirtualAddress with
    | none => rfl
    | some q =>
        obtain ⟨y, hy, haddr⟩ := h'.tables.hashFind_eq_some.mp hfind
        obtain ⟨hold, hq⟩ := ha.entry_iff.mp hy
        have heq := h.tables.addressUnique t q mm.spte y e hold ⟨hmem, he⟩ haddr
        rw [heq] at hq
        exact absurd (List.mem_map_of_mem hvisit) hq
  · rw [Option.some.inj (hx.symm.trans he)] at herr
    exact absurd herr hty

/-- The other entries are found where they were. -/
theorem After.found (h : Sound k) (h' : Sound s) (ha : After k t es s)
    (hfind : hashFind k t va = some p) (hp : p ∉ (visits es).map (·.spte)) :
    hashFind s t va = some p := by
  obtain ⟨e, he, haddr⟩ := h.tables.hashFind_eq_some.mp hfind
  exact h'.tables.hashFind_eq_some.mpr ⟨e, ha.entry_iff.mpr ⟨he, hp⟩, haddr⟩

/-- The walk is over. -/
theorem removes_exactly (h : Sound k) (hb : Backed k) (h' : Sound k')
    (ha : After k t (removals k t mapping) k') : RemovesExactly k t mapping k' := by
  have hvisits : visits (removals k t mapping) = removed k t mapping := visits_walk
  have hfinishes : finishes (removals k t mapping) = removed k t mapping := finishes_walk
  constructor
  case mmapList =>
    rw [ha.mmapList, hvisits]
    congr 1
    apply List.filter_congr
    intro mm hmm
    rw [decide_eq_decide, mem_removed]
    exact not_congr (and_iff_right hmm)
  case freed =>
    intro mm hmm
    exact ha.freed mm (hfinishes ▸ hmm)
  case unmapped =>
    intro mm hmm va hres
    exact ha.unmapped h h' (mem_removed.mp hmm).1 (hvisits ▸ hmm) hres
  case forgotten =>
    intro mm hmm e he hty
    exact ha.forgotten h h' (mem_removed.mp hmm).1 (hvisits ▸ hmm) he hty
  case found =>
    intro va p hfind hp
    rw [← hvisits] at hp
    exact ⟨ha.found h h' hfind hp, ha.sptes p hp⟩
  case closed =>
    intro mm hmm
    obtain ⟨e, he, o, ho, -⟩ := hb.entry t mm (mem_removed.mp hmm).1
    constructor
    · rw [fileOf_eq he]
      exact AList.lookup_isSome.mp (by rw [ho]; rfl)
    · apply AList.lookup_eq_none.mp
      exact ha.closed _ ((mem_releases_removals h hb).mpr ⟨mm, hmm, rfl⟩)
  case opened =>
    intro f hf
    apply ha.lookup
    intro hmem
    obtain ⟨mm, hmm, heq⟩ := (mem_releases_removals h hb).mp hmem
    exact hf mm hmm heq
  case inodes => rw [ha.inodes, hvisits]
  case spt => rw [ha.spt, hvisits]
  case sptes =>
    rw [← hvisits]
    exact ha.sptes
  case ptes =>
    rw [← hvisits]
    exact ha.ptes
  case frameTblList => rw [ha.frameTblList, hvisits]
  case freePages =>
    rw [← hvisits]
    exact ha.freePages h h'
  case rest => exact ha.rest

/-! ## The moment of a page -/

/-- The page of the element is written when its turn comes, and its file is closed
later. To a file that is the executable of a process nothing is written. -/
def WrittenInTurn (k : Kernel) (t : Tid) (mapping : ℤ) (k' : Kernel) (mm : MmapFile) (e : Spte)
    (pte : Pte) : Prop :=
  ∃ es fs s s', removals k t mapping = es ++ .visit mm :: fs ∧ .release e.file ∈ fs ∧
    Lts.Run (Lts.Succeeds (performRemoval t)) k es s ∧ performRemoval t s (.visit mm) = .ok s' ∧
    Lts.Run (Lts.Succeeds (performRemoval t)) s' fs k' ∧
    ∃ o, k.files.lookup e.file = some o ∧
      if WritesDenied k o.inode then s'.inodes = s.inodes
      else ∀ b < e.readBytes.toNat,
        (s'.bytesOf o.inode)[e.offset.toNat + b]? = some (pageByte (k.mem pte.frame) b)

/-- The moments before and after a page is handled. -/
theorem moment_of_visit (h : Sound k) (hb : Backed k) (hmm : mm ∈ removed k t mapping)
    (hrun : Lts.Run (Lts.Succeeds (performRemoval t)) k (removals k t mapping) k') :
    ∃ es fs s s', removals k t mapping = es ++ .visit mm :: fs ∧ .release (fileOf k mm) ∈ fs ∧
      Lts.Run (Lts.Succeeds (performRemoval t)) k es s ∧ After k t es s ∧
      performRemoval t s (.visit mm) = .ok s' ∧ After k t (es ++ [.visit mm]) s' ∧
      Lts.Run (Lts.Succeeds (performRemoval t)) s' fs k' := by
  have hsorted := hb.sorted h t mapping
  have hvisits : visits (removals k t mapping) = removed k t mapping := visits_walk
  obtain ⟨es, fs, hsplit⟩ := List.append_of_mem (mem_visits.mp (hvisits ▸ hmm))
  obtain ⟨hfresh, -⟩ := before_visit hsorted (h.mappings.nodup_removed t mapping) hsplit
  have hround : [.visit mm, .finish mm, .release (fileOf k mm)].Sublist (es ++ .visit mm :: fs) := by
    rw [← hsplit]
    exact sublist_walk hsorted hmm
  have hahead := sublist_of_notMem (fun hmem => hfresh (mem_visits.mpr hmem)) hround
  have hclose : (.release (fileOf k mm) : Removal) ∈ fs := by
    have hmem : (.release (fileOf k mm) : Removal) ∈ .visit mm :: fs := hahead.subset (by simp)
    simpa using hmem
  -- the run goes through the two moments
  rw [hsplit] at hrun
  obtain ⟨s, hbefore, hrest⟩ := hrun.split
  obtain ⟨x, hx, ha⟩ := removals_moment h hb hsplit
  obtain rfl := Lts.run_unique hx hbefore
  cases hrest with
  | @cons _ s' _ _ _ hvisit hlast =>
      have hsplit' : removals k t mapping = (es ++ [.visit mm]) ++ fs := by
        rw [hsplit, List.append_assoc, List.singleton_append]
      obtain ⟨y, hy, ha'⟩ := removals_moment h hb hsplit'
      obtain rfl := Lts.run_unique hy (hbefore.snoc hvisit)
      exact ⟨es, fs, x, y, hsplit, hclose, hbefore, ha, hvisit, ha', hlast⟩

theorem written_in_turn (h : Sound k) (hb : Backed k) (hmm : mm ∈ removed k t mapping)
    (hrun : Lts.Run (Lts.Succeeds (performRemoval t)) k (removals k t mapping) k')
    (hd : Dirty k t mm e pte) : WrittenInTurn k t mapping k' mm e pte := by
  obtain ⟨es, fs, s, s', hsplit, hclose, hbefore, ha, hvisit, ha', hlast⟩ :=
    moment_of_visit h hb hmm hrun
  rw [fileOf_eq hd.entry] at hclose
  obtain ⟨x, hx, o, ho, -, hin⟩ := hb.entry t mm (mem_removed.mp hmm).1
  obtain rfl := Option.some.inj (hx.symm.trans hd.entry)
  refine ⟨es, fs, s, s', hsplit, hclose, hbefore, hvisit, hlast, o, ho, ?_⟩
  have hinodes : s'.inodes = writeBack k t s.inodes mm := by
    rw [ha'.inodes, visits_append, List.foldl_append, ← ha.inodes]
    rfl
  rw [writeBack_of_dirty hd ho] at hinodes
  by_cases hdenied : WritesDenied k o.inode
  · rw [if_pos hdenied] at hinodes ⊢
    exact hinodes
  · rw [if_neg hdenied] at hinodes ⊢
    intro b hlt
    have hbytes : s'.bytesOf o.inode = overwrite (s.bytesOf o.inode) x.offset.toNat
        x.readBytes.toNat (pageByte (k.mem pte.frame)) := by
      unfold Kernel.bytesOf
      rw [hinodes, Function.update_self]
      cases s.inodes o.inode <;> rfl
    rw [hbytes]
    exact getElem?_overwrite hlt (by rw [ha.length]; exact hin)

/-- `process_remove_mmap` is exact. Wherever it is called it gets through, unless
`mmap_list` is not a list, and takes away what belongs to the mapping, or to all mappings,
and nothing else; the pages that are dirty are written back, and each mapping has its file
closed once, behind its last page. -/
theorem remove_mmap_exact (h : Calls m k t mapping) : ∃ k',
    processRemoveMmap k t mapping = (if k.listed then .ok k' else .error isNextable) ∧
    Lts.Run (Lts.Succeeds (performRemoval t)) k (removals k t mapping) k' ∧
    RemovesExactly k t mapping k' ∧ ClosesInTurn k t mapping ∧
    ∀ mm ∈ removed k t mapping, ∀ e pte, Dirty k t mm e pte →
      WrittenInTurn k t mapping k' mm e pte := by
  obtain ⟨hsound, hb⟩ := h.backed
  obtain ⟨k', hrun, ha⟩ := removals_moment hsound hb (List.append_nil (removals k t mapping)).symm
  have hloop := (removeMmap_eq hsound).trans (Lts.foldlM_of_run _ hrun)
  have hok : processRemoveMmap k t mapping =
      if k.listed then .ok k' else .error isNextable := by
    unfold processRemoveMmap
    rw [hloop]
  have hsound' : Sound k' := by
    have hc := removeMmap_changes (R := ⟨fun _ _ => False, fun _ _ => True,
      fun _ _ => False, fun _ => False⟩) hsound (fun _ _ => trivial) hloop
    exact hsound.changes hc.1
  exact ⟨k', hok, hrun, removes_exactly hsound hb hsound' ha, closes_in_turn hsound hb,
    fun mm hmm e pte hd => written_in_turn hsound hb hmm hrun hd⟩

/-! ## Two runs -/

/-- A process maps a file and stores to its page. -/
def mapAndStore (i : Inode) : List Act :=
  [.load 1 1 [⟨0, 0x08049000, 3, 4093, true⟩] (generous 100),
   .openFile 1 i (generous 200),
   .mmap 1 2 0x10000000 (generous 300),
   .pageFault 1 0x10000000 0xbffffff0 (generous 400),
   .userStore 1 0x10000000 42]

/-- The entry of the page. -/
def mappedEntry : Spte where
  unusedVirtualAddress := 0x10000000
  type := .mmap
  writable := true
  isLoaded := true
  pinned := false
  file := 300
  offset := 0
  readBytes := 3
  zeroBytes := 4093
  swapIndex := 0

/-- What is there when `munmap` is called. -/
def MapsAndStores (k : Kernel) (i : Inode) : Prop :=
  k.mmapList 1 = [⟨300, 1⟩] ∧ k.sptes 300 = some mappedEntry ∧
    k.pteOf 1 0x10000000 = some ⟨1, true, true, true⟩ ∧ k.files.lookup 300 = some ⟨i, false⟩ ∧
    k.mem 1 0 = 42

instance : Decidable (MapsAndStores k i) :=
  inferInstanceAs (Decidable (_ ∧ _))

theorem MapsAndStores.removed_dirty (h : MapsAndStores k i) :
    (⟨300, 1⟩ : MmapFile) ∈ removed k 1 1 ∧
      Dirty k 1 ⟨300, 1⟩ mappedEntry ⟨1, true, true, true⟩ := by
  obtain ⟨hlist, hentry, hpte, -, -⟩ := h
  refine ⟨mem_removed.mpr ⟨?_, .inl rfl⟩, hentry, rfl, hpte, rfl⟩
  rw [hlist]
  exact List.mem_cons_self

/-- The byte gets into the file. -/
theorem remove_mmap_exact_run : ∃ k k', Calls oneFile k 1 1 ∧ MapsAndStores k 2 ∧
    processRemoveMmap k 1 1 = .ok k' ∧ k'.bytesOf 2 = [42, 2, 3] ∧
    RemovesExactly k 1 1 k' ∧ ClosesInTurn k 1 1 ∧
    WrittenInTurn k 1 1 k' ⟨300, 1⟩ mappedEntry ⟨1, true, true, true⟩ := by
  have hrun : (runActs oneFile.boot (mapAndStore 2)).toOption.map
      (fun k => decide (k.listed = true ∧ MapsAndStores k 2 ∧
        (processRemoveMmap k 1 1).toOption.map (·.bytesOf 2) = some [42, 2, 3])) = some true := by
    decide +kernel
  obtain ⟨k, hk, hstate⟩ := Option.map_eq_some_iff.mp hrun
  obtain ⟨hlisted, hmaps, hbytes⟩ := of_decide_eq_true hstate
  obtain ⟨hmem, hdirty⟩ := hmaps.removed_dirty
  have hcall : Calls oneFile k 1 1 :=
    .munmap ⟨mapAndStore 2, run_of_runActs (Lts.eq_ok_of_toOption hk)⟩
  obtain ⟨k', hok, -, hexact, hcloses, hwritten⟩ := remove_mmap_exact hcall
  rw [if_pos hlisted] at hok
  rw [hok] at hbytes
  exact ⟨k, k', hcall, hmaps, hok, Option.some.inj hbytes, hexact, hcloses,
    hwritten _ hmem _ _ hdirty⟩

/-- A process that maps its own executable does not get its byte into it, since writes to
the executable are denied: not every page that is dirty is in its file when the file
is closed. -/
theorem write_back_denied : ¬ ∀ (m : Machine) (k : Kernel) (t : Tid) (mapping : ℤ) (k' : Kernel),
    Calls m k t mapping → processRemoveMmap k t mapping = .ok k' →
    ∀ mm ∈ removed k t mapping, ∀ e pte o, Dirty k t mm e pte →
      k.files.lookup e.file = some o →
      ∃ es fs s, removals k t mapping = es ++ fs ∧ .release e.file ∈ fs ∧
        Lts.Run (Lts.Succeeds (performRemoval t)) k es s ∧
        ∀ b < e.readBytes.toNat,
          (s.bytesOf o.inode)[e.offset.toNat + b]? = some (pageByte (k.mem pte.frame) b) := by
  intro hclaim
  have hrun : (runActs oneFile.boot (mapAndStore 1)).toOption.map
      (fun k => decide (MapsAndStores k 1 ∧ WritesDenied k 1 ∧ k.bytesOf 1 = [7, 8, 9] ∧
        (processRemoveMmap k 1 1).toOption.isSome)) = some true := by
    decide +kernel
  obtain ⟨k, hk, hstate⟩ := Option.map_eq_some_iff.mp hrun
  obtain ⟨hmaps, hdenied, hbytes, hsome⟩ := of_decide_eq_true hstate
  obtain ⟨k', hk'⟩ := Option.isSome_iff_exists.mp hsome
  obtain ⟨hmem, hdirty⟩ := hmaps.removed_dirty
  obtain ⟨-, -, -, hopen, hstored⟩ := hmaps
  have hcall : Calls oneFile k 1 1 :=
    .munmap ⟨mapAndStore 1, run_of_runActs (Lts.eq_ok_of_toOption hk)⟩
  obtain ⟨hsound, hb⟩ := hcall.backed
  obtain ⟨es, fs, s, hsplit, -, hbefore, hall⟩ :=
    hclaim oneFile k 1 1 k' hcall (Lts.eq_ok_of_toOption hk') _ hmem _ _ _ hdirty hopen
  -- at every moment of the call the file has the bytes it had before
  obtain ⟨x, hx, ha⟩ := removals_moment hsound hb hsplit
  obtain rfl := Lts.run_unique hx hbefore
  have hsame : x.bytesOf 1 = [7, 8, 9] := by
    rw [← hbytes]
    unfold Kernel.bytesOf
    rw [ha.denied_inodes hdenied]
  have hfirst := hall 0 (by decide)
  rw [hsame] at hfirst
  have hbyte : pageByte (k.mem 1) 0 = 42 := hstored
  rw [hbyte] at hfirst
  exact absurd hfirst (by decide)

end Pintos.Vm
