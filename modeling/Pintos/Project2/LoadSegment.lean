import Pintos.Vm.SegmentPages

/-! # load_segment of Project 2

Project 2 reads every page of a segment into a frame of its own when it loads the
executable. It uses the page allocator, the page directory of the process and its
file, of which the loop moves the position; there is no frame table and no
supplemental page table.
-/

namespace Pintos.Project2

open Vm

/-- The loop of `load_segment`, as long as there are bytes left; `pos` is the
position of the file. The first number bounds the rounds that are followed. -/
def loadSegmentLoop (env : Vm.Env) (t : Tid) (file : FilePtr) (writable : Bool) :
    ℕ → ℕ → Vaddr → UInt32 → UInt32 → Kernel → Except String (Bool × Kernel)
  | 0, _, _, _, _, _ => .error "load_segment has not come to the end yet"
  | rounds + 1, pos, upage, readBytes, zeroBytes, k =>
      if readBytes > 0 ∨ zeroBytes > 0 then
        let pageReadBytes := if readBytes < 4096 then readBytes else 4096
        let pageZeroBytes := 4096 - pageReadBytes
        match pallocGetPage env false k with
        | (none, k) => .ok (false, k)
        | (some kpage, k) => do
            let (count, page) ← fileReadAt k file (k.mem kpage) pageReadBytes.toNat pos
            if count ≠ pageReadBytes.toNat then
              return (false, pallocFreePage (k.setMem kpage page) kpage)
            else
              let k := k.setMem kpage
                (memsetZero page pageReadBytes.toNat pageZeroBytes.toNat)
              match installPage env k t upage kpage writable with
              | (false, k) => return (false, pallocFreePage k kpage)
              | (true, k) =>
                  loadSegmentLoop env t file writable rounds (pos + count) (upage + 4096)
                    (readBytes - pageReadBytes) (zeroBytes - pageZeroBytes) k
      else
        .ok (true, k)

/-- `load_segment`, with its loop followed for a number of rounds. -/
def loadSegment (env : Vm.Env) (rounds : ℕ) (k : Kernel) (t : Tid) (file : FilePtr) (s : Segment) :
    Except String (Bool × Kernel) :=
  if (s.readBytes + s.zeroBytes) % 4096 ≠ 0 then
    .error "(read_bytes + zero_bytes) % PGSIZE == 0"
  else if pgOfs s.upage ≠ 0 then
    .error "pg_ofs (upage) == 0"
  else if s.ofs % 4096 ≠ 0 then
    .error "ofs % PGSIZE == 0"
  else
    loadSegmentLoop env t file s.writable rounds s.ofs.toNat s.upage s.readBytes s.zeroBytes k

/-- No page of the process is free, and none is free twice. -/
structure Frames (k : Kernel) (t : Tid) : Prop where
  nodup : k.freePages.Nodup
  mapped : ∀ va pte, k.pteOf t va = some pte → pte.frame ∉ k.freePages

/-- The state after a round: a free page is filled and mapped. -/
def addPage (k : Kernel) (t : Tid) (upage : Vaddr) (frame : Frame) (page : Page)
    (writable : Bool) : Kernel :=
  (takeFrame k frame page).setPte t upage
    { frame := frame, writable := writable, accessed := false, dirty := false }

variable {k k' : Kernel} {t : Tid} {file : FilePtr} {o : OpenFile} {env : Vm.Env} {frame : Frame}
  {page page' : Page} {w writable : Bool} {va upage : Vaddr} {bytes : List UInt8}
  {readBytes zeroBytes : UInt32} {n pos rounds : ℕ}

theorem pteOf_addPage : (addPage k t upage frame page writable).pteOf t va =
    if va = upage then
      some { frame := frame, writable := writable, accessed := false, dirty := false }
    else k.pteOf t va := by
  unfold addPage
  rw [pteOf_setPte]
  by_cases hva : va = upage
  · rw [if_pos ⟨rfl, hva⟩, if_pos hva]
  · rw [if_neg fun h => hva h.2, if_neg hva]
    rfl

theorem Frames.addPage (h : Frames k t) :
    Frames (addPage k t upage frame page writable) t where
  nodup := h.nodup.erase frame
  mapped := by
    intro va pte hpte hmem
    have hmem' : pte.frame ∈ k.freePages.erase frame := hmem
    rw [pteOf_addPage] at hpte
    split at hpte
    · cases hpte
      exact h.nodup.not_mem_erase hmem'
    · exact h.mapped va pte hpte (List.mem_of_mem_erase hmem')

theorem maps_addPage_self : Maps (addPage k t upage frame page writable) t upage page writable := by
  refine ⟨{ frame := frame, writable := writable, accessed := false, dirty := false }, ?_, ?_, rfl⟩
  · rw [pteOf_addPage, if_pos rfl]
  · exact Function.update_self ..

/-- A page that is mapped already is another one, in another frame. -/
theorem Frames.maps_addPage (h : Frames k t) (hf : frame ∈ k.freePages)
    (hnew : k.pteOf t upage = none) (hm : Maps k t va page' w) :
    Maps (Project2.addPage k t upage frame page writable) t va page' w := by
  obtain ⟨pte, hpte, hmem, hw⟩ := hm
  have hva : va ≠ upage := by
    rintro rfl
    rw [hnew] at hpte
    cases hpte
  refine ⟨pte, ?_, ?_, hw⟩
  · rw [pteOf_addPage, if_neg hva]
    exact hpte
  · have hne : pte.frame ≠ frame := fun heq => h.mapped va pte hpte (heq ▸ hf)
    exact (Function.update_of_ne hne ..).trans hmem

/-- Filling the page that was taken is as good as taking it with these contents. -/
theorem takeFrame_setMem : (takeFrame k frame page').setMem frame page = takeFrame k frame page := by
  unfold takeFrame Kernel.setMem
  dsimp only
  rw [Function.update_idem]

theorem installPage_new (hset : env.setPage = true) (hnew : k.pteOf t upage = none) :
    installPage env (takeFrame k frame page) t upage frame writable =
      (true, addPage k t upage frame page writable) := by
  have hget : pagedirGetPage (takeFrame k frame page) t upage = none := by
    show (k.pteOf t upage).map _ = none
    rw [hnew]
    rfl
  unfold installPage pagedirSetPage
  rw [if_pos hget, if_pos hset]
  rfl

variable (writable) in
/-- A round that finds memory and a file that is long enough. -/
theorem loadSegmentLoop_succ (hset : env.setPage = true) (hroom : k.freePages ≠ [])
    (hfile : k.files.lookup file = some o) (hbytes : k.bytesOf o.inode = bytes)
    (hcover : readBytes.toNat = 0 ∨ pos + readBytes.toNat ≤ bytes.length)
    (hnew : k.pteOf t upage = none) (hround : Round readBytes zeroBytes n) :
    ∃ f ∈ k.freePages, ∀ rounds,
      loadSegmentLoop env t file writable (rounds + 1) pos upage readBytes zeroBytes k =
        loadSegmentLoop env t file writable rounds (pos + min readBytes.toNat pgSize) (upage + 4096)
          (readBytes - pageReadBytes readBytes) (zeroBytes - (4096 - pageReadBytes readBytes))
          (addPage k t upage f (segmentPage bytes pos readBytes.toNat 0) writable) := by
  obtain ⟨f, hf, hget⟩ : ∃ f ∈ k.freePages, pallocGetPage env false k =
    (some f, takeFrame k f env.garbage) := pallocGetPage_room hroom
  refine ⟨f, hf, ?_⟩
  intro rounds
  have hread : (pageReadBytes readBytes).toNat = min readBytes.toNat pgSize := pageReadBytes_toNat
  have hfill : fileReadAt (takeFrame k f env.garbage) file ((takeFrame k f env.garbage).mem f)
      (pageReadBytes readBytes).toNat pos = _ := fileReadAt_covered hfile hbytes (by omega)
  conv_lhs => unfold loadSegmentLoop
  rw [if_pos hround.more]
  dsimp only
  rw [hget]
  dsimp only
  rw [hfill]
  show (if _ ≠ _ then _ else _) = _
  rw [if_neg (not_not.mpr rfl)]
  dsimp only
  rw [takeFrame_setMem, memsetZero_read hread (by rw [hread]; exact hround.zero),
    installPage_new hset hnew, hread]

variable (writable) in
/-- With enough memory the loop comes to its end, and then every page of the segment is
mapped, with what was mapped before. -/
theorem loadSegmentLoop_maps (h : Frames k t) (hset : env.setPage = true)
    (hroom : n ≤ k.freePages.length) (hfile : k.files.lookup file = some o)
    (hbytes : k.bytesOf o.inode = bytes)
    (hcover : readBytes.toNat = 0 ∨ pos + readBytes.toNat ≤ bytes.length)
    (hsum : readBytes.toNat + zeroBytes.toNat = pgSize * n)
    (hend : upage.toNat + pgSize * n ≤ 2 ^ 32)
    (hnew : ∀ i < n, k.pteOf t (pageAt upage i) = none) :
    ∃ k', (∀ rounds > n, loadSegmentLoop env t file writable rounds pos upage readBytes zeroBytes k =
        .ok (true, k')) ∧
      (∀ i < n, Maps k' t (pageAt upage i) (segmentPage bytes pos readBytes.toNat i) writable) ∧
      ∀ va page w, Maps k t va page w → Maps k' t va page w := by
  induction n generalizing pos upage readBytes zeroBytes k with
  | zero =>
      refine ⟨k, fun rounds hrounds => ?_, fun i hi => absurd hi (Nat.not_lt_zero i),
        fun _ _ _ hm => hm⟩
      obtain ⟨rounds, rfl⟩ := Nat.exists_eq_succ_of_ne_zero (Nat.ne_of_gt hrounds)
      unfold loadSegmentLoop
      rw [if_neg (not_more hsum)]
  | succ n ih =>
      have hround := round hsum
      have hnew₀ : k.pteOf t upage = none := by
        have hfirst := hnew 0 (Nat.succ_pos n)
        rwa [pageAt_zero] at hfirst
      have hne : k.freePages ≠ [] := by
        rintro hnil
        rw [hnil] at hroom
        exact Nat.not_succ_le_zero n hroom
      obtain ⟨f, hf, hstep⟩ := loadSegmentLoop_succ writable hset hne hfile hbytes
        hcover hnew₀ hround
      set k₁ := addPage k t upage f (segmentPage bytes pos readBytes.toNat 0) writable with hk₁
      have hroom₁ : n ≤ k₁.freePages.length := by
        show n ≤ (k.freePages.erase f).length
        rw [List.length_erase_of_mem hf]
        omega
      have hcover₁ : (readBytes - pageReadBytes readBytes).toNat = 0 ∨
          pos + min readBytes.toNat pgSize + (readBytes - pageReadBytes readBytes).toNat ≤
            bytes.length := by
        rw [hround.restRead]
        omega
      have hnew₁ : ∀ i < n, k₁.pteOf t (pageAt (upage + 4096) i) = none := by
        intro i hi
        rw [hk₁, pteOf_addPage, pageAt_succ, if_neg (pageAt_succ_ne hend hi)]
        exact hnew (i + 1) (Nat.succ_lt_succ hi)
      obtain ⟨k', hloop, hmaps, hkeeps⟩ := ih h.addPage hroom₁ hfile hbytes hcover₁ hround.rest
        (next_end hend) hnew₁
      refine ⟨k', ?_, ?_, ?_⟩
      · intro rounds hrounds
        obtain ⟨rounds, rfl⟩ := Nat.exists_eq_succ_of_ne_zero (show rounds ≠ 0 by omega)
        rw [hstep]
        exact hloop rounds (by omega)
      · intro i hi
        cases i with
        | zero =>
            rw [pageAt_zero]
            exact hkeeps _ _ _ maps_addPage_self
        | succ i =>
            have hpage := hmaps i (Nat.lt_of_succ_lt_succ hi)
            rwa [pageAt_succ, hround.restRead, segmentPage_succ] at hpage
      · intro va page w hm
        exact hkeeps va page w (h.maps_addPage hf hnew₀ hm)

/-- The segment of a valid program header is loaded, if the file has its bytes. -/
theorem loadSegment_maps {phdr : Phdr} (h : Frames k t) (hset : env.setPage = true)
    (hroom : (segmentOf phdr).pages ≤ k.freePages.length)
    (hfile : k.files.lookup file = some o) (hbytes : k.bytesOf o.inode = bytes)
    (hvalid : validateSegment phdr bytes.length = true)
    (hcover : phdr.offset.toNat + phdr.filesz.toNat ≤ bytes.length)
    (hnew : ∀ i < (segmentOf phdr).pages, k.pteOf t (pageAt (segmentOf phdr).upage i) = none) :
    ∃ k', (∀ rounds > (segmentOf phdr).pages,
        loadSegment env rounds k t file (segmentOf phdr) = .ok (true, k')) ∧
      ∀ i < (segmentOf phdr).pages, Maps k' t (pageAt (segmentOf phdr).upage i)
        ((segmentOf phdr).page bytes i) (segmentOf phdr).writable := by
  obtain ⟨hsum, hupage, hofs⟩ := segmentOf_asserts hvalid
  obtain ⟨k', hloop, hmaps, -⟩ := loadSegmentLoop_maps (segmentOf phdr).writable h hset
    hroom hfile hbytes (segmentOf_covered hvalid hcover) (segmentOf_sum hvalid)
    (segmentOf_end hvalid) hnew
  refine ⟨k', fun rounds hrounds => ?_, hmaps⟩
  unfold loadSegment
  rw [if_neg (not_not.mpr hsum), if_neg (not_not.mpr hupage), if_neg (not_not.mpr hofs)]
  exact hloop rounds hrounds

end Pintos.Project2
