import Pintos.Project2.LoadSegment
import Pintos.Vm.FreshPages

/-! # Lazy loading

`load_segment` of Project 3 only makes an entry for each page, with the part of the
file that the page is to be read from; `load_file` reads it when the page is used.
The process then finds what Project 2 would have read when it loaded the executable.
-/

namespace Pintos.Vm

/-- `malloc` has room for `m` entries, from the `n`-th allocation of the operation on. -/
structure HasRoom (env : Env) (n m : ℕ) (k : Kernel) : Prop where
  fresh : ∀ i < m, ∃ p, env.malloc (n + i) = some p ∧ k.sptes p = none
  apart : ∀ i < m, ∀ j < m, env.malloc (n + i) = env.malloc (n + j) → i = j

/-- The entry for a page that is to be read from a file with these bytes. -/
structure Spte.Reads (e : Spte) (file : FilePtr) (bytes : List UInt8) (va : Vaddr) (page : Page)
    (writable : Bool) : Prop where
  address : e.unusedVirtualAddress = va
  type : e.type = .file
  notLoaded : e.isLoaded = false
  file : e.file = file
  writable : e.writable = writable
  covered : e.readBytes.toNat = 0 ∨ e.offset.toNat + e.readBytes.toNat ≤ bytes.length
  page : segmentPage bytes e.offset.toNat e.readBytes.toNat 0 = page

/-- When the page at `p` is loaded there is memory for it, and the file still has these
bytes. -/
structure CanLoad (env : Env) (k : Kernel) (t : Tid) (p : Ptr) (e : Spte) (bytes : List UInt8) :
    Prop where
  setPage : env.setPage = true
  frame : ∃ frame k₁ o, frameAlloc env (e.readBytes.toNat = 0) k t p = .ok (frame, k₁) ∧
    k₁.files.lookup e.file = some o ∧ k₁.bytesOf o.inode = bytes

variable {k k' k₁ k₂ : Kernel} {t u : Tid} {frame : Frame} {p q : Ptr} {e x : Spte} {file : FilePtr} {o : OpenFile}
  {env : Env} {page : Page} {w writable : Bool} {va upage : Vaddr} {bytes : List UInt8}
  {ofs readBytes zeroBytes : UInt32} {n m rounds : ℕ}

/-! ## Entries -/

/-- `add_file_page_tbl` makes an entry for a page that has none, if it gets memory. -/
theorem addFilePageTbl_new (h : Sound k) (hm : env.malloc n = some p) (hp : k.sptes p = none)
    (hnew : hashFind k t upage = none) :
    addFilePageTbl env n k t file ofs upage readBytes zeroBytes writable =
      (true, insertEntry (k.setSpte p (some (fileEntry file ofs upage readBytes zeroBytes writable)))
        t p upage (filePage k (fileEntry file ofs upage readBytes zeroBytes writable))) := by
  have hmalloc : mallocSpte env n k = some p := by
    unfold mallocSpte
    rw [hm]
    exact Option.filter_eq_some_iff.mpr ⟨rfl, decide_eq_true hp⟩
  unfold addFilePageTbl
  rw [hmalloc]
  show hashInsert (k.setSpte p (some (fileEntry ..))) t p upage (filePage k (fileEntry ..)) = _
  unfold hashInsert
  rw [hashFind_setSpte ((h.unused hp).spt t), hnew]
  rfl

/-- The entry that is made is the only new one, and the others stay. -/
theorem entry_insert (hp : Unused k p) :
    Entry (insertEntry (k.setSpte p (some e)) t p upage page) t p e ∧
      ∀ u q x, Entry k u q x → Entry (insertEntry (k.setSpte p (some e)) t p upage page) u q x := by
  refine ⟨⟨mem_insertEntry.mpr (.inr ⟨rfl, rfl⟩), Function.update_self ..⟩, ?_⟩
  intro u q x hx
  have hne : q ≠ p := hp.ne hx.mem
  exact ⟨mem_insertEntry.mpr (.inl hx.mem), (Function.update_of_ne hne ..).trans hx.at_ptr⟩

/-- Pages with other addresses have no entry after it either. -/
theorem hashFind_insert (hp : Unused k p) (hva : e.unusedVirtualAddress ≠ va)
    (hnew : hashFind k t va = none) :
    hashFind (insertEntry (k.setSpte p (some e)) t p upage page) t va = none := by
  refine List.find?_eq_none.mpr fun q hq => ?_
  rcases mem_insertEntry.mp hq with hold | ⟨-, rfl⟩
  · have hne : q ≠ p := hp.ne hold
    have hno := List.find?_eq_none.mp hnew q hold
    unfold addressOf at hno ⊢
    rwa [show (insertEntry (k.setSpte p (some e)) t p upage page).sptes q = k.sptes q from
      Function.update_of_ne hne ..]
  · unfold addressOf
    rw [show (insertEntry (k.setSpte q (some e)) t q upage page).sptes q = some e from
      Function.update_self ..]
    simpa using hva

/-- The entry of a round of `load_segment`. -/
theorem fileEntry_reads (hcover : readBytes.toNat = 0 ∨ ofs.toNat + readBytes.toNat ≤ bytes.length) :
    (fileEntry file ofs upage (pageReadBytes readBytes) zeroBytes w).Reads file bytes upage
      (segmentPage bytes ofs.toNat readBytes.toNat 0) w where
  address := rfl
  type := rfl
  notLoaded := rfl
  file := rfl
  writable := rfl
  covered := by
    show (pageReadBytes readBytes).toNat = 0 ∨ ofs.toNat + (pageReadBytes readBytes).toNat ≤ _
    rw [pageReadBytes_toNat]
    omega
  page := by
    show segmentPage bytes ofs.toNat (pageReadBytes readBytes).toNat 0 = _
    rw [segmentPage_zero, segmentPage_zero, pageReadBytes_toNat, min_assoc, min_self]

theorem HasRoom.next (h : HasRoom env n (m + 1) k) (hm : env.malloc n = some p)
    (hsptes : ∀ q, q ≠ p → k'.sptes q = k.sptes q) : HasRoom env (n + 1) m k' where
  fresh := by
    intro i hi
    obtain ⟨q, hq, hfree⟩ := h.fresh (i + 1) (Nat.succ_lt_succ hi)
    rw [show n + (i + 1) = n + 1 + i by omega] at hq
    refine ⟨q, hq, ?_⟩
    rw [hsptes q]
    · exact hfree
    · -- this address was returned first
      rintro rfl
      have heq : env.malloc (n + 0) = env.malloc (n + (i + 1)) := by
        rw [show n + (i + 1) = n + 1 + i by omega, hq]
        exact hm
      have hzero := h.apart 0 (Nat.succ_pos m) (i + 1) (Nat.succ_lt_succ hi) heq
      exact absurd hzero (Nat.succ_ne_zero i).symm
  apart := by
    intro i hi j hj heq
    have hidx : ∀ l, n + 1 + l = n + (l + 1) := fun l => by omega
    rw [hidx, hidx] at heq
    exact Nat.succ.inj (h.apart (i + 1) (Nat.succ_lt_succ hi) (j + 1) (Nat.succ_lt_succ hj) heq)

/-- Any page may get an entry. -/
def Scope.entering : Scope := { Scope.none with enters := fun _ _ => True }

/-- With enough memory the loop comes to its end, and every page of the segment has an
entry then. -/
theorem loadSegmentLoop_reads (h : Sound k) (ht : k.status t = .alive)
    (hexe : k.executable t = some file) (hroom : HasRoom env n m k)
    (hcover : readBytes.toNat = 0 ∨ ofs.toNat + readBytes.toNat ≤ bytes.length)
    (hbytes : bytes.length < 2 ^ 31)
    (hsum : readBytes.toNat + zeroBytes.toNat = pgSize * m)
    (hend : upage.toNat + pgSize * m ≤ 2 ^ 32)
    (hnew : ∀ i < m, hashFind k t (pageAt upage i) = none) :
    ∃ k', (∀ rounds ≥ m, loadSegmentLoop env t file w n rounds ofs upage readBytes zeroBytes k =
        (true, n + m, k')) ∧
      (∀ i < m, ∃ p e, Entry k' t p e ∧ e.Reads file bytes (pageAt upage i)
        (segmentPage bytes ofs.toNat readBytes.toNat i) w) ∧
      ∀ u q x, Entry k u q x → Entry k' u q x := by
  induction m generalizing n ofs upage readBytes zeroBytes k with
  | zero =>
      refine ⟨k, fun rounds _ => ?_, fun i hi => absurd hi (Nat.not_lt_zero i),
        fun _ _ _ hx => hx⟩
      cases rounds with
      | zero => rfl
      | succ rounds =>
          unfold loadSegmentLoop
          rw [if_neg (not_more hsum)]
          rfl
  | succ m ih =>
      have hround := round hsum
      obtain ⟨p, hm, hp⟩ := hroom.fresh 0 (Nat.succ_pos m)
      have hnew₀ : hashFind k t upage = none := by
        have hfirst := hnew 0 (Nat.succ_pos m)
        rwa [pageAt_zero] at hfirst
      set e := fileEntry file ofs upage (pageReadBytes readBytes)
        (4096 - pageReadBytes readBytes) w with he
      have hadd : addFilePageTbl env n k t file ofs upage (pageReadBytes readBytes)
          (4096 - pageReadBytes readBytes) w = _ := addFilePageTbl_new h hm hp hnew₀
      set k₁ := insertEntry (k.setSpte p (some e)) t p upage (filePage k e) with hk₁
      have hc : Changes .entering k k₁ :=
        addFilePageTbl_changes h ht hexe (pageBytes_add readBytes) trivial hadd
      have hun : Unused k p := h.unused hp
      obtain ⟨hentry, hkeeps₁⟩ : Entry k₁ t p e ∧ ∀ u q x, Entry k u q x → Entry k₁ u q x :=
        entry_insert hun
      have hreads : e.Reads file bytes upage (segmentPage bytes ofs.toNat readBytes.toNat 0) w :=
        fileEntry_reads hcover
      have ht₁ : k₁.status t = .alive := by
        rw [hc.status]
        exact ht
      have hexe₁ : k₁.executable t = some file := by
        rw [hc.executable]
        exact hexe
      have hroom₁ : HasRoom env (n + 1) m k₁ :=
        hroom.next hm fun q hq => Function.update_of_ne hq ..
      have hofs : (ofs + pageReadBytes readBytes).toNat = ofs.toNat + min readBytes.toNat pgSize := by
        have hread : (pageReadBytes readBytes).toNat = min readBytes.toNat pgSize :=
          pageReadBytes_toNat
        have hlt := ofs.toNat_lt
        rw [toNat_add_of_lt (by omega), hread]
      have hcover₁ : (readBytes - pageReadBytes readBytes).toNat = 0 ∨
          (ofs + pageReadBytes readBytes).toNat + (readBytes - pageReadBytes readBytes).toNat ≤
            bytes.length := by
        rw [hround.restRead, hofs]
        omega
      have hnew₁ : ∀ i < m, hashFind k₁ t (pageAt (upage + 4096) i) = none := by
        intro i hi
        rw [pageAt_succ]
        exact hashFind_insert hun (pageAt_succ_ne hend hi).symm (hnew (i + 1) (Nat.succ_lt_succ hi))
      obtain ⟨k', hloop, hpages, hkeeps⟩ := ih (h.changes hc) ht₁ hexe₁ hroom₁ hcover₁ hround.rest
        (next_end hend) hnew₁
      refine ⟨k', ?_, ?_, ?_⟩
      · intro rounds hrounds
        obtain ⟨rounds, rfl⟩ := Nat.exists_eq_succ_of_ne_zero (show rounds ≠ 0 by omega)
        unfold loadSegmentLoop
        rw [if_pos hround.more]
        dsimp only
        rw [hadd, show n + (m + 1) = n + 1 + m by omega]
        exact hloop rounds (by omega)
      · intro i hi
        cases i with
        | zero =>
            rw [pageAt_zero]
            exact ⟨p, e, hkeeps _ _ _ hentry, hreads⟩
        | succ i =>
            obtain ⟨q, x, hx, hxreads⟩ := hpages i (Nat.lt_of_succ_lt_succ hi)
            rw [pageAt_succ, hround.restRead, hofs, segmentPage_succ] at hxreads
            exact ⟨q, x, hx, hxreads⟩
      · intro u q x hx
        exact hkeeps u q x (hkeeps₁ u q x hx)

/-! ## The pages are loaded -/

theorem readPage_covered (hsize : e.readBytes.toNat + e.zeroBytes.toNat = pgSize)
    (hzero : e.readBytes.toNat = 0 → k.mem frame = zeroPage)
    (hfile : k.files.lookup e.file = some o) (hbytes : k.bytesOf o.inode = bytes)
    (hcover : e.readBytes.toNat = 0 ∨ e.offset.toNat + e.readBytes.toNat ≤ bytes.length) :
    readPage k frame e =
      .ok (true, k.setMem frame (segmentPage bytes e.offset.toNat e.readBytes.toNat 0)) := by
  unfold readPage
  by_cases hr : e.readBytes.toNat = 0
  · rw [if_pos hr, hr, segmentPage_zero, Nat.zero_min]
    -- nothing is read, and the frame holds zeros already
    have hmem : k.setMem frame zeroPage = k := by
      unfold Kernel.setMem
      rw [← hzero hr, Function.update_eq_self]
    exact congrArg (fun x => Except.ok (true, x)) hmem.symm
  · rw [if_neg hr]
    have hfill : fileReadAt k e.file (k.mem frame) e.readBytes.toNat e.offset.toNat = _ :=
      fileReadAt_covered hfile hbytes hcover
    rw [hfill]
    show (if e.readBytes.toNat = e.readBytes.toNat then _ else _) = _
    rw [if_pos rfl]
    rw [memsetZero_read (show e.readBytes.toNat = min e.readBytes.toNat pgSize by omega) (by omega)]
    rfl

/-- `load_file` maps the page, with what the entry says. -/
theorem loadFile_maps (h : Sound k) (hx : NoneExiting k) (he : Entry k t p e)
    (hreads : e.Reads file bytes va page w) (hcan : CanLoad env k t p e bytes) :
    ∃ k', loadFile env k t p = .ok (true, k') ∧ Maps k' t va page w := by
  obtain ⟨frame, k₂, o, halloc, hfile, hbytes⟩ := hcan.frame
  obtain ⟨k₁, hev, hfree, rfl⟩ := frameAlloc_ok h hx halloc
  have h₁ : Sound k₁ := h.changes (hev.changes .none)
  have hent : Entry k₁ t p e := hev.entry h he hreads.notLoaded
  set k₂ := holdFrame k₁ t p frame (if decide (e.readBytes.toNat = 0) then zeroPage
    else env.garbage) with hk₂
  have hsize := h₁.handles.sizes t p e hent (.inl hreads.type)
  have hzero : e.readBytes.toNat = 0 → k₂.mem frame = zeroPage := by
    intro hr
    show Function.update k₁.mem frame _ frame = zeroPage
    rw [Function.update_self, if_pos (decide_eq_true hr)]
  have hread := readPage_covered hsize hzero hfile hbytes hreads.covered
  rw [hreads.page] at hread
  let pte : Pte := { frame := frame, writable := e.writable, accessed := false, dirty := false }
  have hinst : installPage env (k₂.setMem frame page) t e.unusedVirtualAddress frame e.writable =
      (true, (k₂.setMem frame page).setPte t e.unusedVirtualAddress pte) := by
    have hget : pagedirGetPage (k₂.setMem frame page) t e.unusedVirtualAddress = none := by
      show (k₁.pteOf t e.unusedVirtualAddress).map _ = none
      rw [h₁.tables.pteOf_none hent hreads.notLoaded]
      rfl
    unfold installPage pagedirSetPage
    rw [if_pos hget, if_pos hcan.setPage]
  refine ⟨((k₂.setMem frame page).setPte t e.unusedVirtualAddress pte).setSpte p
    (some { e with isLoaded := true }), ?_, pte, ?_, ?_, hreads.writable⟩
  · refine Lts.bind_eq_ok.mpr ⟨e, by rw [he.at_ptr]; rfl, ?_⟩
    refine Lts.bind_eq_ok.mpr ⟨(frame, k₂), halloc, ?_⟩
    refine Lts.bind_eq_ok.mpr ⟨e, ?_, ?_⟩
    · show deref (k₁.sptes p) = .ok e
      rw [hent.at_ptr]
      rfl
    · refine Lts.bind_eq_ok.mpr ⟨(true, k₂.setMem frame page), hread, ?_⟩
      dsimp only
      rw [hinst]
      rfl
  · rw [← hreads.address]
    show ((k₂.setMem frame page).setPte t e.unusedVirtualAddress pte).pteOf t _ = _
    rw [pteOf_setPte, if_pos ⟨rfl, rfl⟩]
  · exact Function.update_self ..

theorem Spte.Reads.pinned (h : e.Reads file bytes va page w) (b : Bool) :
    { e with pinned := b }.Reads file bytes va page w where
  address := h.address
  type := h.type
  notLoaded := h.notLoaded
  file := h.file
  writable := h.writable
  covered := h.covered
  page := h.page

/-- `load_page` pins the entry and calls `load_file`. -/
theorem loadPage_maps {b : Bool} (h : Sound k) (hx : NoneExiting k)
    (he : Entry k t p { e with pinned := b }) (hreads : e.Reads file bytes va page w)
    (hcan : CanLoad env (k.setSpte p (some { e with pinned := true })) t p
      { e with pinned := true } bytes) :
    ∃ k', loadPage env k t p = .ok (true, k') ∧ Maps k' t va page w := by
  rw [loadPage_file he.at_ptr hreads.notLoaded (.inl hreads.type)]
  have hpin : Sound (k.setSpte p (some { e with pinned := true })) := h.pin he.at_ptr true
  have hent : Entry (k.setSpte p (some { e with pinned := true })) t p { e with pinned := true } :=
    ⟨he.mem, Function.update_self ..⟩
  exact loadFile_maps hpin hx hent (hreads.pinned true) hcan

/-- A free page is enough. -/
theorem canLoad_of_free (hfree : k.freePages ≠ []) (hset : env.setPage = true)
    (hfte : env.mallocFte = true) (hfile : k.files.lookup e.file = some o) :
    CanLoad env k t p e (k.bytesOf o.inode) := by
  refine ⟨hset, ?_⟩
  obtain ⟨f, -, hget⟩ : ∃ f ∈ k.freePages, pallocGetPage env (e.readBytes.toNat = 0) k = (some f, _) :=
    pallocGetPage_room hfree
  let page := if decide (e.readBytes.toNat = 0) then zeroPage else env.garbage
  have hframe : frameGet env (e.readBytes.toNat = 0) k = .ok (f, takeFrame k f page) := by
    unfold frameGet
    rw [hget]
  refine ⟨f, holdFrame k t p f page, o, ?_, hfile, rfl⟩
  exact Lts.bind_eq_ok.mpr ⟨_, hframe, Lts.bind_eq_ok.mpr ⟨_, if_pos hfte, rfl⟩⟩

/-! ## Both versions -/

/-- Project 2 loads the segment: with enough memory, and if none of its pages is mapped
yet, `load_segment` comes to its end and maps every page. -/
def LoadsEagerly (s : Segment) (bytes : List UInt8) : Prop :=
  ∀ (k : Kernel) (t : Tid) (file : FilePtr) (o : OpenFile) (env : Env), Project2.Frames k t →
    k.files.lookup file = some o → k.bytesOf o.inode = bytes →
    env.setPage = true → s.pages ≤ k.freePages.length →
    (∀ i < s.pages, k.pteOf t (pageAt s.upage i) = none) →
    ∃ k', (∀ rounds > s.pages, Project2.loadSegment env rounds k t file s = .ok (true, k')) ∧
      ∀ i < s.pages, Maps k' t (pageAt s.upage i) (s.page bytes i) s.writable

/-- Project 3 loads the segment: with enough memory, and if none of its pages has an
entry yet, `load_segment` comes to its end, however many rounds are followed, and makes
an entry for every page. When such a page is loaded later it is mapped. -/
def LoadsLazily (s : Segment) (bytes : List UInt8) : Prop :=
  ∀ (k : Kernel) (t : Tid) (file : FilePtr) (env : Env) (n : ℕ), Sound k →
    k.status t = .alive → k.executable t = some file → HasRoom env n s.pages k →
    (∀ i < s.pages, hashFind k t (pageAt s.upage i) = none) →
    ∃ k', loadSegment env n k t file s = .ok (true, n + s.pages, k') ∧
      (∀ rounds ≥ s.pages, loadSegmentLoop env t file s.writable n rounds s.ofs s.upage
        s.readBytes s.zeroBytes k = (true, n + s.pages, k')) ∧
      ∀ i < s.pages, ∃ p e, Entry k' t p e ∧ e.unusedVirtualAddress = pageAt s.upage i ∧
        e.isLoaded = false ∧ e.file = file ∧
        ∀ (k₁ : Kernel) (env₁ : Env) (b : Bool), Sound k₁ → NoneExiting k₁ →
          Entry k₁ t p { e with pinned := b } →
          CanLoad env₁ (k₁.setSpte p (some { e with pinned := true })) t p
            { e with pinned := true } bytes →
          ∃ k₂, loadPage env₁ k₁ t p = .ok (true, k₂) ∧
            Maps k₂ t (pageAt s.upage i) (s.page bytes i) s.writable

/-- Both versions load the segment of a program header that `validate_segment` accepts,
page by page with the same contents: the bytes of the file, and zeros behind them. -/
structure SegmentLoads (phdr : Phdr) (bytes : List UInt8) : Prop where
  asserts : ((segmentOf phdr).readBytes + (segmentOf phdr).zeroBytes) % 4096 = 0 ∧
    pgOfs (segmentOf phdr).upage = 0 ∧ (segmentOf phdr).ofs % 4096 = 0
  eager : LoadsEagerly (segmentOf phdr) bytes
  lazy : LoadsLazily (segmentOf phdr) bytes
  byte : ∀ k < phdr.memsz.toNat, ∃ i < (segmentOf phdr).pages,
    pgRoundDown (phdr.vaddr + UInt32.ofNat k) = pageAt (segmentOf phdr).upage i ∧
    (segmentOf phdr).page bytes i (pgOfs (phdr.vaddr + UInt32.ofNat k)) =
      if k < phdr.filesz.toNat then bytes.getD (phdr.offset.toNat + k) 0 else 0
  apart : ∀ i < (segmentOf phdr).pages, ∀ j < (segmentOf phdr).pages,
    pageAt (segmentOf phdr).upage i = pageAt (segmentOf phdr).upage j → i = j
  aligned : ∀ i < (segmentOf phdr).pages, pgOfs (pageAt (segmentOf phdr).upage i) = 0

theorem lazy_loading_agrees {phdr : Phdr} {d : FileData}
    (hvalid : validateSegment phdr d.bytes.length = true)
    (hcover : phdr.offset.toNat + phdr.filesz.toNat ≤ d.bytes.length) :
    SegmentLoads phdr d.bytes where
  asserts := segmentOf_asserts hvalid
  eager := by
    intro k t file o env hframes hfile hbytes hset hroom hnew
    exact Project2.loadSegment_maps hframes hset hroom hfile hbytes hvalid hcover hnew
  lazy := by
    intro k t file env n h ht hexe hroom hnew
    obtain ⟨k', hloop, hpages, -⟩ := loadSegmentLoop_reads (w := (segmentOf phdr).writable) h ht hexe
      hroom (segmentOf_covered hvalid hcover) d.length_lt (segmentOf_sum hvalid)
      (segmentOf_end hvalid) hnew
    obtain ⟨hsum, hupage, hofs⟩ := segmentOf_asserts hvalid
    refine ⟨k', ?_, hloop, ?_⟩
    · unfold loadSegment
      rw [if_neg (not_not.mpr hsum), if_neg (not_not.mpr hupage), if_neg (not_not.mpr hofs)]
      exact congrArg Except.ok (hloop _ (le_refl _))
    · intro i hi
      obtain ⟨p, e, he, hreads⟩ := hpages i hi
      refine ⟨p, e, he, hreads.address, hreads.notLoaded, hreads.file, ?_⟩
      intro k₁ env₁ b h₁ hx₁ he₁ hcan
      exact loadPage_maps h₁ hx₁ he₁ hreads hcan
  byte := fun k hk => segmentOf_byte hvalid hk
  apart := fun i hi j hj heq => segmentOf_apart hvalid hi hj heq
  aligned := fun i hi => segmentOf_aligned hvalid hi

/-! ## A run -/

/-- A segment of two pages. It begins with the second byte of a file of three bytes. -/
def twoPageSegment : Phdr where
  type := ptLoad
  offset := 1
  vaddr := 0x08048001
  filesz := 2
  memsz := 5000
  flags := pfW

/-- A process that is being loaded. -/
def loading : Kernel := startProcess twoFrames.boot 1 100 1

theorem lazy_loading_agrees_run : SegmentLoads twoPageSegment [7, 8, 9] ∧
    (∃ k', Project2.loadSegment (generous 200) 3 loading 1 100 (segmentOf twoPageSegment) =
        .ok (true, k') ∧
      Maps k' 1 0x08048000 ((segmentOf twoPageSegment).page [7, 8, 9] 0) true) ∧
    ∃ k' p k₂, loadSegment (generous 200) 0 loading 1 100 (segmentOf twoPageSegment) =
        .ok (true, 2, k') ∧
      loadPage (generous 300) k' 1 p = .ok (true, k₂) ∧
      Maps k₂ 1 0x08048000 ((segmentOf twoPageSegment).page [7, 8, 9] 0) true := by
  have h : SegmentLoads twoPageSegment [7, 8, 9] :=
    lazy_loading_agrees (d := ⟨[7, 8, 9], by decide⟩) (by decide) (by decide)
  have hsound : Sound loading := (settled_boot twoFrames).sound.start rfl (by decide)
  have hnopte : ∀ va, loading.pteOf 1 va = none := fun _ => AList.lookup_empty _
  refine ⟨h, ?_, ?_⟩
  · obtain ⟨k', hload, hmaps⟩ := h.eager loading 1 100 ⟨1, true⟩ (generous 200)
      ⟨by decide, fun va pte hpte => by rw [hnopte] at hpte; cases hpte⟩ rfl rfl rfl (by decide)
      fun _ _ => hnopte _
    exact ⟨k', hload 3 (by decide), hmaps 0 (by decide)⟩
  · have hroom : HasRoom (generous 200) 0 (segmentOf twoPageSegment).pages loading :=
      ⟨fun i _ => ⟨200 + (0 + i), rfl, rfl⟩, fun i _ j _ heq => by
        have hnat : 200 + (0 + i) = 200 + (0 + j) := Option.some.inj heq
        omega⟩
    obtain ⟨k', hload, hloop, hpages⟩ := h.lazy loading 1 100 (generous 200) 0 hsound rfl rfl hroom
      fun _ _ => rfl
    obtain ⟨p, e, he, -, -, hfile, hpage⟩ := hpages 0 (by decide)
    have hc : Changes .entering loading k' :=
      loadSegmentLoop_changes hsound rfl rfl (fun _ _ => trivial) (hloop _ (le_refl _))
    have hk' : k' = (loadSegmentLoop (generous 200) 1 100 true 0 2 0 0x08048000 3 8189 loading).2.2 :=
      (congrArg (·.2.2) (hloop 2 (by decide))).symm
    have hx : NoneExiting k' := by
      intro u
      rw [hc.status]
      show Function.update (fun _ => ProcessStatus.absent) 1 ProcessStatus.alive u ≠ _
      rw [Function.update_apply]
      split <;> decide
    have hcan : CanLoad (generous 300) (k'.setSpte p (some { e with pinned := true })) 1 p
        { e with pinned := true } [7, 8, 9] := by
      set k₁ := k'.setSpte p (some { e with pinned := true }) with hk₁
      have hlook : k₁.files.lookup e.file = some ⟨1, true⟩ := by
        rw [hfile, hk₁, hk']
        rfl
      have hbytes : k₁.bytesOf 1 = [7, 8, 9] := by
        rw [hk₁, hk']
        rfl
      have hfree : k₁.freePages ≠ [] := by
        show k'.freePages ≠ []
        rw [hk']
        decide
      rw [← hbytes]
      exact canLoad_of_free (e := { e with pinned := true }) hfree rfl rfl hlook
    obtain ⟨k₂, hloaded, hmaps⟩ := hpage k' (generous 300) e.pinned (hsound.changes hc) hx he hcan
    exact ⟨k', p, k₂, hload, hloaded, hmaps⟩

end Pintos.Vm
