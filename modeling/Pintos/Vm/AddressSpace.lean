import Pintos.Vm.Executable
import Pintos.Vm.Pins

/-! # The address space of a process

Every page that has an entry lies between the first page of the address space
and `PHYS_BASE`. The program headers are checked by `validate_segment`, the
stack grows within its maximal size, and `mmap` is stopped by the first page of
the stack, which has an entry already: a mapping that reaches beyond it fails
before it gets there.
-/

namespace Pintos.Vm

variable {k k' : Kernel} {t u : Tid} {p q : Ptr} {f : FilePtr} {e x : Spte}
  {a : Act} {as : List Act} {env : Env}
  {R : Scope} {m : Machine} {va addr : Vaddr}

/-- A page that a process may use: page-aligned, not the first one, and below
`PHYS_BASE`. -/
structure UserPage (va : Vaddr) : Prop where
  aligned : va.toNat % 4096 = 0
  lower : 4096 ≤ va.toNat
  upper : va.toNat + 4096 ≤ physBase.toNat

/-- Every entry is for such a page. -/
def Contained (k : Kernel) : Prop := ∀ t p e, Entry k t p e → UserPage e.unusedVirtualAddress

/-! ## What enters the tables -/

/-- An entry comes from the same pointer, which kept its address. -/
theorem entry_from_update {y y' : Spte} (hx : Entry k' u q x) (hy : k.sptes p = some y)
    (hspt : k'.spt = k.spt) (hsptes : k'.sptes = Function.update k.sptes p (some y'))
    (haddr : y'.unusedVirtualAddress = y.unusedVirtualAddress) :
    ∃ z, Entry k u q z ∧ z.unusedVirtualAddress = x.unusedVirtualAddress := by
  rcases entry_update hx hspt hsptes with ⟨rfl, hmem, heq⟩ | ⟨-, hold⟩
  · cases heq
    exact ⟨y, ⟨hmem, hy⟩, haddr.symm⟩
  · exact ⟨x, hold, rfl⟩

/-- An entry is an old one, for the same page, or its page is in the scope. -/
theorem Change.entry_from (h : Sound k) (hc : Change R k k') (hx : Entry k' u q x) :
    (∃ y, Entry k u q y ∧ y.unusedVirtualAddress = x.unusedVirtualAddress) ∨
      R.enters u x.unusedVirtualAddress := by
  cases hc with
  | pin pinned hy => exact .inl (entry_from_update hx hy rfl rfl rfl)
  | @cell r o hr =>
      have hne : q ≠ r := hr.ne hx.mem
      exact .inl ⟨x, ⟨hx.mem, (Function.update_of_ne hne ..).symm.trans hx.at_ptr⟩, rfl⟩
  | evict hfte hy hstatus hs =>
      obtain ⟨y, hold, hre⟩ := (h.evict_reshapes hfte hy hs).entry_to hx
      exact .inl ⟨y, hold, hre.address.symm⟩
  | discard hfte hy => exact .inl (entry_from_update hx hy rfl rfl rfl)
  | readIn hy => exact .inl (entry_from_update hx hy.at_ptr rfl rfl rfl)
  | swapIn hy => exact .inl (entry_from_update hx hy.at_ptr rfl rfl rfl)
  | swapInNothing page hy => exact .inl (entry_from_update hx hy.at_ptr rfl rfl rfl)
  -- the three changes that insert an entry: it is the new one, or was there before
  | growStack page hr hy hl hty hf hpte hnew ht hR =>
      rcases (entry_growStack hr).mp hx with hold | ⟨rfl, -, rfl⟩
      · exact .inl ⟨x, hold, rfl⟩
      · exact .inr hR
  | addFile hr hy hl hty hnew ht hexe hsize hR =>
      rcases (entry_insertEntry hy).mp hx with hold | ⟨rfl, -, rfl⟩
      · exact .inl ⟨x, hold, rfl⟩
      · exact .inr hR
  | addMmap hr hy hl hty hnew ht hopen hrole hid hsize hR henter =>
      rcases (entry_addMmap hy).mp hx with hold | ⟨rfl, -, rfl⟩
      · exact .inl ⟨x, hold, rfl⟩
      · exact .inr henter
  -- the two that remove one: what is left was there before
  | removeMapping hmm hy =>
      exact .inl ⟨x, ((h.removes_forgetMapping hmm hy).entry hx).1, rfl⟩
  | destroy hexit hspt hy hl hmm =>
      exact .inl ⟨x, ((h.removes_destroy hspt hmm).entry hx).1, rfl⟩
  | _ => exact .inl ⟨x, ⟨hx.mem, hx.at_ptr⟩, rfl⟩

/-- Changes that only make entries for pages of users keep the address spaces. -/
theorem Changes.contained (h : Sound k) (hk : Contained k) (hR : ∀ u va, R.enters u va → UserPage va)
    (hc : Changes R k k') : Contained k' := by
  have hgen : Sound k' ∧ Contained k' := by
    refine hc.invariant (P := fun x => Sound x ∧ Contained x) ?_ ⟨h, hk⟩
    rintro y z hyz ⟨hy, hcont⟩
    refine ⟨hy.change hyz, ?_⟩
    intro u q x hx
    rcases hyz.entry_from hy hx with ⟨x', hx', haddr⟩ | henter
    · rw [← haddr]
      exact hcont u q x' hx'
    · exact hR u _ henter
  exact hgen.2

/-! ## The first page of the stack -/

/-- Every process in user mode has an entry for the first page of its stack. -/
def HasStack (k : Kernel) : Prop :=
  ∀ t, k.status t = .alive → ∃ p e, Entry k t p e ∧ e.type = .swap ∧
    e.unusedVirtualAddress = physBase - 4096

theorem HasStack.step (hset : Settled k) (h : HasStack k) (hs : Step k a k') : HasStack k' := by
  intro t ht'
  by_cases ht : k.status t = .alive
  · obtain ⟨p, e, he, hty, haddr⟩ := h t ht
    obtain ⟨e', he', hkeeps⟩ := hs.keeps hset he hty ht ht'
    exact ⟨p, e', he', hkeeps.type, hkeeps.address.trans haddr⟩
  · obtain ⟨exe, segments, env, rfl⟩ := loaded_of_alive hset hs ht ht'
    obtain ⟨p, he⟩ := load_entry hset hs
    exact ⟨p, _, he, rfl, rfl⟩

theorem HasStack.hashFind (h : HasStack k) (ht : k.status t = .alive) :
    hashFind k t (physBase - 4096) ≠ none := by
  obtain ⟨p, e, he, -, haddr⟩ := h t ht
  intro hnone
  exact Tables.not_entry_of_hashFind hnone he haddr

/-! ## The pages that a step makes entries for -/

/-- A page the stack grows by. -/
theorem userPage_of_stack (huser : isUserVaddr va) (hsize : StackPage (pgRoundDown va)) :
    UserPage (pgRoundDown va) := by
  have hlt : va.toNat < physBase.toNat := UInt32.lt_iff_toNat_lt.mp huser
  have hround : (pgRoundDown va).toNat = va.toNat - va.toNat % 4096 := pgRoundDown_toNat
  have hbase : physBase.toNat = 0xc0000000 := rfl
  have hmax : maxStackSize.toNat = 0x800000 := rfl
  have hle : pgRoundDown va ≤ physBase := by
    rw [UInt32.le_iff_toNat_le]
    omega
  unfold StackPage at hsize
  rw [gt_iff_lt, UInt32.lt_iff_toNat_lt, UInt32.toNat_sub_of_le _ _ hle] at hsize
  constructor
  · omega
  · omega
  · omega

/-- The page of a mapping that is added with all pages before it: the stack would be
among them if it was not below it. -/
theorem userPage_of_mapping {i : ℕ} (hmap : Mappable addr)
    (hstack : hashFind k t (physBase - 4096) ≠ none)
    (hfree : ∀ j ≤ i, hashFind k t (pageAt addr j) = none) :
    4096 ≤ addr.toNat + 4096 * i ∧ addr.toNat + 4096 * i + 4096 ≤ physBase.toNat := by
  have huser : addr.toNat < physBase.toNat := UInt32.lt_iff_toNat_lt.mp hmap.user
  have hbottom : userVaddrBottom.toNat ≤ addr.toNat := UInt32.le_iff_toNat_le.mp hmap.bottom
  have haligned : addr.toNat % 4096 = 0 := toNat_aligned hmap.aligned
  have hbase : physBase.toNat = 0xc0000000 := rfl
  have hlow : userVaddrBottom.toNat = 0x08048000 := rfl
  by_contra hout
  -- the page in front of `PHYS_BASE` comes first
  obtain ⟨j, hj⟩ : ∃ j, addr.toNat + 4096 * j + 4096 = physBase.toNat := by
    refine ⟨(physBase.toNat - addr.toNat) / 4096 - 1, ?_⟩
    omega
  apply hstack
  have hpage : pageAt addr j = physBase - 4096 := by
    refine UInt32.toNat_inj.mp ?_
    rw [pageAt_toNat (by omega)]
    show _ = 0xbffff000
    omega
  rw [← hpage]
  exact hfree j (by omega)

/-- The executable that a process is started with has been checked by `load`. -/
def LoadsExecutable (k : Kernel) (a : Act) : Prop :=
  ∀ t exe segments env, a = .load t exe segments env →
    ∃ phdrs, segmentsOf (k.bytesOf exe).length phdrs = some segments

/-- A step in which only such executables are loaded. -/
def LoadStep (k : Kernel) (a : Act) (k' : Kernel) : Prop := Step k a k' ∧ LoadsExecutable k a

/-- What a step makes entries for are pages of users. -/
theorem userPage_of_enters (hstack : HasStack k) (hs : LoadStep k a k') (hva : a.Enters k va) :
    UserPage va := by
  cases a with
  | load t exe segments env =>
      rcases hva with rfl | ⟨s, hmem, i, hi, rfl⟩
      · exact ⟨by decide, by decide, by decide⟩
      · obtain ⟨phdrs, hphdrs⟩ := hs.2 t exe segments env rfl
        obtain ⟨phdr, -, hvalid, rfl⟩ := segmentsOf_some hphdrs s hmem
        obtain ⟨haligned, hlower, hupper⟩ := segmentOf_pages hvalid
        have hbase : physBase.toNat = 0xc0000000 := rfl
        have hnat : (pageAt (segmentOf phdr).upage i).toNat =
            (segmentOf phdr).upage.toNat + 4096 * i := pageAt_toNat (by omega)
        constructor
        · rw [hnat]
          omega
        · omega
        · omega
  | pageFault t faultAddr esp env =>
      obtain ⟨huser, rfl, hsize⟩ := hva
      exact userPage_of_stack huser hsize
  | checkValidPtr t ptr esp env =>
      obtain ⟨huser, rfl, hsize⟩ := hva
      exact userPage_of_stack huser hsize
  | mmap t fd addr env =>
      obtain ⟨hmap, i, rfl, hfree⟩ := hva
      obtain ⟨hlower, hupper⟩ := userPage_of_mapping hmap (hstack.hashFind hs.1.1) hfree
      have hbase : physBase.toNat = 0xc0000000 := rfl
      have haligned : addr.toNat % 4096 = 0 := toNat_aligned hmap.aligned
      have hnat : (pageAt addr i).toNat = addr.toNat + 4096 * i := pageAt_toNat (by omega)
      constructor
      · rw [hnat]
        omega
      · omega
      · omega
  | _ => exact hva.elim

theorem Contained.step (hset : Settled k) (hstack : HasStack k) (h : Contained k)
    (hs : LoadStep k a k') : Contained k' := by
  have hR : ∀ u va, (a.scope k).enters u va → UserPage va :=
    fun u va hva => userPage_of_enters hstack hs hva.2
  have heff := step_effect hset.sound hset.noneExiting hs.1
  cases heff with
  | changes ha hc => exact hc.contained hset.sound h hR
  | killed ha ht hc =>
      have hk₁ := hc.contained hset.sound h hR
      exact fun t p e he => hk₁ t p e ⟨he.mem, he.at_ptr⟩
  | store hst =>
      obtain ⟨pte, -, -, rfl⟩ := userStore_ok hst
      exact fun t p e he => h t p e ⟨he.mem, he.at_ptr⟩
  | write hf ho =>
      unfold inodeWriteAt
      split
      next => exact h
      next => exact fun t p e he => h t p e ⟨he.mem, he.at_ptr⟩
  | @start t exe segments env file k' ht hfile hc =>
      have hstart : Contained (startProcess k t file exe) :=
        fun u p e he => h u p e ⟨he.mem, he.at_ptr⟩
      exact hc.contained (hset.sound.start ht hfile) hstart hR
  | @leave t k₁ ht hc =>
      have hexiting : Contained (k.setStatus t .exiting) :=
        fun u p e he => h u p e ⟨he.mem, he.at_ptr⟩
      have hk₁ := hc.contained (hset.sound.setStatus (.inr ht) (by decide)) hexiting hR
      exact fun u p e he => hk₁ u p e ⟨he.mem, he.at_ptr⟩

/-! ## `mmap` returns -/

theorem lookup_of_mem (h : f ∈ k.files) : ∃ o, k.files.lookup f = some o :=
  Option.isSome_iff_exists.mp (AList.lookup_isSome.mpr h)

theorem freeFrame_fields {o : Option Frame} :
    (freeFrame k o).sptes = k.sptes ∧ (freeFrame k o).files = k.files := by
  unfold freeFrame
  split
  next => exact ⟨rfl, rfl⟩
  next => exact ⟨rfl, rfl⟩

theorem inodeWriteAt_fields {i : Inode} {data : ℕ → UInt8} {size ofs : ℕ} :
    (inodeWriteAt k i data size ofs).sptes = k.sptes ∧
      (inodeWriteAt k i data size ofs).files = k.files := by
  unfold inodeWriteAt
  split
  next => exact ⟨rfl, rfl⟩
  next => exact ⟨rfl, rfl⟩

theorem unloadMmap_returns (hfile : e.file ∈ k.files) :
    ∃ k', unloadMmap k t e = .ok k' ∧ k'.sptes = k.sptes ∧ k'.files = k.files := by
  obtain ⟨o, ho⟩ := lookup_of_mem hfile
  unfold unloadMmap
  dsimp only
  split
  next => exact ⟨_, rfl, freeFrame_fields⟩
  next pte hpte =>
    by_cases hdirty : pte.dirty = true
    · -- writing the page back touches the bytes of the file only
      have hwrite : fileWriteAt k e.file (pageByte (k.mem pte.frame)) e.readBytes.toNat
          e.offset.toNat = .ok (inodeWriteAt k o.inode (pageByte (k.mem pte.frame))
            e.readBytes.toNat e.offset.toNat) := by
        unfold fileWriteAt
        rw [ho]
        rfl
      rw [if_pos hdirty]
      refine ⟨_, Lts.bind_eq_ok.mpr ⟨_, hwrite, rfl⟩, ?_, ?_⟩
      · exact freeFrame_fields.1.trans inodeWriteAt_fields.1
      · exact freeFrame_fields.2.trans inodeWriteAt_fields.2
    · rw [if_neg hdirty]
      exact ⟨_, rfl, freeFrame_fields⟩

/-- Where the loop of `process_remove_mmap` is: before the mapping it removes, or in it
with an open file that is to be closed. -/
def Pending (k : Kernel) (mapping close : ℤ) (o : Option FilePtr) : Prop :=
  o = none ∧ close ≠ mapping ∨ ∃ f ∈ k.files, o = some f ∧ close = mapping

theorem closePending_returns {mapping close : ℤ} {o : Option FilePtr}
    (h : Pending k mapping close o) : ∃ k', closePending k o = .ok k' := by
  rcases h with ⟨rfl, -⟩ | ⟨f, hf, rfl, -⟩
  · exact ⟨k, rfl⟩
  · obtain ⟨x, hx⟩ := lookup_of_mem hf
    refine ⟨{ k with files := k.files.erase f }, ?_⟩
    unfold closePending fileClose
    dsimp only
    rw [hx]
    rfl

theorem removeMmapLoop_returns {mapping close : ℤ} {rest : List MmapFile} {o : Option FilePtr}
    (hmapping : mapping ≠ closeAll) (hnodup : (rest.map (·.spte)).Nodup)
    (hentries : ∀ mm ∈ rest, mm.mapid = mapping → ∃ e, k.sptes mm.spte = some e ∧ e.file ∈ k.files)
    (ho : Pending k mapping close o) : ∃ k', removeMmapLoop t mapping rest o close k = .ok k' := by
  induction rest generalizing k o close with
  | nil => exact closePending_returns ho
  | cons mm rest ih =>
      rw [List.map_cons, List.nodup_cons] at hnodup
      by_cases hid : mm.mapid = mapping
      · obtain ⟨e, he, hfile⟩ := hentries mm List.mem_cons_self hid
        -- the page is unloaded, which leaves the other entries and the files as they are
        have hunloaded : ∃ k₂, (if e.isLoaded = true then
              unloadMmap (k.setSpte mm.spte (some { e with pinned := true })) t e
            else pure (k.setSpte mm.spte (some { e with pinned := true }))) = .ok k₂ ∧
            k₂.files = k.files ∧ ∀ q, q ≠ mm.spte → k₂.sptes q = k.sptes q := by
          have hpinned : ∀ q, q ≠ mm.spte →
              (k.setSpte mm.spte (some { e with pinned := true })).sptes q = k.sptes q :=
            fun q hq => Function.update_of_ne hq ..
          by_cases hl : e.isLoaded = true
          · rw [if_pos hl]
            obtain ⟨k₂, hk₂, hsptes, hfiles⟩ := unloadMmap_returns
              (k := k.setSpte mm.spte (some { e with pinned := true })) (t := t) hfile
            refine ⟨k₂, hk₂, hfiles, ?_⟩
            intro q hq
            rw [hsptes]
            exact hpinned q hq
          · rw [if_neg hl]
            exact ⟨_, rfl, rfl, hpinned⟩
        obtain ⟨k₂, hun, hfiles, hsptes⟩ := hunloaded
        have hforget : (forgetMapping k₂ t mm e).files = k.files ∧
            ∀ q, q ≠ mm.spte → (forgetMapping k₂ t mm e).sptes q = k.sptes q := by
          obtain ⟨spt, hforget, -⟩ := forgetMapping_eq k₂ t mm e
          rw [hforget]
          refine ⟨hfiles, ?_⟩
          intro q hq
          exact (Function.update_of_ne hq ..).trans (hsptes q hq)
        have hentries' : ∀ mm' ∈ rest, mm'.mapid = mapping →
            ∃ x, (forgetMapping k₂ t mm e).sptes mm'.spte = some x ∧
              x.file ∈ (forgetMapping k₂ t mm e).files := by
          intro mm' hmm' hid'
          obtain ⟨x, hx, hxfile⟩ := hentries mm' (List.mem_cons_of_mem mm hmm') hid'
          have hne : mm'.spte ≠ mm.spte := by
            intro heq
            exact hnodup.1 (heq ▸ List.mem_map_of_mem hmm')
          exact ⟨x, (hforget.2 _ hne).trans hx, hforget.1 ▸ hxfile⟩
        rw [removeMmapLoop_removes (.inl hid), he]
        refine Lts.bind_succeeds rfl (Lts.bind_succeeds hun ?_)
        rcases ho with ⟨rfl, hclose⟩ | ⟨f, hf, rfl, hclose⟩
        · -- the first page of the mapping
          rw [if_pos (by rw [hid]; exact hclose.symm)]
          refine Lts.bind_succeeds rfl ?_
          exact ih hnodup.2 hentries' (.inr ⟨e.file, hforget.1 ▸ hfile, rfl, hid⟩)
        · rw [if_neg (by rw [hid, hclose]; exact not_not.mpr rfl)]
          exact ih hnodup.2 hentries' (.inr ⟨f, hforget.1 ▸ hf, rfl, hclose⟩)
      · rw [removeMmapLoop_skip (not_or.mpr ⟨hid, hmapping⟩)]
        exact ih hnodup.2 (fun mm' hmm' => hentries mm' (List.mem_cons_of_mem mm hmm')) ho

theorem munmap_returns {mapping : ℤ} (h : Sound k) (hl : k.listed = true) (hpos : 1 ≤ mapping) :
    ∃ k', munmap k t mapping = .ok k' := by
  have hclose : closeAll = -1 := rfl
  suffices hloop : ∃ k', removeMmapLoop t mapping (k.mmapList t) none 0 k = .ok k' from
    hloop.imp fun _ hk' => processRemoveMmap_ok.mpr ⟨hl, hk'⟩
  refine removeMmapLoop_returns (by omega) (h.mappings.nodup t) (fun mm hmm hid => ?_)
    (.inl ⟨rfl, by omega⟩)
  obtain ⟨e, he, -⟩ := h.mappings.entry t mm hmm
  exact ⟨e, he, h.handles.opened e.file (.mapping t mm.mapid) ⟨mm, hmm, rfl, e, he, rfl⟩⟩

/-- `mmap` of an open file returns. -/
theorem mmap_returns_of_open (env : Env) (addr : Vaddr) {fd : ℤ} {oldFile : FilePtr}
    (h : Sound k) (ht : k.status t = .alive)
    (hget : processGetFile k t fd = .ok (some oldFile)) :
    ∃ r, mmap env k t fd addr = .ok r := by
  have hopen : oldFile ∈ k.files := by
    obtain ⟨pf, hpf, rfl⟩ := Option.map_eq_some_iff.mp (processGetFile_ok.mp hget).2
    exact h.handles.opened pf.file (.descriptor t pf.fd) (List.mem_of_find?_eq_some hpf)
  obtain ⟨o, ho⟩ := lookup_of_mem hopen
  unfold mmap
  refine Lts.bind_succeeds hget ?_
  dsimp only
  split
  next => exact ⟨_, rfl⟩
  next =>
    refine Lts.bind_succeeds (b := o) (by rw [ho]; rfl) ?_
    split
    next => exact ⟨_, rfl⟩
    next file k₁ hfile =>
      obtain ⟨hnew, rfl⟩ := fileOpen_some hfile
      have hne : oldFile ≠ file := by
        rintro rfl
        exact hnew hopen
      have hlength : fileLength { k with files := k.files.insert file ⟨o.inode, false⟩ } oldFile =
          .ok (k.bytesOf o.inode).length := by
        unfold fileLength
        rw [AList.lookup_insert_ne hne, ho]
        rfl
      refine Lts.bind_succeeds hlength ?_
      split
      next => exact ⟨_, rfl⟩
      next =>
        have hread : fileLength (beginMapping k t file o.inode) file =
            .ok (k.bytesOf o.inode).length := by
          unfold fileLength beginMapping
          rw [AList.lookup_insert]
          rfl
        refine Lts.bind_succeeds hread ?_
        have h₂ : Sound (beginMapping k t file o.inode) :=
          h.changes (beginMapping_changes (R := .none) hnew)
        have hpos : 1 ≤ (beginMapping k t file o.inode).mapid t := by
          have hnonneg := h.mappings.mapidNonneg t
          rw [beginMapping_mapid]
          omega
        split
        next => exact ⟨_, rfl⟩
        next k₃ hloop =>
          -- the pages that were added are removed again
          have hloopc := mmapLoop_changes (R := ⟨fun _ _ => True, fun _ _ => True,
            fun _ _ => True, fun _ => True⟩) h₂ ht ((AList.mem_insert _).mpr (.inl rfl))
            (fun _ hr => absurd hr (not_holds_beginMapping h hnew)) hpos trivial
            (fun _ _ => trivial) hloop
          have hmapid := mmapLoop_mapid hloop
          obtain ⟨k₄, hk₄⟩ := munmap_returns (t := t) (h₂.changes hloopc)
            (hloopc.listed.trans (processGetFile_ok.mp hget).1) (hmapid ▸ hpos)
          exact Lts.bind_succeeds hk₄ ⟨_, rfl⟩

/-- `mmap` returns, unless it follows the null link of a `file_list` that is not a list. -/
theorem mmap_returns (env : Env) (fd : ℤ) (addr : Vaddr) (h : Sound k)
    (ht : k.status t = .alive) :
    ∃ r, mmap env k t fd addr = if k.listed then .ok r else .error kernelBug := by
  by_cases hl : k.listed = true
  · simp only [if_pos hl]
    cases hfound : (k.fileList t).find? (fun pf => pf.fd = fd) with
    | none =>
        unfold mmap
        exact Lts.bind_succeeds (processGetFile_ok.mpr ⟨hl, by rw [hfound]⟩) ⟨_, rfl⟩
    | some pf =>
        exact mmap_returns_of_open env addr h ht
          (processGetFile_ok.mpr ⟨hl, by rw [hfound]; rfl⟩)
  · refine ⟨(error, k), ?_⟩
    rw [if_neg hl]
    unfold mmap processGetFile
    rw [if_neg hl]
    rfl

/-- The pages of a mapping of so many bytes at an address are pages of users. -/
def RangeFits (addr : Vaddr) (length : ℕ) : Prop :=
  ∀ i, 4096 * i < length →
    4096 ≤ addr.toNat + 4096 * i ∧ addr.toNat + 4096 * i + 4096 ≤ physBase.toNat

theorem hashFind_of_malloc {o : Option Spte} (hp : k.sptes p = none)
    (h : hashFind (k.setSpte p o) t va = none) : hashFind k t va = none := by
  refine List.find?_eq_none.mpr fun q hq => ?_
  have hno := List.find?_eq_none.mp h q hq
  by_cases hqp : q = p
  · subst hqp
    unfold addressOf
    rw [hp]
    simp
  · unfold addressOf at hno ⊢
    rwa [show (k.setSpte p o).sptes q = k.sptes q from Function.update_of_ne hqp ..] at hno

/-- If the loop of `mmap` adds all pages, none of them had an entry. -/
theorem mmapLoop_free {file : FilePtr} {n rounds : ℕ} {ofs readBytes : UInt32}
    (hrounds : readBytes.toNat ≤ rounds)
    (hloop : mmapLoop env t file n rounds ofs addr readBytes k = (true, k')) :
    ∀ i, 4096 * i < readBytes.toNat → hashFind k t (pageAt addr i) = none := by
  induction rounds generalizing n ofs addr readBytes k with
  | zero =>
      intro i hi
      omega
  | succ rounds ih =>
      intro i hi
      have hmore : readBytes > 0 := by
        rw [gt_iff_lt, UInt32.lt_iff_toNat_lt]
        show 0 < _
        omega
      unfold mmapLoop at hloop
      rw [if_pos hmore] at hloop
      dsimp only at hloop
      split at hloop
      next => cases hloop
      next k₁ hadd =>
        obtain ⟨p, hp, hfind, rfl⟩ := addMmapPageTbl_true hadd
        have h4096 : (4096 : UInt32).toNat = 4096 := rfl
        have hfirst : hashFind k t addr = none := hashFind_of_malloc hp hfind
        cases i with
        | zero => rwa [pageAt_zero]
        | succ i =>
            -- this page is not the last one
            have hfull : ¬ readBytes < 4096 := by
              rw [UInt32.lt_iff_toNat_lt]
              omega
            rw [if_neg hfull] at hloop
            have hle : (4096 : UInt32) ≤ readBytes := UInt32.not_lt.mp hfull
            have hsub : (readBytes - 4096).toNat = readBytes.toNat - 4096 := by
              rw [UInt32.toNat_sub_of_le _ _ hle]
              rfl
            have hnext := ih (by omega) hloop i (by omega)
            rw [pageAt_succ] at hnext
            have hmid := hashFind_insertEntry hnext
            exact hashFind_of_malloc hp hmid

/-- A mapping that does not fit is refused. -/
theorem mmap_outside {fd : ℤ} {o : OpenFile} (hset : Settled k) (hstack : HasStack k)
    (ht : k.status t = .alive) (hget : processGetFile k t fd = .ok (some f))
    (ho : k.files.lookup f = some o) (hout : ¬ RangeFits addr (k.bytesOf o.inode).length) :
    ∃ k', mmap env k t fd addr = .ok (error, k') := by
  obtain ⟨⟨id, k'⟩, hmmap⟩ := mmap_returns_of_open env addr hset.sound ht hget
  suffices hid : id = error from ⟨k', hid ▸ hmmap⟩
  rcases mmap_cases hmmap with ⟨hid, -⟩ | ⟨oldFile, o', file, hget', hmap, ho', -, hcases⟩
  · exact hid
  · obtain rfl : f = oldFile := Option.some.inj (Except.ok.inj (hget.symm.trans hget'))
    obtain rfl : o = o' := Option.some.inj (ho.symm.trans ho')
    rcases hcases with ⟨hid, -⟩ | ⟨-, b, k₃, hloop, ⟨rfl, -, -⟩ | ⟨-, hid, -⟩⟩
    · exact hid
    · refine absurd (fun i hi => ?_) hout
      have hlength : (UInt32.ofNat (k.bytesOf o.inode).length).toNat =
          (k.bytesOf o.inode).length := by
        refine UInt32.toNat_ofNat_of_lt' ?_
        show _ < 2 ^ 32
        unfold Kernel.bytesOf
        cases k.inodes o.inode with
        | none => decide
        | some d =>
            have hlt := d.length_lt
            show d.bytes.length < 2 ^ 32
            omega
      have hfree := mmapLoop_free (by omega) hloop
      rw [hlength] at hfree
      exact userPage_of_mapping hmap (hstack.hashFind ht) fun j hj => hfree j (by omega)
    · exact hid

/-! ## The result -/

theorem contained_of_run (h : Lts.Run LoadStep m.boot as k) :
    Settled k ∧ HasStack k ∧ Contained k := by
  refine h.invariant (P := fun x => Settled x ∧ HasStack x ∧ Contained x) ?_
    ⟨settled_boot m, fun t ht => ?_, fun t p e he => ?_⟩
  · rintro x a y hs ⟨hset, hstack, hcont⟩
    exact ⟨hset.step hs.1, hstack.step hset hs.1, hcont.step hset hstack hs⟩
  · cases ht
  · exact absurd he.mem List.not_mem_nil

/-- Whatever executables are loaded and whatever processes do, every entry of a
supplemental page table is for a page between the first one and `PHYS_BASE`, and
`mmap` returns `ERROR` for a mapping that would leave that range; in a kernel in which
`file_list` is not a list it does not return. -/
theorem address_space_contained (h : Lts.Run LoadStep m.boot as k) :
    (∀ t p e, Entry k t p e → UserPage e.unusedVirtualAddress) ∧
      ∀ t fd addr env, k.status t = .alive →
        (∀ f o, processGetFile k t fd = .ok (some f) → k.files.lookup f = some o →
          ¬ RangeFits addr (k.bytesOf o.inode).length) →
        ∃ k', mmap env k t fd addr =
          if k.listed then .ok (error, k') else .error kernelBug := by
  obtain ⟨hset, hstack, hcont⟩ := contained_of_run h
  refine ⟨hcont, ?_⟩
  intro t fd addr env ht hout
  obtain ⟨⟨id, k'⟩, hmmap⟩ := mmap_returns env fd addr hset.sound ht
  by_cases hl : k.listed = true
  · simp only [if_pos hl] at hmmap ⊢
    rcases mmap_cases hmmap with ⟨rfl, -⟩ | ⟨f, o, file, hget, -, ho, -, -⟩
    · exact ⟨k', hmmap⟩
    · exact mmap_outside hset hstack ht hget ho (hout f o hget ho)
  · simp only [if_neg hl] at hmmap ⊢
    exact ⟨k', hmmap⟩

/-! ## A run -/

/-- An executable, and a file that takes two pages. -/
def twoPages : Machine :=
  { twoFrames with
    inodes := fun i =>
      if i = 1 then some ⟨[7, 8, 9], length_threeBytes⟩
      else if i = 2 then some ⟨List.replicate 4097 0, by rw [List.length_replicate]; omega⟩
      else none }

/-- The program header of the executable. -/
def dataHeader : Phdr where
  type := ptLoad
  offset := 0
  vaddr := 0x08049000
  filesz := 3
  memsz := 8000
  flags := pfW

/-- A process is started and maps the file. -/
def mappingRun : List Act :=
  [.load 1 1 [segmentOf dataHeader] (generous 100),
   .openFile 1 2 (generous 200),
   .mmap 1 2 0x10000000 (generous 300)]

theorem mappingRun_loads (h : runActs twoPages.boot mappingRun = .ok k) :
    Lts.Run LoadStep twoPages.boot mappingRun k := by
  obtain _ | ⟨hload, hrest⟩ := run_of_runActs h
  refine .cons ⟨hload, fun t exe segments env ha => ⟨[dataHeader], ?_⟩⟩ ?_
  · cases ha
    decide +kernel
  · refine hrest.mono_of_mem fun _ a _ hmem hs => ⟨hs, fun t exe segments env ha => ?_⟩
    subst ha
    simp at hmem

/-- The mapping goes in, and a second one that would run through the stack and beyond
`PHYS_BASE` does not. -/
theorem address_space_contained_run : ∃ k, Lts.Run LoadStep twoPages.boot mappingRun k ∧
    k.mapid 1 = 1 ∧ (∀ t p e, Entry k t p e → UserPage e.unusedVirtualAddress) ∧
    ∃ k', mmap (generous 400) k 1 2 0xbffff000 = .ok (error, k') := by
  have hrun : (runActs twoPages.boot mappingRun).toOption.map
      (fun k => decide (k.status 1 = .alive ∧ k.mapid 1 = 1 ∧ processGetFile k 1 2 = .ok (some 200) ∧
        k.files.lookup 200 = some ⟨2, false⟩ ∧ (k.bytesOf 2).length = 4097)) = some true := by
    decide +kernel
  obtain ⟨k, hk, hstate⟩ := Option.map_eq_some_iff.mp hrun
  obtain ⟨halive, hmapid, hget, hfile, hlength⟩ := of_decide_eq_true hstate
  have hsteps := mappingRun_loads (Lts.eq_ok_of_toOption hk)
  obtain ⟨hcontained, hmmap⟩ := address_space_contained hsteps
  have hout : ∀ f o, processGetFile k 1 2 = .ok (some f) → k.files.lookup f = some o →
      ¬ RangeFits 0xbffff000 (k.bytesOf o.inode).length := by
    intro f o hf ho hfits
    rw [hget] at hf
    obtain rfl := Option.some.inj (Except.ok.inj hf)
    rw [hfile] at ho
    obtain rfl := Option.some.inj ho
    -- the second page starts at `PHYS_BASE`
    obtain ⟨-, hupper⟩ := hfits 1 (by rw [hlength]; omega)
    exact absurd hupper (by decide)
  obtain ⟨k', hk'⟩ := hmmap 1 2 0xbffff000 (generous 400) halive hout
  rw [if_pos (processGetFile_ok.mp hget).1] at hk'
  exact ⟨k, hsteps, hmapid, hcontained, k', hk'⟩

end Pintos.Vm
