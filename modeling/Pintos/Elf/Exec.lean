import Pintos.Elf.Load
import Pintos.Vm.Faults

/-! # Executing any file

`start_process` loads the executable; if that fails the thread leaves through
`process_exit`. Whatever the file holds, the structures of the virtual memory stay
consistent, as long as its segments leave the first page of the stack alone.
-/

namespace Pintos.Elf

open Tokens Vm

/-- The copy of the command line begins with a token, so that the pointer that
`start_process` frees is that of the page. -/
def Command.Starts (cmd : Command) : Prop :=
  (strtokR 0 Arguments.blank cmd.copy 0).token = some 0

instance (cmd : Command) : Decidable cmd.Starts :=
  inferInstanceAs (Decidable ((strtokR 0 Arguments.blank cmd.copy 0).token = some 0))

/-- `start_process`: it stores through `cp` how the load went, frees the copy of the
command line, and exits if the executable could not be loaded. -/
def start (env : StartEnv) (k : Kernel) (t : Tid) (exe : Inode) (cmd : Command) :
    Except String Kernel := do
  let (r, k) ← load env k t exe cmd
  if env.cp = false then
    .error kernelBug
  else if ¬ cmd.Starts then
    .error "pg_ofs (pages) == 0"
  else
    match r with
    | some _ => return k
    | none => processExit (k.setStatus t .killed) t

/-- No segment of the executable covers the page that `setup_stack` allocates. -/
def SparesStack (bytes : List UInt8) : Prop :=
  ∀ ehdr phdrs, IsExecutable bytes ehdr phdrs →
    ∀ s ∈ segments phdrs, ∀ i < s.pages, pageAt s.upage i ≠ physBase - 4096

variable {k k' k₁ : Kernel} {t : Tid} {file : FilePtr} {o : OpenFile} {ehdr : Elf32Ehdr}
  {phdr : Elf32Phdr} {exe : Inode} {i n m : ℕ} {fileOfs : Int32} {b : Bool}

section Segments

variable {env : Env}

/-! ## Segments that are loaded in part -/

theorem addFilePageTbl_any {upage : Vaddr} {pos readBytes zeroBytes : UInt32} {w : Bool}
    (h : Sound k) (ht : k.status t = .alive) (hexe : k.executable t = some file)
    (hsize : readBytes.toNat + zeroBytes.toNat = pgSize)
    (hadd : addFilePageTbl env n k t file pos upage readBytes zeroBytes w = (b, k')) :
    Changes .entering k k' := by
  cases b with
  | true => exact addFilePageTbl_changes h ht hexe hsize trivial hadd
  | false =>
      unfold addFilePageTbl at hadd
      cases hm : mallocSpte env n k with
      | none =>
          rw [hm] at hadd
          cases hadd
          exact .refl k
      | some p =>
          rw [hm] at hadd
          dsimp only at hadd
          unfold hashInsert at hadd
          split at hadd
          · -- the entry that does not fit into the table stays allocated
            cases hadd
            exact .single (.cell _ (h.unused (mallocSpte_some hm)))
          · cases hadd

theorem loadSegmentLoop_any {upage : Vaddr} {pos readBytes zeroBytes : UInt32} {w : Bool}
    {rounds : ℕ} (h : Sound k) (ht : k.status t = .alive) (hexe : k.executable t = some file)
    (hloop : loadSegmentLoop env t file w n rounds pos upage readBytes zeroBytes k = (b, m, k')) :
    Changes .entering k k' := by
  induction rounds generalizing n pos upage readBytes zeroBytes k with
  | zero =>
      cases hloop
      exact .refl _
  | succ rounds ih =>
      unfold loadSegmentLoop at hloop
      split at hloop
      · dsimp only at hloop
        split at hloop
        next hadd =>
          cases hloop
          exact addFilePageTbl_any h ht hexe (pageBytes_add readBytes) hadd
        next hadd =>
          have hc := addFilePageTbl_any h ht hexe (pageBytes_add readBytes) hadd
          refine hc.trans (ih (h.changes hc) ?_ ?_ hloop)
          · rw [hc.status]
            exact ht
          · rw [hc.executable]
            exact hexe
      · cases hloop
        exact .refl _

theorem loadHeader_any {length : ℕ} (h : Sound k) (ht : k.status t = .alive)
    (hexe : k.executable t = some file)
    (hload : loadHeader env t file length n k phdr = .ok (b, m, k')) : Changes .entering k k' := by
  unfold loadHeader at hload
  split at hload
  · cases hload
    exact .refl _
  · split at hload
    · split at hload
      · unfold loadSegment at hload
        split at hload
        next => cases hload
        next =>
          split at hload
          next => cases hload
          next =>
            split at hload
            next => cases hload
            next => exact loadSegmentLoop_any h ht hexe (Except.ok.inj hload)
      · cases hload
        exact .refl _
    · cases hload
      exact .refl _

theorem loadHeaders_any (h : Sound k) (ht : k.status t = .alive)
    (hexe : k.executable t = some file) (hfile : k.files.lookup file = some o)
    (hloop : loadHeaders env t file i fileOfs n k = .ok (b, m, k')) : Changes .entering k k' := by
  induction i generalizing fileOfs n k with
  | zero =>
      cases hloop
      exact .refl _
  | succ i ih =>
      unfold loadHeaders at hloop
      rw [fileLength_eq hfile] at hloop
      obtain ⟨length, hlength, hloop⟩ := Lts.bind_eq_ok.mp hloop
      split at hloop
      next =>
        cases hloop
        exact .refl _
      next =>
        rw [fileRead_eq hfile] at hloop
        obtain ⟨read, hread, hloop⟩ := Lts.bind_eq_ok.mp hloop
        cases read with
        | none =>
            cases hloop
            exact .refl _
        | some phdr =>
            obtain ⟨⟨b₁, n₁, k₁⟩, hheader, hloop⟩ := Lts.bind_eq_ok.mp hloop
            have hc := loadHeader_any h ht hexe hheader
            cases b₁ with
            | false =>
                cases hloop
                exact hc
            | true =>
                obtain ⟨b₂, n₂, k₂, hok, hsame⟩ := loadHeader_ok env t file length n k phdr
                rw [hheader] at hok
                cases hok
                refine hc.trans (ih (h.changes hc) ?_ ?_ (hsame.lookup hfile) hloop)
                · rw [hc.status]
                  exact ht
                · rw [hc.executable]
                  exact hexe

/-! ## The pages of the segments -/

/-- The pages of an executable, for a process that starts. -/
def segmentScope (t : Tid) (ss : List Segment) : Scope :=
  { Scope.none with enters := fun u va => u = t ∧ ∃ s ∈ ss, ∃ i < s.pages, va = pageAt s.upage i }

/-- A process that starts has entries for the pages of its segments only. -/
theorem entries_of_segments {ss : List Segment} (h : Sound k) (ht : k.status t = .alive)
    (hexe : k.executable t = some file) (hspt : k.spt t = [])
    (hload : loadSegments env t file n ss k = .ok (true, m, k₁)) {p : Ptr} {e : Spte}
    (he : Entry k₁ t p e) : ∃ s ∈ ss, ∃ i < s.pages, e.unusedVirtualAddress = pageAt s.upage i := by
  have hc : Changes (segmentScope t ss) k k₁ := loadSegments_changes h ht hexe
    (fun s hs i hi => ⟨rfl, s, hs, i, hi, rfl⟩) hload
  have hgen : Sound k₁ ∧ ∀ p e, Entry k₁ t p e →
      (segmentScope t ss).enters t e.unusedVirtualAddress := by
    refine hc.invariant (P := fun x => Sound x ∧ ∀ p e, Entry x t p e →
      (segmentScope t ss).enters t e.unusedVirtualAddress) (fun x x' hstep hx => ?_) ⟨h, ?_⟩
    · refine ⟨hx.1.change hstep, fun p e he => ?_⟩
      rcases hstep.entry_from hx.1 he with ⟨y, hy, haddr⟩ | henter
      · exact haddr ▸ hx.2 p y hy
      · exact henter
    · intro p e he
      have hp := he.mem
      rw [hspt] at hp
      exact absurd hp List.not_mem_nil
  exact (hgen.2 p e he).2

/-- The first page of the stack has no entry yet where the segments leave it alone. -/
theorem hashFind_stackPage (h : Sound k) (ht : k.status t = .alive)
    (hexe : k.executable t = some file) (hfile : k.files.lookup file = some o)
    (hspt : k.spt t = []) (hspare : SparesStack (k.bytesOf o.inode))
    (hread : Elf32Ehdr.layout.readAt (k.bytesOf o.inode) 0 = some ehdr) (hacc : ehdr.Accepted)
    (hloop : loadHeaders env t file ehdr.phnum.toNat ehdr.phoff.toInt32 0 k = .ok (true, n, k₁)) :
    hashFind k₁ t (physBase - 4096) = none := by
  have hc := loadHeaders_any h ht hexe hfile hloop
  obtain ⟨phdrs, hexecutable, hsegments⟩ :=
    (loadHeaders_iff_executable hfile hread hacc).mp hloop
  refine List.find?_eq_none.mpr fun p hp => ?_
  obtain ⟨e, he⟩ := (h.changes hc).tables.exists_entry hp
  obtain ⟨s, hs, i, hi, haddr⟩ := entries_of_segments h ht hexe hspt hsegments he
  have hne := hspare ehdr phdrs hexecutable s hs i hi
  unfold addressOf
  rw [he.at_ptr]
  simpa [haddr] using hne

theorem loadHeader_adds {length : ℕ} (hload : loadHeader env t file length n k phdr =
    .ok (b, m, k')) : AddsEntries k k' := by
  unfold loadHeader at hload
  split at hload
  · cases hload
    exact .refl k
  · split at hload
    · split at hload
      · exact loadSegment_adds hload
      · cases hload
        exact .refl k
    · cases hload
      exact .refl k

theorem loadHeaders_adds (hloop : loadHeaders env t file i fileOfs n k = .ok (b, m, k')) :
    AddsEntries k k' := by
  induction i generalizing fileOfs n k with
  | zero =>
      cases hloop
      exact .refl _
  | succ i ih =>
      unfold loadHeaders at hloop
      obtain ⟨length, -, hloop⟩ := Lts.bind_eq_ok.mp hloop
      split at hloop
      next =>
        cases hloop
        exact .refl _
      next =>
        obtain ⟨read, -, hloop⟩ := Lts.bind_eq_ok.mp hloop
        cases read with
        | none =>
            cases hloop
            exact .refl _
        | some phdr =>
            obtain ⟨⟨b₁, n₁, k₁⟩, hheader, hloop⟩ := Lts.bind_eq_ok.mp hloop
            have hadds := loadHeader_adds hheader
            cases b₁ with
            | false =>
                cases hloop
                exact hadds
            | true => exact hadds.trans (ih hloop)

theorem healthy_entering (h : Healthy k) (hc : Changes .entering k k') (hro : ReadOnlyClean k') :
    Healthy k' where
  settled := ⟨h.settled.sound.changes hc, h.settled.noneExiting.changes hc⟩
  slots := slots_exclusive_changes h.settled.sound h.slots hc
  contents := h.contents.changes h.settled.sound h.slots hc
  permits := h.permits.changes h.settled.sound hc
  readOnly := hro

/-! ## Threads that leave without a process -/

theorem freeFrame_sameHandles {f : Option Frame} :
    SameHandles k (freeFrame k f) ∧ (freeFrame k f).status = k.status := by
  unfold freeFrame
  split
  · exact ⟨.refl k, rfl⟩
  · exact ⟨⟨rfl, rfl, rfl⟩, rfl⟩

theorem hashDestroy_sameHandles {l : List Ptr} (hdestroy : hashDestroy t l k = .ok k') :
    SameHandles k k' ∧ k'.status = k.status := by
  induction l generalizing k with
  | nil =>
      cases hdestroy
      exact ⟨.refl _, rfl⟩
  | cons p rest ih =>
      obtain ⟨k₁, hpage, hrest⟩ := Lts.bind_eq_ok.mp hdestroy
      obtain ⟨hsame, hstatus⟩ : SameHandles k k₁ ∧ k₁.status = k.status := by
        unfold pageFunction at hpage
        obtain ⟨e, -, hpage⟩ := Lts.bind_eq_ok.mp hpage
        split at hpage
        · cases hpage
          obtain ⟨hsame, hstatus⟩ := freeFrame_sameHandles (k := k.setSpt t rest)
            (f := pagedirGetPage (k.setSpt t rest) t e.unusedVirtualAddress)
          exact ⟨⟨hsame.files, hsame.fileList, hsame.mmapList⟩, hstatus⟩
        · cases hpage
          exact ⟨⟨rfl, rfl, rfl⟩, rfl⟩
      obtain ⟨hsame', hstatus'⟩ := ih hrest
      exact ⟨hsame.trans hsame', hstatus'.trans hstatus⟩

/-- A thread without descriptors and mappings leaves: its executable is closed if there is
one, and no other file. -/
theorem processExit_bare (hlist : k.fileList t = []) (hmmap : k.mmapList t = [])
    (hexit : processExit k t = .ok k') :
    k'.files = (k.executable t).elim k.files k.files.erase ∧ k'.fileList = k.fileList ∧
      k'.mmapList = k.mmapList ∧ k'.status = Function.update k.status t .absent := by
  obtain ⟨k₁, hclose, hexit⟩ := Lts.bind_eq_ok.mp hexit
  obtain ⟨k₂, hremove, hexit⟩ := Lts.bind_eq_ok.mp hexit
  obtain ⟨k₃, hdestroy, hexit⟩ := Lts.bind_eq_ok.mp hexit
  cases hexit
  have h₁ : k₁.files = (k.executable t).elim k.files k.files.erase ∧
      k₁.fileList = k.fileList ∧ k₁.mmapList = k.mmapList ∧
      k₁.status = Function.update k.status t .exiting := by
    obtain ⟨k₀, hfiles, hpending⟩ := Lts.bind_eq_ok.mp hclose
    have hloop := (processCloseFile_ok.mp hfiles).2
    rw [show (k.setStatus t .exiting).fileList t = [] from hlist] at hloop
    cases hloop
    rw [show (k.setStatus t .exiting).executable t = k.executable t from rfl] at hpending
    cases hexe : k.executable t with
    | none =>
        rw [hexe] at hpending
        cases hpending
        exact ⟨rfl, rfl, rfl, rfl⟩
    | some f =>
        rw [hexe] at hpending
        obtain ⟨o, -, hpending⟩ := Lts.bind_eq_ok.mp hpending
        cases hpending
        exact ⟨rfl, rfl, rfl, rfl⟩
  obtain ⟨hfiles, hlist₁, hmmap₁, hstatus⟩ := h₁
  have h₂ : k₂ = k₁ := by
    have hloop := (processRemoveMmap_ok.mp hremove).2
    rw [hmmap₁, hmmap] at hloop
    cases hloop
    rfl
  subst h₂
  obtain ⟨hsame, hstatus'⟩ := hashDestroy_sameHandles hdestroy
  refine ⟨hsame.files.trans hfiles, hsame.fileList.trans hlist₁, hsame.mmapList.trans hmmap₁, ?_⟩
  show Function.update k₃.status t .absent = _
  rw [hstatus', hstatus, Function.update_idem]

/-- What is left of a thread whose executable could not be opened: fields that nobody
reads before the next thread with this number sets them. -/
def unopened (k : Kernel) (t : Tid) : Kernel :=
  { k with
    mapid := Function.update k.mapid t 0
    fd := Function.update k.fd t 2
    executable := Function.update k.executable t none }

theorem processExit_unopened (h : Sound k) (hl : k.listed = true) (ht : k.status t = .absent) :
    processExit ((initThread k t).setStatus t .killed) t = .ok (unopened k t) := by
  obtain ⟨hspt, hmmap, hlist⟩ := h.bare ht
  have hpagedir := h.tables.pagedir_empty hspt
  have hempty : ∀ {α : Type} (f : Tid → List α), f t = [] → Function.update f t [] = f := by
    intro α f hf
    rw [← hf, Function.update_eq_self]
  let k₁ : Kernel := ((initThread k t).setStatus t .killed).setStatus t .exiting
  have hclose : closeFiles k₁ t = .ok k₁ := by
    have hloop : closeFileLoop t closeAll (k₁.fileList t) k₁ = .ok k₁ := by
      rw [show k₁.fileList t = [] from Function.update_self ..]
      rfl
    refine Lts.bind_eq_ok.mpr ⟨k₁, processCloseFile_ok.mpr ⟨hl, hloop⟩, ?_⟩
    rw [show k₁.executable t = none from Function.update_self ..]
    rfl
  have hremove : processRemoveMmap k₁ t closeAll = .ok k₁ := by
    refine processRemoveMmap_ok.mpr ⟨hl, ?_⟩
    rw [show k₁.mmapList t = [] from Function.update_self ..]
    rfl
  have hdestroy : pageTableRm k₁ t = .ok k₁ := by
    unfold pageTableRm
    rw [show k₁.spt t = [] from hspt]
    rfl
  have hexit : processExit ((initThread k t).setStatus t .killed) t =
      .ok ((pagedirDestroy k₁ t).setStatus t .absent) :=
    Lts.bind_eq_ok.mpr ⟨_, hclose, Lts.bind_eq_ok.mpr ⟨_, hremove,
      Lts.bind_eq_ok.mpr ⟨_, hdestroy, rfl⟩⟩⟩
  rw [hexit]
  congr 1
  have hstatus : Function.update k.status t .absent = k.status := by
    rw [← ht, Function.update_eq_self]
  have hdir : Function.update k.pagedir t ∅ = k.pagedir := by
    rw [← hpagedir, Function.update_eq_self]
  unfold pagedirDestroy unopened
  rw [show k₁.pagedir t = ∅ from hpagedir]
  simp [k₁, Kernel.setStatus, initThread, hempty k.fileList hlist, hempty k.mmapList hmmap,
    hstatus, hdir]

/-- The uses of files of a thread that is not live are none. -/
theorem holds_of_unopened {f : FilePtr} {r : Role} (ht : k.status t = .absent)
    (hr : Holds (unopened k t) f r) : Holds k f r := by
  cases r with
  | executable u =>
      obtain ⟨hlive, hexe⟩ := hr
      have hne : u ≠ t := by
        rintro rfl
        have hstatus : k.status u = .alive ∨ k.status u = .killed := hlive
        rw [ht] at hstatus
        rcases hstatus with hno | hno
        · cases hno
        · cases hno
      exact ⟨hlive, (Function.update_of_ne hne ..).symm.trans hexe⟩
  | descriptor u fd => exact hr
  | mapping u id => exact hr

theorem sound_unopened (h : Sound k) (ht : k.status t = .absent) : Sound (unopened k t) := by
  have hlive : ∀ u, k.Live u → u ≠ t := by
    rintro u hu rfl
    unfold Kernel.Live at hu
    rw [ht] at hu
    rcases hu with hno | hno
    · cases hno
    · cases hno
  have hexe : ∀ u, k.Live u → (unopened k t).executable u = k.executable u :=
    fun u hu => Function.update_of_ne (hlive u hu) ..
  refine ⟨h.tables.congr rfl rfl rfl (.refl _) (fun _ hu => .inl hu) (fun _ _ _ => rfl)
    fun _ _ => rfl, ?_, ?_⟩
  · -- as for a thread that starts
    have hm : Mappings (startProcess k t 0 0) := h.start_mappings ht
    refine hm.congr (fun u hu => ?_) rfl (h.start_mmapList ht).symm rfl fun u => Int.le_refl _
    by_cases hut : u = t
    · right
      rw [hut, h.start_mmapList ht]
      exact (h.bare ht).2.1
    · left
      rw [start_status, if_neg hut]
      exact hu
  · have hh := h.handles
    exact
      { executable := fun u hu => by
          rw [hexe u hu]
          exact hh.executable u hu
        filePages := fun u q x hu hx hty => by
          rw [hexe u hu]
          exact hh.filePages u q x hu ⟨hx.mem, hx.at_ptr⟩ hty
        sizes := fun u q x hx => hh.sizes u q x ⟨hx.mem, hx.at_ptr⟩
        opened := fun f r hr => hh.opened f r (holds_of_unopened ht hr)
        unique := fun f r r' hr hr' =>
          hh.unique f r r' (holds_of_unopened ht hr) (holds_of_unopened ht hr')
        fdSorted := hh.fdSorted
        fdBounded := fun u pf hpf => by
          have hne : u ≠ t := by
            rintro rfl
            exact hh.living u pf hpf ht
          show pf.fd < Function.update k.fd t 2 u
          rw [Function.update_of_ne hne]
          exact hh.fdBounded u pf hpf
        living := hh.living }

theorem healthy_unopened (h : Healthy k) (ht : k.status t = .absent) : Healthy (unopened k t) where
  settled := ⟨sound_unopened h.settled.sound ht, h.settled.noneExiting⟩
  slots := (slots_same rfl rfl rfl rfl).exclusive h.slots
  contents := fun u q x hu hx hty =>
    (h.contents u q x hu ⟨hx.mem, hx.at_ptr⟩ hty).of_fields rfl rfl rfl rfl fun _ => rfl
  permits := h.permits.same rfl rfl rfl
  readOnly := h.readOnly.same rfl rfl rfl

theorem faithful_startProcess (h : Healthy k) (ht : k.status t = .absent) (hfile : file ∉ k.files) :
    Faithful (startProcess k t file exe) := by
  intro u q x hu hx hty
  have hsound := h.settled.sound
  have hx' : Entry k u q x := ⟨hx.mem, hx.at_ptr⟩
  rcases live_of_start hu with rfl | ⟨-, hu'⟩
  · -- the thread has no pages yet
    have hq := hx'.mem
    rw [(hsound.bare ht).1] at hq
    cases hq
  · refine (h.contents u q x hu' hx' hty).of_fields rfl rfl rfl rfl fun hne => ?_
    refine hsound.filePage_executable hu' hx' (hsound.tables.type_file hx' hty hne)
      (fun g hexe => start_lookup ?_) fun _ _ => rfl
    rintro rfl
    exact hfile (hsound.handles.opened g (.executable u) ⟨hu', hexe⟩)

theorem healthy_startProcess (h : Healthy k) (ht : k.status t = .absent) (hfile : file ∉ k.files) :
    Healthy (startProcess k t file exe) where
  settled := by
    refine ⟨h.settled.sound.start ht hfile, fun u => ?_⟩
    rw [start_status]
    split
    · exact nofun
    · exact h.settled.noneExiting u
  slots := slots_exclusive_start h.settled.sound h.slots ht
  contents := faithful_startProcess h ht hfile
  permits := h.permits.same rfl rfl rfl
  readOnly := h.readOnly.same rfl rfl rfl

theorem stackGrowth_sameHandles {va : Vaddr} (h : Sound k) (hx : NoneExiting k)
    (hgrow : stackGrowth env n k t va = .ok (b, k')) : SameHandles k k' := by
  rcases stackGrowth_cases h hx hgrow with ⟨-, rfl⟩ | ⟨p, k₁, frame, hg, hcases⟩
  · exact .refl k'
  · have hr := hg.evicts.reshapes
    have h₁ : SameHandles k k₁ := ⟨hr.files, hr.fileList, hr.mmapList⟩
    rcases hcases with ⟨-, rfl⟩ | ⟨-, -, rfl⟩ | ⟨-, -, rfl⟩
    · have h₂ : SameHandles k (holdFrame (k₁.setSpte p none) t p frame env.garbage) :=
        ⟨h₁.files, h₁.fileList, h₁.mmapList⟩
      exact h₂.trans freeFrame_sameHandles.1
    · exact ⟨h₁.files, h₁.fileList, h₁.mmapList⟩
    · exact ⟨h₁.files, h₁.fileList, h₁.mmapList⟩

end Segments

variable {env : StartEnv} {cmd : Command} {entry : UInt32} {esp : Vaddr}

/-! ## Loads that fail -/

/-- Nothing is done with a file whose header is not accepted; otherwise the loop over the
program headers and `setup_stack` decide. -/
theorem loadOpened_cases (env : StartEnv) (t : Tid) (cmd : Command)
    (hfile : k.files.lookup file = some o) :
    loadOpened env k t file cmd = .ok (none, k) ∨
      ∃ ehdr b n k₁, Elf32Ehdr.layout.readAt (k.bytesOf o.inode) 0 = some ehdr ∧ ehdr.Accepted ∧
        loadHeaders env.toEnv t file ehdr.phnum.toNat ehdr.phoff.toInt32 0 k = .ok (b, n, k₁) ∧
        loadOpened env k t file cmd = if b then (setupStack env n k₁ t cmd).map
          fun r => (r.1.map fun esp => (ehdr.entry, esp), r.2) else .ok (none, k₁) := by
  by_cases hacc : ∃ ehdr, Elf32Ehdr.layout.readAt (k.bytesOf o.inode) 0 = some ehdr ∧
      ehdr.Accepted
  · obtain ⟨ehdr, hread, hacc⟩ := hacc
    obtain ⟨b, n, k₁, hloop, -⟩ : ∃ b n k₁, loadHeaders env.toEnv t file ehdr.phnum.toNat
        ehdr.phoff.toInt32 0 k = .ok (b, n, k₁) ∧ SameFiles k k₁ := loadHeaders_ok hfile
    refine .inr ⟨ehdr, b, n, k₁, hread, hacc, hloop, ?_⟩
    cases b with
    | false => exact loadOpened_failed hfile hread hacc hloop
    | true => exact loadOpened_loaded hfile hread hacc hloop
  · exact .inl (loadOpened_rejected hfile fun ehdr hread h => hacc ⟨ehdr, hread, h⟩)

/-- A load that fails has read nothing it accepts, or has loaded a part of the segments, or
has not set up the stack. -/
theorem loadOpened_none (hfile : k.files.lookup file = some o)
    (hload : loadOpened env k t file cmd = .ok (none, k')) :
    k' = k ∨ ∃ ehdr b n k₁, Elf32Ehdr.layout.readAt (k.bytesOf o.inode) 0 = some ehdr ∧
      ehdr.Accepted ∧
      loadHeaders env.toEnv t file ehdr.phnum.toNat ehdr.phoff.toInt32 0 k = .ok (b, n, k₁) ∧
      (b = false ∧ k' = k₁ ∨ b = true ∧ setupStack env n k₁ t cmd = .ok (none, k')) := by
  rcases loadOpened_cases env t cmd hfile with heq | ⟨ehdr, b, n, k₁, hread, hacc, hloop, heq⟩
  · rw [heq] at hload
    cases hload
    exact .inl rfl
  · refine .inr ⟨ehdr, b, n, k₁, hread, hacc, hloop, ?_⟩
    rw [heq] at hload
    cases b with
    | false =>
        cases hload
        exact .inl ⟨rfl, rfl⟩
    | true =>
        obtain ⟨⟨_ | esp, k₂⟩, hstack, hr⟩ := Lts.map_eq_ok.mp hload
        · cases hr
          exact .inr ⟨rfl, hstack⟩
        · cases hr

/-- What a load that fails has done: it has made entries, and may then have stored some
of the arguments. -/
structure PartlyLoaded (t : Tid) (k k₁ k' : Kernel) : Prop where
  entered : Changes .entering k k₁
  clean : ReadOnlyClean k₁
  handles : SameHandles k k₁
  pushes : Pushes t k₁ k'
  threads : SameThreads k₁ k'

namespace PartlyLoaded

theorem entries (hc : Changes .entering k k') (hclean : ReadOnlyClean k')
    (hsame : SameHandles k k') (ht : k.status t = .alive) : PartlyLoaded t k k' k' := by
  refine ⟨hc, hclean, hsame, .refl ?_, .refl k'⟩
  rw [hc.status]
  exact ht

theorem healthy (hp : PartlyLoaded t k k₁ k') (h : Healthy k) : Healthy k₁ ∧ Healthy k' := by
  have h₁ := healthy_entering h hp.entered hp.clean
  exact ⟨h₁, hp.pushes.healthy h₁⟩

theorem sameThreads (hp : PartlyLoaded t k k₁ k') : SameThreads k k' where
  toSameHandles := hp.handles.trans hp.threads.toSameHandles
  status := hp.threads.status.trans hp.entered.status
  executable := hp.threads.executable.trans hp.entered.executable

theorem fixed (hp : PartlyLoaded t k k₁ k') (h : Healthy k) :
    k'.listed = k.listed ∧ k'.userPool = k.userPool := by
  obtain ⟨hlisted, hpool⟩ := hp.pushes.fixed (hp.healthy h).1
  exact ⟨hlisted.trans hp.entered.listed, hpool.trans hp.entered.userPool⟩

theorem image {u : Tid} {va : Vaddr} {page : Page} {w : Bool} (hp : PartlyLoaded t k k₁ k')
    (h : Healthy k) (hi : Image k u va page w) : Image k' u va page w :=
  hp.pushes.image (hp.healthy h).1
    (hi.changes h.settled.sound hp.entered (h.settled.noneExiting u))

end PartlyLoaded

theorem loadOpened_partly (h : Healthy k) (ht : k.status t = .alive)
    (hexe : k.executable t = some file) (hfile : k.files.lookup file = some o)
    (hspt : k.spt t = []) (hspare : SparesStack (k.bytesOf o.inode))
    (hload : loadOpened env k t file cmd = .ok (none, k')) :
    ∃ k₁, PartlyLoaded t k k₁ k' := by
  have hsound := h.settled.sound
  rcases loadOpened_none hfile hload with rfl | ⟨ehdr, b, n, k₁, hread, hacc, hloop, hcases⟩
  · exact ⟨k', .entries (.refl k') h.readOnly (.refl k') ht⟩
  · obtain ⟨b', n', k₂, hok, hsame⟩ : ∃ b n k₂, loadHeaders env.toEnv t file ehdr.phnum.toNat
        ehdr.phoff.toInt32 0 k = .ok (b, n, k₂) ∧ SameFiles k k₂ := loadHeaders_ok hfile
    rw [hloop] at hok
    cases hok
    have hc := loadHeaders_any hsound ht hexe hfile hloop
    have hro := h.readOnly.adds (loadHeaders_adds hloop)
    have h₁ := hsound.changes hc
    have hx : NoneExiting k₁ := h.settled.noneExiting.changes hc
    have ht₁ : k₁.status t = .alive := by
      rw [hc.status]
      exact ht
    rcases hcases with ⟨-, rfl⟩ | ⟨rfl, hstack⟩
    · exact ⟨k', .entries hc hro hsame.toSameHandles ht⟩
    · have hfree := hashFind_stackPage hsound ht hexe hfile hspt hspare hread hacc hloop
      -- whether there is a page for the stack or not
      have hgrown : ∀ {b k₂}, stackGrowth env.toEnv n k₁ t (physBase - 4096) = .ok (b, k₂) →
          PartlyLoaded t k k₂ k₂ := by
        intro b k₂ hgrow
        exact .entries (hc.trans (stackGrowth_changes h₁ hx ht₁ hgrow (.inr hfree) fun _ => trivial))
          (hro.stackGrowth h₁ hx (h.permits.changes hsound hc) hgrow (.inr hfree))
          (hsame.toSameHandles.trans (stackGrowth_sameHandles h₁ hx hgrow)) ht
      rcases setupStack_none hstack with hgrow | ⟨k₂, s, hgrow, hs, hst⟩
      · exact ⟨k', hgrown hgrow⟩
      · -- some strings have been stored when `argv` cannot grow
        have hp := hgrown hgrow
        obtain ⟨k₃, hst', hthreads⟩ := storeStack_present env hs
          (stackGrowth_present h₁ hx hgrow)
        rw [hst] at hst'
        cases hst'
        exact ⟨k₂, hp.entered, hp.clean, hp.handles, storeStack_pushes hp.pushes.alive hst, hthreads⟩

/-- A load that fails: the executable could not be opened, or the process has its
executable and some entries. -/
theorem load_none (h : Healthy k) (ht : k.status t = .absent) (hspare : SparesStack (k.bytesOf exe))
    (hload : load env k t exe cmd = .ok (none, k')) :
    k' = initThread k t ∨ ∃ file k₁, file ∉ k.files ∧ Healthy (startProcess k t file exe) ∧
      PartlyLoaded t (startProcess k t file exe) k₁ k' := by
  rcases load_cases env k t exe cmd with ⟨-, heq⟩ | ⟨-, ⟨k₀, hopen, heq⟩ | ⟨file, k₀, hopen, heq⟩⟩
  · rw [heq] at hload
    cases hload
  · rw [heq] at hload
    cases hload
    exact .inl (fileOpen_none hopen)
  · right
    have hnew : file ∉ k.files := (fileOpen_some hopen).1
    have h₀ : Healthy (startProcess k t file exe) := healthy_startProcess h ht hnew
    rw [heq] at hload
    obtain ⟨k₁, hp⟩ := loadOpened_partly h₀ (Function.update_self ..) (Function.update_self ..)
      startProcess_lookup (h.settled.sound.bare ht).1 hspare hload
    exact ⟨file, k₁, hnew, h₀, hp⟩

/-- Nothing is left of a thread: the processes, the open files, the descriptors and the
mappings are as they were. -/
structure NothingLeft (k k' : Kernel) : Prop where
  listed : k'.listed = k.listed
  status : k'.status = k.status
  userPool : k'.userPool = k.userPool
  lookup : ∀ f, k'.files.lookup f = k.files.lookup f
  fileList : k'.fileList = k.fileList
  mmapList : k'.mmapList = k.mmapList

/-- The thread can be killed after its load has failed. -/
theorem PartlyLoaded.kill (hp : PartlyLoaded t (startProcess k t file exe) k₁ k')
    (h : Healthy (startProcess k t file exe)) :
    Vm.Step k' (.exit t) (k'.setStatus t .killed) ∧ Healthy (k'.setStatus t .killed) := by
  have hkill : Vm.Step k' (.exit t) (k'.setStatus t .killed) := ⟨hp.pushes.alive, rfl⟩
  exact ⟨hkill, (hp.healthy h).2.step hkill⟩

theorem setStatus_killed : (k.setStatus t .killed).status t = .killed := Function.update_self ..

/-- Nothing is left of the thread then, and the state stays consistent. -/
theorem start_none (h : Healthy k) (ht : k.status t = .absent) (hspare : SparesStack (k.bytesOf exe))
    (hload : load env k t exe cmd = .ok (none, k₁))
    (hexit : processExit (k₁.setStatus t .killed) t = .ok k') : Healthy k' ∧ NothingLeft k k' := by
  rcases load_none h ht hspare hload with rfl | ⟨file, k₀, hnew, h₀, hp⟩
  · -- the file could not be opened, and there is nothing to close
    have hl : ((initThread k t).setStatus t .killed).listed = true := listed_of_processExit hexit
    rw [processExit_unopened h.settled.sound hl ht] at hexit
    cases hexit
    exact ⟨healthy_unopened h ht, ⟨rfl, rfl, rfl, fun _ => rfl, rfl, rfl⟩⟩
  · obtain ⟨-, hmmap, hlist⟩ := h.settled.sound.bare ht
    obtain ⟨-, h₂⟩ := hp.kill h₀
    have hleave : Vm.Step (k₁.setStatus t .killed) (.processExit t) k' := ⟨setStatus_killed, hexit⟩
    refine ⟨h₂.step hleave, ?_⟩
    have hsame := hp.sameThreads
    have hlist₁ : k₁.fileList = k.fileList :=
      hsame.fileList.trans (h.settled.sound.start_fileList ht)
    have hmmap₁ : k₁.mmapList = k.mmapList :=
      hsame.mmapList.trans (h.settled.sound.start_mmapList ht)
    have hexe : k₁.executable t = some file := by
      rw [hsame.executable]
      exact Function.update_self ..
    obtain ⟨hfiles, hlist', hmmap', hstatus'⟩ := processExit_bare
      (k := k₁.setStatus t .killed) ((congrFun hlist₁ t).trans hlist)
      ((congrFun hmmap₁ t).trans hmmap) hexit
    obtain ⟨hlisted, hpool⟩ := hp.fixed h₀
    refine ⟨(listed_step h₂.settled hleave).trans hlisted, ?_,
      (userPool_step h₂.settled hleave).trans hpool, fun f => ?_, hlist'.trans hlist₁,
      hmmap'.trans hmmap₁⟩
    · -- the thread was absent, alive and killed, and is absent again
      rw [hstatus']
      show Function.update (Function.update k₁.status t .killed) t .absent = k.status
      rw [hsame.status]
      show Function.update (Function.update (Function.update k.status t .alive) t .killed) t
        .absent = k.status
      rw [Function.update_idem, Function.update_idem, ← ht, Function.update_eq_self]
    · -- the one file that was opened is closed
      rw [hfiles, show (k₁.setStatus t .killed).executable t = some file from hexe]
      show (k₁.files.erase file).lookup f = _
      rw [hsame.files]
      by_cases hf : f = file
      · rw [hf, AList.lookup_erase]
        exact (AList.lookup_eq_none.mpr hnew).symm
      · rw [AList.lookup_erase_ne hf]
        exact start_lookup hf

/-! ## Loads that succeed -/

/-- What a load that succeeds does: the segments of the executable get their entries, up
to `k₁`, the stack gets its first page, up to `k₂`, and the arguments are pushed. -/
structure Loaded (env : StartEnv) (k : Kernel) (t : Tid) (exe : Inode) (ehdr : Elf32Ehdr)
    (phdrs : List Elf32Phdr) (file : FilePtr) (k₁ k₂ k' : Kernel) : Prop where
  executable : IsExecutable (k.bytesOf exe) ehdr phdrs
  sound : Sound (startProcess k t file exe)
  segments : ∃ n, loadSegments env.toEnv t file 0 (segments phdrs) (startProcess k t file exe) =
    .ok (true, n, k₁)
  entered : Changes .entering (startProcess k t file exe) k₁
  grown : Changes .entering k₁ k₂
  step : Vm.Step k (.load t exe (Elf.segments phdrs) env.toEnv) k₂
  pushes : Pushes t k₂ k'

theorem load_some (h : Healthy k) (ht : k.status t = .absent)
    (hload : load env k t exe cmd = .ok (some (entry, esp), k')) :
    ∃ ehdr phdrs file k₁ k₂, Loaded env k t exe ehdr phdrs file k₁ k₂ k' := by
  obtain ⟨ehdr, phdrs, k₂, hexe, -, hvm, -, -, hstore⟩ := load_refines.mp hload
  obtain ⟨file, n, k₁, -, h₀, hx₀, hsegments, hgrow⟩ :=
    Vm.load_cases h.settled.sound h.settled.noneExiting ht hvm
  have ht₀ : (startProcess k t file exe).status t = .alive := Function.update_self ..
  have hc : Changes .entering (startProcess k t file exe) k₁ :=
    loadSegments_changes h₀ ht₀ (Function.update_self ..) (fun _ _ _ _ => trivial) hsegments
  have hx₁ : NoneExiting k₁ := hx₀.changes hc
  have ht₁ : k₁.status t = .alive := by
    rw [hc.status]
    exact ht₀
  have hc' : Changes .entering k₁ k₂ :=
    stackGrowth_changes (h₀.changes hc) hx₁ ht₁ hgrow (.inl rfl) fun _ => trivial
  have ht₂ : k₂.status t = .alive := by
    rw [hc'.status]
    exact ht₁
  exact ⟨ehdr, phdrs, file, k₁, k₂, hexe, h₀, ⟨n, hsegments⟩, hc, hc', ⟨ht, hvm⟩,
    storeStack_pushes ht₂ hstore⟩

theorem load_alive (h : Healthy k) (ht : k.status t = .absent)
    (hload : load env k t exe cmd = .ok (some (entry, esp), k')) : k'.status t = .alive := by
  obtain ⟨ehdr, phdrs, file, k₁, k₂, hl⟩ := load_some h ht hload
  exact hl.pushes.alive

/-! ## Starting a process -/

/-- The ways `start_process` can go: the process is started, or the load fails and the
thread leaves. -/
theorem start_cases : start env k t exe cmd = .ok k' ↔
    env.cp = true ∧ cmd.Starts ∧ ((∃ entry esp, load env k t exe cmd = .ok (some (entry, esp), k')) ∨
      ∃ k₁, load env k t exe cmd = .ok (none, k₁) ∧
        processExit (k₁.setStatus t .killed) t = .ok k') := by
  unfold start
  rw [Lts.bind_eq_ok]
  cases env.cp with
  | false =>
      refine ⟨?_, fun h => absurd h.1 (by decide)⟩
      rintro ⟨r, -, h⟩
      cases h
  | true =>
      rw [and_iff_right rfl]
      by_cases hstarts : cmd.Starts
      · simp only [if_neg (show ¬ true = false by decide), if_neg (not_not.mpr hstarts),
          and_iff_right hstarts]
        constructor
        · rintro ⟨⟨_ | ⟨entry, esp⟩, k₁⟩, hload, h⟩
          · exact .inr ⟨k₁, hload, h⟩
          · cases h
            exact .inl ⟨entry, esp, hload⟩
        · rintro (⟨entry, esp, hload⟩ | ⟨k₁, hload, h⟩)
          · exact ⟨_, hload, rfl⟩
          · exact ⟨_, hload, h⟩
      · refine ⟨?_, fun h => absurd h.1 hstarts⟩
        rintro ⟨r, -, h⟩
        dsimp only at h
        rw [if_neg (by decide), if_pos hstarts] at h
        cases h

theorem healthy_start (h : Healthy k) (ht : k.status t = .absent)
    (hspare : SparesStack (k.bytesOf exe)) (hstart : start env k t exe cmd = .ok k') :
    Healthy k' := by
  rcases (start_cases.mp hstart).2.2 with ⟨entry, esp, hload⟩ | ⟨k₁, hload, hexit⟩
  · obtain ⟨ehdr, phdrs, file, k₁, k₂, hl⟩ := load_some h ht hload
    exact hl.pushes.healthy (h.step hl.step)
  · exact (start_none h ht hspare hload hexit).1

end Pintos.Elf
