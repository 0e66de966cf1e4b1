import Pintos.Files.Table
import Pintos.Vm.Leaving

/-! # Closing the files of a process

`process_exit` closes the files of `file_list`, of the mappings and of the
executable, but not those of the list `files`. A handle is in `Kernel.files` from
the `filesys_open` or `file_reopen` that returns it to its `file_close`, and
`file_close` fails for a pointer that is not there: so all handles of a process
have been closed exactly once if the open ones are those from before its start.
-/

namespace Pintos.Files

open Intrusive Vm

variable {s s' : State} {t : Tid} {fd : ℤ} {k k' k₀ k₁ : Kernel} {as : List Call} {a : Call}
  {f : FilePtr} {p : Ptr} {env : Env} {m : Machine} {exe : Inode} {segments : List Segment}

/-! ## What loading and leaving do to the handles -/

/-- The parts of the state that keep track of open files are the same. -/
structure SameFiles (k k' : Kernel) : Prop where
  files : k'.files = k.files
  fileList : k'.fileList = k.fileList
  mmapList : k'.mmapList = k.mmapList
  fd : k'.fd = k.fd
  executable : k'.executable = k.executable

theorem SameFiles.refl (k : Kernel) : SameFiles k k := ⟨rfl, rfl, rfl, rfl, rfl⟩

theorem SameFiles.trans (h₁ : SameFiles k k₁) (h₂ : SameFiles k₁ k') : SameFiles k k' where
  files := h₂.files.trans h₁.files
  fileList := h₂.fileList.trans h₁.fileList
  mmapList := h₂.mmapList.trans h₁.mmapList
  fd := h₂.fd.trans h₁.fd
  executable := h₂.executable.trans h₁.executable

theorem hashInsert_sameFiles {upage : Vaddr} {page : Page} {b : Bool}
    (h : hashInsert k t p upage page = (b, k')) : SameFiles k k' := by
  unfold hashInsert at h
  split at h
  next =>
    cases h
    exact .refl _
  next =>
    cases h
    exact ⟨rfl, rfl, rfl, rfl, rfl⟩

theorem loadSegmentLoop_sameFiles {file : FilePtr} {writable b : Bool} {n n' rounds : ℕ}
    {ofs readBytes zeroBytes : UInt32} {upage : Vaddr}
    (h : loadSegmentLoop env t file writable n rounds ofs upage readBytes zeroBytes k =
      (b, n', k')) : SameFiles k k' := by
  induction rounds generalizing n ofs upage readBytes zeroBytes k with
  | zero =>
      cases h
      exact .refl _
  | succ rounds ih =>
      unfold loadSegmentLoop at h
      split at h
      next =>
        dsimp only at h
        have hadd : ∀ {b : Bool} {k₁ : Kernel}, addFilePageTbl env n k t file ofs upage
            (if readBytes < 4096 then readBytes else 4096)
            (4096 - if readBytes < 4096 then readBytes else 4096) writable = (b, k₁) →
            SameFiles k k₁ := by
          intro b k₁ hb
          unfold addFilePageTbl at hb
          split at hb
          next =>
            cases hb
            exact .refl _
          next =>
            have hset : ∀ q o, SameFiles k (k.setSpte q o) :=
              fun _ _ => ⟨rfl, rfl, rfl, rfl, rfl⟩
            exact (hset _ _).trans (hashInsert_sameFiles hb)
        split at h
        next hb =>
          cases h
          exact hadd hb
        next hb => exact (hadd hb).trans (ih h)
      next =>
        cases h
        exact .refl _

theorem loadSegments_sameFiles {file : FilePtr} {b : Bool} {n n' : ℕ}
    (h : loadSegments env t file n segments k = .ok (b, n', k')) : SameFiles k k' := by
  induction segments generalizing n k with
  | nil =>
      cases h
      exact .refl _
  | cons seg rest ih =>
      obtain ⟨⟨b₁, n₁, k₁⟩, hseg, h⟩ := Lts.bind_eq_ok.mp h
      have hone : SameFiles k k₁ := by
        unfold loadSegment at hseg
        split at hseg
        next => cases hseg
        next =>
          split at hseg
          next => cases hseg
          next =>
            split at hseg
            next => cases hseg
            next => exact loadSegmentLoop_sameFiles (Except.ok.inj hseg)
      cases b₁ with
      | false =>
          cases h
          exact hone
      | true => exact hone.trans (ih h)

theorem freeFrame_sameFiles {o : Option Frame} : SameFiles k (freeFrame k o) := by
  unfold freeFrame
  split
  next => exact .refl _
  next => exact ⟨rfl, rfl, rfl, rfl, rfl⟩

/-- A page of stack that is given to a process. -/
theorem stackGrowth_sameFiles {n : ℕ} {va : Vaddr} (h : Sound k) (hx : NoneExiting k)
    (hgrow : stackGrowth env n k t va = .ok (true, k')) : SameFiles k k' := by
  rcases stackGrowth_cases h hx hgrow with
    ⟨hno, -⟩ | ⟨p, k₁, frame, hg, ⟨hno, -⟩ | ⟨hno, -⟩ | ⟨-, -, rfl⟩⟩
  · cases hno
  · cases hno
  · cases hno
  · have hre := hg.evicts.reshapes
    exact ⟨hre.files, hre.fileList, hre.mmapList, hre.fd, hre.executable⟩

/-- A process starts with one handle, on its executable. -/
theorem load_started (h : Settled k₀) (hload : Step k₀ (.load t exe segments env) k) :
    ∃ file, file ∉ k₀.files ∧ Started t k ∧ k.executable t = some file ∧
      ∀ f, f ∈ k.files ↔ f = file ∨ f ∈ k₀.files := by
  obtain ⟨file, n, k₂, hnew, h₀, hx₀, hsegments, hgrow⟩ :=
    load_cases h.sound h.noneExiting hload.1 hload.2
  have hc := loadSegments_changes (R := ⟨fun _ _ => True, fun _ _ => True, fun _ _ => True,
    fun _ => True⟩) h₀ (Function.update_self ..) (Function.update_self ..)
    (fun _ _ _ _ => trivial) hsegments
  have hx₂ : NoneExiting k₂ := fun u => by
    rw [hc.status]
    exact hx₀ u
  have hsame := (loadSegments_sameFiles hsegments).trans
    (stackGrowth_sameFiles (h₀.changes hc) hx₂ hgrow)
  refine ⟨file, hnew, ⟨?_, ?_, ?_⟩, ?_, ?_⟩
  · rw [hsame.fd]
    exact Function.update_self ..
  · rw [hsame.fileList]
    exact Function.update_self ..
  · rw [hsame.mmapList]
    exact Function.update_self ..
  · rw [hsame.executable]
    exact Function.update_self ..
  · intro f
    rw [hsame.files]
    exact AList.mem_insert _

theorem hashDestroy_sameFiles {l : List Ptr} (h : hashDestroy t l k = .ok k') : SameFiles k k' := by
  induction l generalizing k with
  | nil =>
      cases h
      exact .refl _
  | cons p rest ih =>
      obtain ⟨k₁, hone, h⟩ := Lts.bind_eq_ok.mp h
      refine .trans ?_ (ih h)
      obtain ⟨e, -, hone⟩ := Lts.bind_eq_ok.mp hone
      split at hone
      next =>
        cases hone
        have hfree := freeFrame_sameFiles (k := k.setSpt t rest)
          (o := pagedirGetPage (k.setSpt t rest) t e.unusedVirtualAddress)
        exact ⟨hfree.files, hfree.fileList, hfree.mmapList, hfree.fd, hfree.executable⟩
      next =>
        cases hone
        exact ⟨rfl, rfl, rfl, rfl, rfl⟩

/-- A process without descriptors in `file_list` and without mappings closes its
executable and nothing else. -/
theorem processExit_files {file : FilePtr} (hfiles : k.fileList t = []) (hmaps : k.mmapList t = [])
    (hexe : k.executable t = some file) (h : processExit k t = .ok k') :
    ∀ f, f ∈ k'.files ↔ f ≠ file ∧ f ∈ k.files := by
  obtain ⟨k₁, hclose, h⟩ := Lts.bind_eq_ok.mp h
  obtain ⟨k₂, hremove, h⟩ := Lts.bind_eq_ok.mp h
  obtain ⟨k₃, hdestroy, h⟩ := Lts.bind_eq_ok.mp h
  cases h
  have hclosed : k₁ = { k.setStatus t .exiting with files := k.files.erase file } := by
    obtain ⟨k₀, hloop, hpending⟩ := Lts.bind_eq_ok.mp hclose
    have hnone : (k.setStatus t .exiting).fileList t = [] := hfiles
    obtain ⟨-, hloop⟩ := processCloseFile_ok.mp hloop
    rw [hnone] at hloop
    cases hloop
    have hexe' : (k.setStatus t .exiting).executable t = some file := hexe
    rw [hexe'] at hpending
    exact fileClose_ok hpending
  subst hclosed
  have hnone : ({ k.setStatus t .exiting with files := k.files.erase file } : Kernel).mmapList t =
      [] := hmaps
  obtain ⟨-, hremove⟩ := processRemoveMmap_ok.mp hremove
  rw [hnone] at hremove
  cases hremove
  have hsame := hashDestroy_sameFiles hdestroy
  intro f
  show f ∈ k₃.files ↔ _
  rw [hsame.files]
  exact AList.mem_erase

/-- Such a process leaves, if it has lists in which there is nothing to close. -/
theorem processExit_iff_listed {file : FilePtr} (hfiles : k.fileList t = [])
    (hmaps : k.mmapList t = []) (hexe : k.executable t = some file) (hopen : file ∈ k.files)
    (hentries : ∀ p ∈ k.spt t, k.sptes p ≠ none) (hnodup : (k.spt t).Nodup) :
    (∃ k', processExit k t = .ok k') ↔ k.listed = true := by
  constructor
  · rintro ⟨k', h⟩
    exact listed_of_processExit h
  · intro hl
    have hloop : processCloseFile (k.setStatus t .exiting) t closeAll =
        .ok (k.setStatus t .exiting) := by
      refine processCloseFile_ok.mpr ⟨hl, ?_⟩
      rw [show (k.setStatus t .exiting).fileList t = [] from hfiles]
      rfl
    obtain ⟨k₁, hk₁, hclose⟩ : ∃ k₁,
        k₁ = { k.setStatus t .exiting with files := k.files.erase file } ∧
        closeFiles (k.setStatus t .exiting) t = .ok k₁ := by
      refine ⟨_, rfl, Lts.bind_eq_ok.mpr ⟨_, hloop, ?_⟩⟩
      rw [show (k.setStatus t .exiting).executable t = some file from hexe]
      exact fileClose_returns hopen
    have hremove : processRemoveMmap k₁ t closeAll = .ok k₁ := by
      refine processRemoveMmap_ok.mpr ⟨hk₁ ▸ hl, ?_⟩
      rw [show k₁.mmapList t = [] from hk₁ ▸ hmaps]
      rfl
    obtain ⟨k₂, hdestroy⟩ := hashDestroy_returns (k := k₁) (t := t) (l := k₁.spt t)
      (hk₁ ▸ hentries) (hk₁ ▸ hnodup)
    exact Lts.bind_succeeds hclose (Lts.bind_succeeds hremove (Lts.bind_succeeds hdestroy
      ⟨_, rfl⟩))

/-! ## Runs -/

/-- The open handles are those from the start of the process and those of its open
descriptors. -/
structure Accounts (k : Kernel) (as : List Call) (s : State) : Prop where
  files : ∀ f, f ∈ s.kernel.files ↔ f ∈ k.files ∨ f ∈ (openDescriptors as).map (·.file)
  fresh : ∀ f ∈ (openDescriptors as).map (·.file), f ∉ k.files

/-- A call that opens and closes nothing. -/
theorem Accounts.other (h : Accounts k as s)
    (hds : a.descriptors (openDescriptors as) = openDescriptors as) : Accounts k (as ++ [a]) s := by
  have hsnoc : openDescriptors (as ++ [a]) = openDescriptors as := openDescriptors_snoc.trans hds
  refine ⟨?_, ?_⟩
  · rw [hsnoc]
    exact h.files
  · rw [hsnoc]
    exact h.fresh

theorem Accounts.step (h : Accounts k as s) (htracks : Tracks t k as s) (hs : Performs t s a s') :
    Accounts k (as ++ [a]) s' := by
  obtain ⟨ps, hrep⟩ := htracks.represents
  cases a with
  | openFile fd f =>
      obtain ⟨env, desc, file, hopen, hs⟩ := hs
      cases f with
      | none =>
          obtain ⟨-, rfl⟩ := sysOpen_of_none hopen hs
          exact h.other rfl
      | some f =>
          -- the new handle is that of the new descriptor
          obtain ⟨-, ⟨o, hnew, hk⟩, -⟩ := hrep.sysOpen hopen hs
          have hmap : (openDescriptors (as ++ [.openFile fd (some f)])).map (·.file) =
              (openDescriptors as).map (·.file) ++ [f] := by
            rw [openDescriptors_snoc]
            exact List.map_append
          refine ⟨?_, ?_⟩
          · intro g
            rw [hk, hmap, List.mem_append, List.mem_singleton]
            show g ∈ s.kernel.files.insert f o ↔ _
            rw [AList.mem_insert, h.files g, or_comm, or_assoc]
          · intro g hg
            rw [hmap, List.mem_append, List.mem_singleton] at hg
            rcases hg with hg | rfl
            · exact h.fresh g hg
            · exact fun hold => hnew ((h.files g).mpr (.inl hold))
  | close fd =>
      -- the handle that is closed is that of the descriptor that goes
      obtain ⟨s₁, qs, files, hclose, -, hk, hfiles⟩ := hrep.sysClose fd
      obtain rfl : s₁ = s' := Except.ok.inj (hclose.symm.trans hs)
      have hsnoc : openDescriptors (as ++ [.close fd]) =
          (openDescriptors as).eraseP (·.fd = fd) := openDescriptors_snoc
      have hsub : ∀ g ∈ ((openDescriptors as).eraseP (·.fd = fd)).map (·.file),
          g ∈ (openDescriptors as).map (·.file) :=
        fun g hg => (List.eraseP_sublist.map _).subset hg
      refine ⟨?_, ?_⟩
      · intro g
        rw [hk, hsnoc]
        show g ∈ files ↔ _
        rw [hfiles, h.files]
        constructor
        · rintro ⟨hg | hg, hkept⟩
          · exact .inl hg
          · exact .inr (hkept hg)
        · rintro (hg | hg)
          · exact ⟨.inl hg, fun hds => absurd hg (h.fresh g hds)⟩
          · exact ⟨.inr (hsub g hg), fun _ => hg⟩
      · intro g hg
        rw [hsnoc] at hg
        exact h.fresh g (hsub g hg)
  | mmap fd addr id =>
      obtain ⟨env, hs⟩ := hs
      -- `mmap` fails before it opens the file again
      rw [sysMmap_of_nil htracks.fileList] at hs
      obtain ⟨-, rfl⟩ := Prod.mk.inj (Except.ok.inj (Lts.guard_eq_ok.mp hs).2)
      exact h.other rfl
  | munmap mapping =>
      obtain rfl : s = s' := Except.ok.inj
        (Lts.guard_eq_ok.mp ((sysMunmap_of_nil htracks.mmapList).symm.trans hs)).2
      exact h.other rfl

theorem accounts_of_run (hk : Started t k) (h : Lts.Run (Performs t) (State.start k) as s) :
    Accounts k as s := by
  have hgen : Tracks t k as s ∧ Accounts k as s := by
    refine h.invariant_trace (P := fun as s => Tracks t k as s ∧ Accounts k as s) ?_ ?_
    · rintro as s a s' hs ⟨htracks, hacc⟩
      exact ⟨htracks.step hs, hacc.step htracks hs⟩
    · refine ⟨tracks_of_run hk (.nil _), ?_, ?_⟩
      · intro f
        exact ⟨.inl, fun hf => hf.resolve_right List.not_mem_nil⟩
      · intro f hf
        exact absurd hf List.not_mem_nil
  exact hgen.2

/-- A process leaves with the handles open that were open before its start exactly if it
has closed all its descriptors and the lists that `process_exit` closes are lists. -/
theorem files_conserved (h₀ : Reachable m k₀) (hload : Step k₀ (.load t exe segments env) k)
    (h : Lts.Run (Performs t) (State.start k) as s) :
    (∃ k', processExit s.kernel t = .ok k' ∧ ∀ f, f ∈ k'.files ↔ f ∈ k₀.files) ↔
      m.listed = true ∧ openDescriptors as = [] := by
  have hset₀ := settled_of_reachable h₀
  obtain ⟨file, hnew, hk, hexe, hfiles⟩ := load_started hset₀ hload
  have htables := (hset₀.step hload).sound.tables
  have htracks := tracks_of_run hk h
  have hacc := accounts_of_run hk h
  have hexe' : s.kernel.executable t = some file := by
    rw [htracks.rest]
    exact hexe
  have hopen : file ∈ s.kernel.files := (hacc.files file).mpr (.inl ((hfiles file).mpr (.inl rfl)))
  have hentries : ∀ p ∈ s.kernel.spt t, s.kernel.sptes p ≠ none := by
    rw [htracks.rest]
    intro p hp
    obtain ⟨e, he⟩ := htables.exists_entry hp
    rw [he.at_ptr]
    exact Option.some_ne_none e
  have hnodup : (s.kernel.spt t).Nodup := by
    rw [htracks.rest]
    exact htables.sptNodup t
  have hlisted : s.kernel.listed = m.listed := htracks.listed.trans
    ((listed_step hset₀ hload).trans (listed_of_reachable h₀))
  have hleaves := processExit_iff_listed htracks.fileList htracks.mmapList hexe' hopen hentries hnodup
  rw [hlisted] at hleaves
  have hleft : ∀ k', processExit s.kernel t = .ok k' → ∀ f, f ∈ k'.files ↔ f ≠ file ∧
      f ∈ s.kernel.files := fun k' hexit =>
    processExit_files htracks.fileList htracks.mmapList hexe' hexit
  constructor
  · rintro ⟨k', hexit, hsame⟩
    refine ⟨hleaves.mp ⟨k', hexit⟩, List.eq_nil_iff_forall_not_mem.mpr fun d hd => ?_⟩
    have hmem : d.file ∈ (openDescriptors as).map (·.file) := List.mem_map_of_mem hd
    have hfresh := hacc.fresh d.file hmem
    rw [hfiles, not_or] at hfresh
    exact hfresh.2 ((hsame _).mp ((hleft k' hexit _).mpr
      ⟨hfresh.1, (hacc.files _).mpr (.inr hmem)⟩))
  · rintro ⟨hl, hnone⟩
    obtain ⟨k', hexit⟩ := hleaves.mpr hl
    refine ⟨k', hexit, fun f => ?_⟩
    rw [hleft k' hexit, hacc.files, hfiles, hnone]
    constructor
    · rintro ⟨hne, (rfl | hf) | hno⟩
      · exact absurd rfl hne
      · exact hf
      · exact absurd hno List.not_mem_nil
    · intro hf
      refine ⟨?_, .inl (.inr hf)⟩
      rintro rfl
      exact hnew hf

/-- The process of `openOne` leaves without closing its file. -/
def leave (listed : Bool) : Except String (Option Bool) := do
  let (_, _, s) ← openOne listed
  return (processExit s.kernel 1).toOption.map fun k => decide (200 ∈ k.files)

theorem openOne_leaves (listed : Bool) : ∃ k s,
    Step (withLists listed).boot (swapRun.get ⟨0, by decide⟩) k ∧
    Lts.Run (Performs 1) (State.start k) [.openFile 2 (some 200)] s ∧
    200 ∉ (withLists listed).boot.files ∧
    if listed then ∃ k', processExit s.kernel 1 = .ok k' ∧ 200 ∈ k'.files
    else processExit s.kernel 1 = .error isNextable := by
  obtain ⟨k, s, hone, hload, hlisted, hk, hsteps, -⟩ := openOne_run listed
  refine ⟨k, s, hload, hsteps, AList.notMem_empty 200, ?_⟩
  cases listed with
  | false =>
      have hexit : processCloseFile (s.kernel.setStatus 1 .exiting) 1 closeAll =
          .error isNextable := by
        have hl := (tracks_of_run hk hsteps).listed.trans hlisted
        exact if_neg (by rw [show (s.kernel.setStatus 1 .exiting).listed = _ from hl]; decide)
      show processExit s.kernel 1 = .error isNextable
      unfold processExit closeFiles
      rw [hexit]
      rfl
  | true =>
      have hrun : leave true = .ok (some true) := by decide +kernel
      unfold leave at hrun
      rw [hone] at hrun
      obtain ⟨k', hexit, hmem⟩ := Option.map_eq_some_iff.mp (Except.ok.inj hrun)
      exact ⟨k', Lts.eq_ok_of_toOption hexit, of_decide_eq_true hmem⟩

/-- A process leaves with a descriptor: without the lists it does not get through, and with
them its handle stays open. -/
theorem file_leaked :
    (∃ k s, Step (withLists false).boot (swapRun.get ⟨0, by decide⟩) k ∧
      Lts.Run (Performs 1) (State.start k) [.openFile 2 (some 200)] s ∧
      processExit s.kernel 1 = .error isNextable) ∧
    ∃ k s k', Step (withLists true).boot (swapRun.get ⟨0, by decide⟩) k ∧
      Lts.Run (Performs 1) (State.start k) [.openFile 2 (some 200)] s ∧
      200 ∉ (withLists true).boot.files ∧ processExit s.kernel 1 = .ok k' ∧ 200 ∈ k'.files := by
  obtain ⟨k, s, hload, hsteps, -, hexit⟩ := openOne_leaves false
  obtain ⟨k₁, s₁, hload₁, hsteps₁, hnew, hexit₁⟩ := openOne_leaves true
  obtain ⟨k', hk', hmem⟩ := hexit₁
  exact ⟨⟨k, s, hload, hsteps, hexit⟩, k₁, s₁, k', hload₁, hsteps₁, hnew, hk', hmem⟩

theorem files_conserved_run : ∃ k s k', Step twoFrames.boot (swapRun.get ⟨0, by decide⟩) k ∧
    Lts.Run (Performs 1) (State.start k) [.openFile 2 (some 200), .close 2] s ∧
    processExit s.kernel 1 = .ok k' ∧ ∀ f, f ∈ k'.files ↔ f ∈ twoFrames.boot.files := by
  obtain ⟨k, s, hone, hload, -, hk, hsteps, -⟩ := openOne_run true
  obtain ⟨ps, hrep⟩ := (tracks_of_run hk hsteps).represents
  obtain ⟨s', -, -, hclose, -⟩ := hrep.sysClose 2
  have hsteps' := hsteps.append (.single (show Performs 1 s (.close 2) s' from hclose))
  obtain ⟨k', hexit, hfiles⟩ :=
    (files_conserved (m := withLists true) ⟨[], .nil _⟩ hload hsteps').mpr ⟨rfl, by decide⟩
  exact ⟨k, s', k', hload, hsteps', hexit, hfiles⟩

end Pintos.Files
