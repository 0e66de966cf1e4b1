import Pintos.Locks.Syscall

/-! # A discipline for the three locks

What the activities do to the locks, function by function: a strict discipline,
which `lock_acquire` and the nesting of the locks are about, and a lenient one,
which is about where `file_lock` is released and given back.
-/

namespace Pintos.Locks

open Sync Lock

/-- The strict discipline demands that a thread acquires no lock that it holds and
none while it holds `swap_lock`. It is assumed that a thread does not load a page
or grow its stack in a way that uses files while it holds `file_lock`. The
lenient discipline demands that a thread releases only locks that it holds, and
that it does not hold `file_lock` where it leaves the kernel, `load`, or for
good. -/
def discipline (strict : Bool) : Discipline Lock Place where
  demands held op :=
    match op with
    | .acquire l => strict = true → l ∉ held ∧ swapLock ∉ held
    | .release l => strict = false → l ∈ held
    | .reach .loadReturns => strict = false → fileLock ∉ held
    | .reach .threadExit => strict = false → fileLock ∉ held
    | .reach .userMode => strict = false → fileLock ∉ held
    | _ => True
  assumes held op :=
    op.Proceeds held ∧
      match op with
      | .reach (.loadPage p) => strict = true → fileLock ∈ held → p.usesFile = false
      | .reach (.stackGrowth g) => strict = true → fileLock ∈ held → g.usesFile = false
      | _ => True

variable {strict : Bool} {held : Finset Lock} {E : Finset Lock → Prop} {p : Process} {fd : ℤ}

/-! ## Single operations -/

section

variable {Q : Unit → Finset Lock → Prop} {l : Lock}

/-- A lock is acquired, or the thread does not get past the assertion. -/
theorem acquire_spec (h : strict = true → l ∉ held ∧ swapLock ∉ held)
    (hQ : l ∉ held → Q () (insert l held)) :
    (discipline strict).wpCode (lockAcquire l) Q E held :=
  Discipline.wpCode_acquire.mpr ⟨h, fun ha => hQ ha.1⟩

theorem release_spec (h : strict = false → l ∈ held) (hQ : Q () (held.erase l)) :
    (discipline strict).wpCode (lockRelease l) Q E held :=
  Discipline.wpCode_release.mpr ⟨h, fun _ => hQ⟩

theorem reach_spec {m : Place} (h : (discipline strict).demands held (.reach m))
    (hQ : (discipline strict).assumes held (.reach m) → Q () held) :
    (discipline strict).wpCode (reach m) Q E held :=
  Discipline.wpCode_reach.mpr ⟨h, hQ⟩

theorem stop_spec {α : Type} {Q : α → Finset Lock → Prop} :
    (discipline strict).wpCode (stop : Code α) Q E held :=
  ⟨trivial, fun ha => ha.1.elim⟩

/-- A lock that is acquired and released at once. -/
theorem bracket_spec (h : strict = true → l ∉ held ∧ swapLock ∉ held) (hQ : Q () held) :
    (discipline strict).wpCode (do lockAcquire l; lockRelease l) Q E held := by
  rw [Discipline.wpCode_bind]
  refine acquire_spec h ?_
  intro hl
  refine release_spec (fun _ => Finset.mem_insert_self l held) ?_
  rw [Finset.erase_insert hl]
  exact hQ

end

/-! ## Paging -/

/-- The thread is not in the middle of the functions for frames and swap slots. -/
structure Clear (held : Finset Lock) : Prop where
  frameTblLock : frameTblLock ∉ held
  swapLock : swapLock ∉ held

theorem clear_empty : Clear ∅ := ⟨Finset.notMem_empty _, Finset.notMem_empty _⟩

theorem clear_file : Clear {fileLock} := ⟨by decide, by decide⟩

theorem swapIn_spec {o : SwapIn} {Q : Unit → Finset Lock → Prop} (h : Clear held)
    (hQ : Q () held) : (discipline strict).wpCode (swapIn o) Q E held := by
  cases o with
  | noPartition => exact hQ
  | free =>
      unfold swapIn
      rw [Discipline.wpCode_bind]
      exact acquire_spec (fun _ => ⟨h.swapLock, h.swapLock⟩) fun _ => stop_spec
  | read => exact bracket_spec (fun _ => ⟨h.swapLock, h.swapLock⟩) hQ

theorem swapOut_spec {o : SwapOut} {Q : Unit → Finset Lock → Prop} (h : swapLock ∉ held)
    (hQ : o = .written → Q () held) : (discipline strict).wpCode (swapOut o) Q E held := by
  cases o with
  | noPartition => exact stop_spec
  | full =>
      unfold swapOut
      rw [Discipline.wpCode_bind]
      exact acquire_spec (fun _ => ⟨h, h⟩) fun _ => stop_spec
  | written => exact bracket_spec (fun _ => ⟨h, h⟩) (hQ rfl)

/-- `evict_frame` returns with `frame_tbl_lock`. -/
theorem evictFrame_spec {o : Eviction} {Q : Unit → Finset Lock → Prop} (h : Clear held)
    (hfile : strict = true → o = .mmap → fileLock ∉ held)
    (hQ : o.returns = true → Q () (insert frameTblLock held)) :
    (discipline strict).wpCode (evictFrame o) Q E held := by
  have hswap : swapLock ∉ insert frameTblLock held := by
    rw [Finset.mem_insert, not_or]
    exact ⟨by decide, h.swapLock⟩
  unfold evictFrame
  rw [Discipline.wpCode_bind]
  refine acquire_spec (fun _ => ⟨h.frameTblLock, h.swapLock⟩) fun _ => ?_
  cases o with
  | allPinned => exact stop_spec
  | clean => exact hQ rfl
  | mmap =>
      refine bracket_spec (fun hs => ⟨?_, hswap⟩) (hQ rfl)
      rw [Finset.mem_insert, not_or]
      exact ⟨by decide, hfile hs rfl⟩
  | swap o => exact swapOut_spec hswap fun ho => hQ (decide_eq_true ho)

theorem evictLoop_spec {os : List Eviction} {Q : Unit → Finset Lock → Prop} (h : Clear held)
    (hfile : strict = true → writesMapping os = true → fileLock ∉ held)
    (hQ : os.all Eviction.returns = true → Q () held) :
    (discipline strict).wpCode (evictLoop os) Q E held := by
  induction os with
  | nil => exact hQ rfl
  | cons o os ih =>
      unfold evictLoop
      rw [Discipline.wpCode_bind]
      refine evictFrame_spec h (fun hs ho => hfile hs ?_) ?_
      · unfold writesMapping
        rw [decide_eq_true ho, Bool.true_or]
      · intro hret
        rw [Discipline.wpCode_bind]
        refine release_spec (fun _ => Finset.mem_insert_self ..) ?_
        rw [Finset.erase_insert h.frameTblLock]
        refine ih (fun hs hw => hfile hs ?_) fun hall => hQ ?_
        · unfold writesMapping
          rw [hret, hw, Bool.true_and, Bool.or_true]
        · rw [List.all_cons, hret, hall, Bool.true_and]

theorem frameAlloc_spec {o : Allocation} {Q : Unit → Finset Lock → Prop} (h : Clear held)
    (hfile : strict = true → writesMapping o.evictions = true → fileLock ∉ held)
    (hQ : o.returns = true → Q () held) :
    (discipline strict).wpCode (frameAlloc o) Q E held := by
  unfold frameAlloc
  rw [Discipline.wpCode_bind]
  refine evictLoop_spec h hfile ?_
  intro hall
  unfold addFrameToTbl
  cases hm : o.malloc with
  | false => exact stop_spec
  | true =>
      refine bracket_spec (fun _ => ⟨h.frameTblLock, h.swapLock⟩) (hQ ?_)
      unfold Allocation.returns
      rw [hall, hm, Bool.true_and]

theorem freeFrame_spec {Q : Unit → Finset Lock → Prop} (h : Clear held) (hQ : Q () held) :
    (discipline strict).wpCode freeFrame Q E held :=
  bracket_spec (fun _ => ⟨h.frameTblLock, h.swapLock⟩) hQ

section

variable {Q : Bool → Finset Lock → Prop}

theorem freeFrame_false_spec (h : Clear held) (hQ : ∀ b, Q b held) :
    (discipline strict).wpCode (do freeFrame; return false) Q E held := by
  rw [Discipline.wpCode_bind]
  exact freeFrame_spec h (hQ false)

theorem installFile_spec {o : FileLoad} (h : Clear held) (hQ : ∀ b, Q b held) :
    (discipline strict).wpCode (installFile o) Q E held := by
  unfold installFile
  split
  · exact hQ true
  · exact freeFrame_false_spec h hQ

theorem loadFile_spec {o : FileLoad} (h : Clear held)
    (hfile : strict = true → o.usesFile = true → fileLock ∉ held) (hQ : ∀ b, Q b held) :
    (discipline strict).wpCode (loadFile o) Q E held := by
  unfold loadFile
  rw [Discipline.wpCode_bind]
  refine frameAlloc_spec h (fun hs hw => hfile hs ?_) ?_
  · unfold FileLoad.usesFile
    rw [hw, Bool.true_or]
  · intro hret
    split
    next hread =>
      have huses : o.usesFile = true := by
        unfold FileLoad.usesFile
        rw [hret, decide_eq_true hread, Bool.true_and, Bool.or_true]
      rw [Discipline.wpCode_bind]
      refine acquire_spec (fun hs => ⟨hfile hs huses, h.swapLock⟩) fun hl => ?_
      have hrelease : ∀ {c : Code Bool}, (discipline strict).wpCode c Q E held →
          (discipline strict).wpCode (do lockRelease fileLock; c) Q E (insert fileLock held) := by
        intro c hc
        rw [Discipline.wpCode_bind]
        refine release_spec (fun _ => Finset.mem_insert_self ..) ?_
        rw [Finset.erase_insert hl]
        exact hc
      split
      · exact hrelease (installFile_spec h hQ)
      · exact hrelease (freeFrame_false_spec h hQ)
    next => exact installFile_spec h hQ

theorem loadSwap_spec {o : SwapLoad} (h : Clear held)
    (hfile : strict = true → writesMapping o.allocation.evictions = true → fileLock ∉ held)
    (hQ : ∀ b, Q b held) : (discipline strict).wpCode (loadSwap o) Q E held := by
  unfold loadSwap
  rw [Discipline.wpCode_bind]
  refine frameAlloc_spec h hfile ?_
  intro _
  split
  · rw [Discipline.wpCode_bind]
    exact swapIn_spec h (hQ true)
  · exact freeFrame_false_spec h hQ

/-- `load_page`. That it does not use files while the thread holds `file_lock` is
assumed where it begins. -/
theorem loadPage_spec {o : PageLoad} (h : Clear held) (hQ : ∀ b, Q b held) :
    (discipline strict).wpCode (loadPage o) Q E held := by
  unfold loadPage
  rw [Discipline.wpCode_bind]
  refine reach_spec trivial ?_
  intro ha
  have hfile : strict = true → o.usesFile = true → fileLock ∉ held := by
    intro hs huses hmem
    rw [ha.2 hs hmem] at huses
    cases huses
  cases o with
  | loaded => exact hQ false
  | file o => exact loadFile_spec h hfile hQ
  | swap o => exact loadSwap_spec h hfile hQ
  | mmap o => exact loadFile_spec h hfile hQ
  | hashError => exact hQ false

theorem stackGrowth_spec {g : StackGrowth} (h : Clear held) (hQ : ∀ b, Q b held) :
    (discipline strict).wpCode (stackGrowth g) Q E held := by
  unfold stackGrowth
  rw [Discipline.wpCode_bind]
  refine reach_spec trivial ?_
  intro ha
  split
  next hmalloc =>
    rw [Discipline.wpCode_bind]
    refine frameAlloc_spec h ?_ ?_
    · intro hs hw hmem
      have hno := ha.2 hs hmem
      unfold StackGrowth.usesFile at hno
      rw [hmalloc.1, hmalloc.2, hw] at hno
      cases hno
    · intro _
      split
      · exact hQ _
      · exact freeFrame_false_spec h hQ
  next => exact hQ false

end

section

variable {Q : Unit → Finset Lock → Prop}

theorem pageFault_spec {f : Fault} {kill : Code Unit} (h : Clear held) (hQ : Q () held)
    (hkill : (discipline strict).wpCode kill Q E held) :
    (discipline strict).wpCode (pageFault kill f) Q E held := by
  have hend : ∀ load : Bool,
      (discipline strict).wpCode (if load then pure () else kill) Q E held := by
    intro load
    cases load with
    | false => exact hkill
    | true => exact hQ
  unfold pageFault
  cases f with
  | invalid => exact hend false
  | page o =>
      rw [Discipline.wpCode_bind]
      exact loadPage_spec h hend
  | growth g =>
      rw [Discipline.wpCode_bind]
      exact stackGrowth_spec h hend

theorem access_spec {fs : List Fault} (h : Clear held) (hQ : Q () held) :
    (discipline strict).wpCode (access fs) Q E held := by
  induction fs with
  | nil => exact hQ
  | cons f fs ih =>
      unfold access
      rw [Discipline.wpCode_bind]
      exact pageFault_spec h ih stop_spec

/-! ## Leaving -/

/-- What a thread that holds no lock does with `file_lock`, and what comes after it. -/
theorem withFileLock_spec {c rest : Code Unit}
    (hc : ∀ {Q : Unit → Finset Lock → Prop}, Q () {fileLock} →
      (discipline strict).wpCode c Q E {fileLock})
    (hrest : (discipline strict).wpCode rest Q E ∅) :
    (discipline strict).wpCode (do lockAcquire fileLock; c; lockRelease fileLock; rest) Q E ∅ := by
  rw [Discipline.wpCode_bind]
  refine acquire_spec (fun _ => ⟨Finset.notMem_empty _, Finset.notMem_empty _⟩) fun _ => ?_
  rw [Discipline.wpCode_bind]
  apply hc
  rw [Discipline.wpCode_bind]
  exact release_spec (fun _ => Finset.mem_singleton_self _) hrest

theorem fileSection_spec {c : Code Unit}
    (hc : ∀ {Q : Unit → Finset Lock → Prop}, Q () {fileLock} →
      (discipline strict).wpCode c Q E {fileLock}) (hQ : Q () ∅) :
    (discipline strict).wpCode (do lockAcquire fileLock; c; lockRelease fileLock) Q E ∅ := by
  rw [Discipline.wpCode_bind]
  refine acquire_spec (fun _ => ⟨Finset.notMem_empty _, Finset.notMem_empty _⟩) fun _ => ?_
  rw [Discipline.wpCode_bind]
  apply hc
  exact release_spec (fun _ => Finset.mem_singleton_self _) hQ

theorem fileBracket_spec (hQ : Q () ∅) :
    (discipline strict).wpCode (do lockAcquire fileLock; lockRelease fileLock) Q E ∅ :=
  bracket_spec (fun _ => ⟨Finset.notMem_empty _, Finset.notMem_empty _⟩) hQ

theorem closePending_spec {f : Bool} (hQ : Q () ∅) :
    (discipline strict).wpCode (closePending f) Q E ∅ := by
  unfold closePending
  split
  · exact fileBracket_spec hQ
  · exact hQ

theorem unloadMmap_spec {mm : MmapPage} (hQ : Q () ∅) :
    (discipline strict).wpCode (unloadMmap mm) Q E ∅ := by
  have hfree : (discipline strict).wpCode freeFrame Q E ∅ := freeFrame_spec clear_empty hQ
  unfold unloadMmap
  dsimp only
  split
  · exact withFileLock_spec (access_spec clear_file) hfree
  · exact hfree

theorem removeMmapLoop_spec {mapping close : ℤ} {l : List MmapPage} {f : Bool} (hQ : Q () ∅) :
    (discipline strict).wpCode (removeMmapLoop mapping l f close) Q E ∅ := by
  induction l generalizing f close with
  | nil => exact closePending_spec hQ
  | cons mm rest ih =>
      unfold removeMmapLoop
      split
      · have hclose : (discipline strict).wpCode (if mm.mapid ≠ close then do
            closePending f
            removeMmapLoop mapping rest true mm.mapid
          else removeMmapLoop mapping rest f close) Q E ∅ := by
          split
          · rw [Discipline.wpCode_bind]
            exact closePending_spec ih
          · exact ih
        dsimp only
        split
        · rw [Discipline.wpCode_bind]
          exact unloadMmap_spec hclose
        · exact hclose
      · exact ih

theorem pageTableRm_spec {pages : List Bool} (hQ : Q () ∅) :
    (discipline strict).wpCode (pageTableRm pages) Q E ∅ := by
  induction pages with
  | nil => exact hQ
  | cons isLoaded rest ih =>
      unfold pageTableRm
      dsimp only
      split
      · rw [Discipline.wpCode_bind]
        exact freeFrame_spec clear_empty ih
      · exact ih

theorem processExit_spec (hQ : Q () ∅) :
    (discipline strict).wpCode (processExit p) Q E ∅ := by
  unfold processExit
  have hrest : (discipline strict).wpCode
      (do processRemoveMmap p.mmapList Vm.closeAll; pageTableRm p.pages) Q E ∅ := by
    rw [Discipline.wpCode_bind]
    exact removeMmapLoop_spec (pageTableRm_spec hQ)
  rw [Discipline.wpCode_bind]
  refine acquire_spec (fun _ => ⟨Finset.notMem_empty _, Finset.notMem_empty _⟩) fun _ => ?_
  rw [Discipline.wpCode_bind]
  exact release_spec (fun _ => Finset.mem_singleton_self _) hrest

end

theorem threadExit_spec {α : Type} {Q : α → Finset Lock → Prop} (hE : E ∅) :
    (discipline strict).wpCode (threadExit p : Code α) Q E ∅ := by
  unfold threadExit
  rw [Discipline.wpCode_bind]
  refine reach_spec (fun _ => Finset.notMem_empty _) fun _ => ?_
  rw [Discipline.wpCode_bind]
  exact processExit_spec (Discipline.wpCode_leave.mpr hE)

theorem exit_spec {α : Type} {Q : α → Finset Lock → Prop} (hE : E ∅) :
    (discipline strict).wpCode (exit p : Code α) Q E ∅ :=
  threadExit_spec hE

/-! ## System calls -/

section

variable {Q : Unit → Finset Lock → Prop}

/-- The check of a pointer at the beginning of a system call. -/
theorem checked_spec {bad : Prop} [Decidable bad] {c : Code Unit} (hE : E ∅)
    (hc : (discipline strict).wpCode c Q E ∅) :
    (discipline strict).wpCode (do
      if bad then exit p
      c) Q E ∅ := by
  dsimp only
  split
  · rw [Discipline.wpCode_bind]
    exact exit_spec hE
  · exact hc

theorem exec_spec {cmdLine : Vm.Vaddr} {name : List Fault} (hQ : Q () ∅) (hE : E ∅) :
    (discipline strict).wpCode (exec p cmdLine name) Q E ∅ := by
  unfold exec
  exact checked_spec hE (access_spec clear_empty hQ)

theorem create_spec {file : Vm.Vaddr} {name : List Fault} (hQ : Q () ∅) (hE : E ∅) :
    (discipline strict).wpCode (create p file name) Q E ∅ := by
  unfold create
  exact checked_spec hE (fileSection_spec (access_spec clear_file) hQ)

theorem remove_spec {file : Vm.Vaddr} {name nameAgain : List Fault} {opened : Bool}
    (hQ : Q () ∅) (hE : E ∅) :
    (discipline strict).wpCode (remove p file name opened nameAgain) Q E ∅ := by
  unfold remove
  refine checked_spec hE ?_
  rw [Discipline.wpCode_bind]
  refine acquire_spec (fun _ => ⟨Finset.notMem_empty _, Finset.notMem_empty _⟩) fun _ => ?_
  rw [Discipline.wpCode_bind]
  refine access_spec clear_file ?_
  have hend : (discipline strict).wpCode (lockRelease fileLock) Q E {fileLock} :=
    release_spec (fun _ => Finset.mem_singleton_self _) hQ
  split
  · rw [Discipline.wpCode_bind]
    exact access_spec clear_file hend
  · exact hend

theorem openFile_spec {file : Vm.Vaddr} {name : List Fault} {malloc opened : Bool}
    (hQ : Q () ∅) (hE : E ∅) :
    (discipline strict).wpCode (openFile p file malloc name opened) Q E ∅ := by
  unfold openFile
  refine checked_spec hE ?_
  rw [Discipline.wpCode_bind]
  refine acquire_spec (fun _ => ⟨Finset.notMem_empty _, Finset.notMem_empty _⟩) fun _ => ?_
  rw [Discipline.wpCode_bind]
  refine access_spec clear_file ?_
  have hend : (discipline strict).wpCode (lockRelease fileLock) Q E {fileLock} :=
    release_spec (fun _ => Finset.mem_singleton_self _) hQ
  split
  · split
    · exact hend
    · exact stop_spec
  · exact hend

/-- The transfer of data in `read` and `write`. -/
theorem transfer_spec {bad console : Prop} [Decidable bad] [Decidable console]
    {faults : List Fault} (hQ : Q () ∅) (hE : E ∅) :
    (discipline strict).wpCode (do
      if bad then exit p
      lockAcquire fileLock
      if console then
        access faults
      else
        match getFile p fd with
        | none => pure ()
        | some _ => access faults
      lockRelease fileLock) Q E ∅ := by
  refine checked_spec hE ?_
  rw [Discipline.wpCode_bind]
  refine acquire_spec (fun _ => ⟨Finset.notMem_empty _, Finset.notMem_empty _⟩) fun _ => ?_
  have hend : (discipline strict).wpCode (lockRelease fileLock) Q E {fileLock} :=
    release_spec (fun _ => Finset.mem_singleton_self _) hQ
  have haccess : (discipline strict).wpCode (do access faults; lockRelease fileLock) Q E
      {fileLock} := by
    rw [Discipline.wpCode_bind]
    exact access_spec clear_file hend
  dsimp only
  split
  · exact haccess
  · split
    · exact hend
    · exact haccess

/-- `seek`, if it finds the file. -/
theorem seek_spec (hfile : getFile p fd ≠ none) (hQ : Q () ∅) :
    (discipline strict).wpCode (seek p fd) Q E ∅ := by
  unfold seek
  cases hget : getFile p fd with
  | none => exact absurd hget hfile
  | some f => exact fileBracket_spec hQ

theorem mmap_spec {addr : Vm.Vaddr} {o : Mapping} (hQ : Q () ∅) :
    (discipline strict).wpCode (mmap p fd addr o) Q E ∅ := by
  unfold mmap
  split
  · exact hQ
  · split
    · exact hQ
    · split
      · exact hQ
      · split
        · exact hQ
        · exact removeMmapLoop_spec hQ

theorem checkValidPtr_spec {ptr : Pointer} (hQ : Q () ∅) (hE : E ∅) :
    (discipline strict).wpCode (checkValidPtr p ptr) Q E ∅ := by
  have hend : ∀ load : Bool,
      (discipline strict).wpCode (if load then pure () else exit p) Q E ∅ := by
    intro load
    cases load with
    | false => exact exit_spec hE
    | true => exact hQ
  unfold checkValidPtr
  cases ptr with
  | outside =>
      rw [Discipline.wpCode_bind]
      exact exit_spec hE
  | page o =>
      rw [Discipline.wpCode_bind]
      exact loadPage_spec clear_empty fun success => hend _
  | growth g =>
      rw [Discipline.wpCode_bind]
      exact stackGrowth_spec clear_empty hend
  | unmapped => exact hend false

theorem getArg_spec {args : List (Pointer × List Fault)} (hQ : Q () ∅) (hE : E ∅) :
    (discipline strict).wpCode (getArg p args) Q E ∅ := by
  induction args with
  | nil => exact hQ
  | cons arg rest ih =>
      unfold getArg
      rw [Discipline.wpCode_bind]
      refine checkValidPtr_spec ?_ hE
      rw [Discipline.wpCode_bind]
      exact access_spec clear_empty ih

/-- A system call that is not a `seek` of a descriptor without a file. -/
theorem syscall_spec {c : Syscall} (hseek : ∀ fd, c = .seek fd → getFile p fd ≠ none)
    (hQ : Q () ∅) (hE : E ∅) : (discipline strict).wpCode (c.code p) Q E ∅ := by
  cases c with
  | halt => exact stop_spec
  | exit => exact exit_spec hE
  | exec => exact exec_spec hQ hE
  | wait => exact hQ
  | create => exact create_spec hQ hE
  | remove => exact remove_spec hQ hE
  | openFile => exact openFile_spec hQ hE
  | filesize => exact fileBracket_spec hQ
  | read => exact transfer_spec hQ hE
  | write => exact transfer_spec hQ hE
  | seek fd => exact seek_spec (hseek fd rfl) hQ
  | tell => exact fileBracket_spec hQ
  | close => exact fileBracket_spec hQ
  | mmap args fd addr o =>
      unfold Syscall.code
      rw [Discipline.wpCode_bind]
      exact getArg_spec (mmap_spec hQ) hE
  | munmap args mapping =>
      unfold Syscall.code
      rw [Discipline.wpCode_bind]
      exact getArg_spec (removeMmapLoop_spec hQ) hE
  | invalid => exact threadExit_spec hE

theorem userMode_spec (hQ : Q () ∅) :
    (discipline strict).wpCode (reach .userMode) Q E ∅ :=
  reach_spec (fun _ => Finset.notMem_empty _) fun _ => hQ

theorem serve_spec {c : Syscall} (hseek : ∀ fd, c = .seek fd → getFile p fd ≠ none)
    (hQ : Q () ∅) (hE : E ∅) : (discipline strict).wpCode (serve p c) Q E ∅ := by
  unfold serve
  rw [Discipline.wpCode_bind]
  exact syscall_spec hseek (userMode_spec hQ) hE

theorem syscallHandler_spec {esp : Vm.Vaddr} {reads : List Fault} {c : Syscall}
    (hseek : ∀ fd, c = .seek fd → getFile p fd ≠ none) (hQ : Q () ∅) (hE : E ∅) :
    (discipline strict).wpCode (syscallHandler p esp reads c) Q E ∅ := by
  unfold syscallHandler
  refine checked_spec hE ?_
  rw [Discipline.wpCode_bind]
  exact access_spec clear_empty (serve_spec hseek hQ hE)

end

/-! ## Loading an executable -/

section

variable {Q : Bool → Finset Lock → Prop}

theorem pushArgs_spec {args : List (Bool × List Fault)} (h : Clear held) (hQ : ∀ b, Q b held) :
    (discipline strict).wpCode (pushArgs args) Q E held := by
  induction args with
  | nil => exact hQ true
  | cons arg rest ih =>
      unfold pushArgs
      split
      · rw [Discipline.wpCode_bind]
        exact access_spec h ih
      · exact hQ false

theorem setupStack_spec {o : StackSetup} (h : Clear held) (hQ : ∀ b, Q b held) :
    (discipline strict).wpCode (setupStack o) Q E held := by
  unfold setupStack
  rw [Discipline.wpCode_bind]
  refine stackGrowth_spec h ?_
  intro grown
  cases grown with
  | false => exact hQ false
  | true =>
      show (discipline strict).wpCode (if o.malloc = true then _ else _) Q E held
      split
      · rw [Discipline.wpCode_bind]
        refine pushArgs_spec h ?_
        intro pushed
        cases pushed with
        | false => exact hQ false
        | true =>
            show (discipline strict).wpCode (do access o.pushes; return true) Q E held
            rw [Discipline.wpCode_bind]
            exact access_spec h (hQ true)
      · exact hQ false

/-- `load`. Without a page directory it releases a lock it does not hold, and does not
get past that. -/
theorem load_spec {o : Loading} (hpagedir : strict = false → o.pagedir = true)
    (hQ : ∀ b, Q b ∅) : (discipline strict).wpCode (load o) Q E ∅ := by
  have hend : ∀ success : Bool, (discipline strict).wpCode
      (do lockRelease fileLock; reach .loadReturns; return success) Q E {fileLock} := by
    intro success
    rw [Discipline.wpCode_bind]
    refine release_spec (fun _ => Finset.mem_singleton_self _) ?_
    rw [Discipline.wpCode_bind]
    exact reach_spec (fun _ => by decide) fun _ => hQ success
  unfold load
  dsimp only
  split
  next =>
    rw [Discipline.wpCode_bind]
    refine acquire_spec (fun _ => ⟨Finset.notMem_empty _, Finset.notMem_empty _⟩) fun _ => ?_
    rw [Discipline.wpCode_bind]
    unfold loadFileBody
    split
    · exact setupStack_spec clear_file hend
    · exact hend false
  next hno =>
    refine ⟨fun hs => absurd (hpagedir hs) hno, fun ha => ?_⟩
    exact absurd ha.1 (Finset.notMem_empty _)

end

theorem startProcess_spec {o : Loading} {Q : Unit → Finset Lock → Prop}
    (hpagedir : strict = false → o.pagedir = true) (hQ : Q () ∅) (hE : E ∅) :
    (discipline strict).wpCode (startProcess p o) Q E ∅ := by
  unfold startProcess
  rw [Discipline.wpCode_bind]
  refine load_spec hpagedir ?_
  intro success
  cases success with
  | false => exact threadExit_spec hE
  | true => exact userMode_spec hQ

theorem userFault_spec {f : Fault} {Q : Unit → Finset Lock → Prop} (hQ : Q () ∅) (hE : E ∅) :
    (discipline strict).wpCode (userFault p f) Q E ∅ := by
  unfold userFault
  rw [Discipline.wpCode_bind]
  exact pageFault_spec clear_empty (userMode_spec hQ) (threadExit_spec hE)

/-- The activity is a `seek` of a descriptor without a file. -/
def Activity.SeeksUnknown : Activity → Prop
  | .syscall p _ _ (.seek fd) => getFile p fd = none
  | _ => False

/-- The activity loads an executable without a page directory. -/
def Activity.LacksPagedir : Activity → Prop
  | .startProcess _ o => o.pagedir = false
  | _ => False

/-- What a whole function of a thread obeys, its operations obey. -/
theorem wp_of_wpCode {c : Code Unit}
    (h : (discipline strict).wpCode c (fun _ held => held = ∅) (· = ∅) ∅) :
    (discipline strict).wp c.ops (· = ∅) ∅ := by
  unfold Discipline.wpCode at h
  cases hres : c.result with
  | none =>
      rw [hres] at h
      exact h
  | some u =>
      rw [hres] at h
      exact h

/-- Activities obey the discipline. -/
theorem activity_spec {a : Activity} (hseek : ¬ a.SeeksUnknown)
    (hload : strict = false → ¬ a.LacksPagedir) : (discipline strict).wp a.ops (· = ∅) ∅ := by
  cases a with
  | syscall p esp reads c =>
      refine wp_of_wpCode (syscallHandler_spec ?_ rfl rfl)
      rintro fd rfl
      exact hseek
  | userFault p f => exact wp_of_wpCode (userFault_spec rfl rfl)
  | startProcess p o =>
      refine wp_of_wpCode (startProcess_spec (fun hs => ?_) rfl rfl)
      exact Bool.not_eq_false _ ▸ hload hs

end Pintos.Locks
