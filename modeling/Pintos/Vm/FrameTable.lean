import Pintos.Vm.Effects

/-! # The frame table

Between any two operations of any processes, the frame table, the page
directories, the supplemental page tables and the user pool describe the same
assignment of frames to pages.
-/

namespace Pintos.Vm

variable {k k' : Kernel} {a : Act} {m : Machine}

/-- The frame table describes the frames of a machine. -/
structure FrameTable (m : Machine) (k : Kernel) : Prop where
  /-- No frame is in the table twice, or in the table and free. -/
  distinct : (k.frameTblList.map (·.frame) ++ k.freePages).Nodup
  /-- The frames in the table and the free ones are the user pool. -/
  pool : (k.frameTblList.map (·.frame) ++ k.freePages).Perm m.pool
  /-- What the table lists is a loaded page of a live process, which is mapped
  to that frame. -/
  resident : ∀ fte ∈ k.frameTblList, k.Live fte.thread ∧
    ∃ e pte, Entry k fte.thread fte.spte e ∧ e.isLoaded = true ∧
      k.pteOf fte.thread e.unusedVirtualAddress = some pte ∧ pte.frame = fte.frame
  /-- A loaded page has exactly one entry in the table. -/
  loaded : ∀ t p e, Entry k t p e → e.isLoaded = true →
    ∃ fte ∈ k.frameTblList, fte.thread = t ∧ fte.spte = p ∧
      ∀ fte' ∈ k.frameTblList, fte'.spte = p → fte' = fte
  /-- A page that is present is loaded. -/
  present : ∀ t va pte, k.pteOf t va = some pte →
    ∃ p e, Entry k t p e ∧ e.unusedVirtualAddress = va ∧ e.isLoaded = true

theorem fixed_step (h : Settled k) (hs : Step k a k') :
    k'.listed = k.listed ∧ k'.userPool = k.userPool := by
  have heff := step_effect h.sound h.noneExiting hs
  cases heff with
  | changes ha hc => exact hc.fixed
  | killed ha ht hc => exact hc.fixed
  | store hst =>
      rcases userStore_ok hst with ⟨pte, _, _, rfl⟩
      exact ⟨rfl, rfl⟩
  | write hf ho =>
      unfold inodeWriteAt
      split <;> exact ⟨rfl, rfl⟩
  | start ht hfile hc => exact hc.fixed
  | leave ht hc => exact hc.fixed

theorem listed_step (h : Settled k) (hs : Step k a k') : k'.listed = k.listed :=
  (fixed_step h hs).1

theorem userPool_step (h : Settled k) (hs : Step k a k') : k'.userPool = k.userPool :=
  (fixed_step h hs).2

theorem fixed_of_reachable (h : Reachable m k) : k.listed = m.listed ∧ k.userPool = m.pool := by
  have hgen : Settled k ∧ k.listed = m.listed ∧ k.userPool = m.pool :=
    h.invariant (P := fun x => Settled x ∧ x.listed = m.listed ∧ x.userPool = m.pool)
      (fun _ _ _ hs hi => ⟨hi.1.step hs, (listed_step hi.1 hs).trans hi.2.1,
        (userPool_step hi.1 hs).trans hi.2.2⟩)
      ⟨settled_boot m, rfl, rfl⟩
  exact hgen.2

theorem listed_of_reachable (h : Reachable m k) : k.listed = m.listed := (fixed_of_reachable h).1

theorem userPool_of_reachable (h : Reachable m k) : k.userPool = m.pool :=
  (fixed_of_reachable h).2

/-- A process that still has pages between two operations is live. -/
theorem Settled.live (h : Settled k) {t : Tid} {p : Ptr} {e : Spte} (he : Entry k t p e) :
    k.Live t := by
  have habs := h.sound.tables.living t p he.mem
  have hexit := h.noneExiting t
  unfold Kernel.Live
  cases hs : k.status t with
  | absent => exact absurd hs habs
  | alive => exact .inl rfl
  | killed => exact .inr rfl
  | exiting => exact absurd hs hexit

/-- The frame table is consistent in every reachable state. -/
theorem frame_table_consistent (h : Reachable m k) : FrameTable m k := by
  have hset := settled_of_reachable h
  have htbl := hset.sound.tables
  have hpool := userPool_of_reachable h
  refine ⟨htbl.frameNodup, hpool ▸ htbl.pool, ?_, ?_, htbl.mapped⟩
  · intro fte hfte
    rcases htbl.resident fte hfte with ⟨e, pte, he, hl, hpte, hframe⟩
    exact ⟨hset.live he, e, pte, he, hl, hpte, hframe⟩
  · intro t p e he hl
    rcases htbl.listed t p e he hl with ⟨f, hf⟩
    exact ⟨_, hf, rfl, rfl, fun fte' hfte' heq => htbl.fte_eq_of_spte hfte' hf heq⟩

/-! ## A run with evictions -/

theorem nodup_twoPages : ([0, 1] : List Frame).Nodup := by decide

theorem length_threeBytes : [(7 : UInt8), 8, 9].length < 2 ^ 31 := by decide

/-- A machine with two pages for users, two swap slots and an executable of three
bytes. -/
def twoFrames : Machine where
  listed := true
  pool := [0, 1]
  pool_nodup := nodup_twoPages
  mem := fun _ => zeroPage
  swapBlock := some (16, fun _ _ => 0)
  inodes := fun i => if i = 1 then some ⟨[7, 8, 9], length_threeBytes⟩ else none

/-- An environment in which everything succeeds and `malloc` returns the
addresses from `base` on. -/
def generous (base : ℕ) : Env where
  malloc := fun n => some (base + n)
  mallocFile := some base
  mallocFte := true
  pagedirCreate := true
  mallocMmap := fun _ => true
  setPage := true
  pick := 0
  garbage := zeroPage
  rounds := 10

/-- A process stores to a page of its executable; the page is swapped out for a
second one, and swapped in again for a load. -/
def swapRun : List Act :=
  [.load 1 1 [⟨0, 0x08049000, 3, 8189, true⟩] (generous 100),
   .pageFault 1 0x08049001 0xbffffff0 (generous 200),
   .userStore 1 0x08049002 42,
   .pageFault 1 0x0804a000 0xbffffff0 (generous 300),
   .pageFault 1 0x08049001 0xbffffff0 (generous 400),
   .userLoad 1 0x08049002]

theorem frame_table_consistent_run : ∃ k, Reachable twoFrames k ∧
    k.frameTblList = [⟨0, 1, 102⟩, ⟨1, 1, 100⟩] ∧ FrameTable twoFrames k := by
  have hrun : (runActs twoFrames.boot swapRun).toOption.map (·.frameTblList) =
      some [⟨0, 1, 102⟩, ⟨1, 1, 100⟩] := by decide +kernel
  rcases Option.map_eq_some_iff.mp hrun with ⟨k, hk, htable⟩
  have hreach : Reachable twoFrames k := ⟨swapRun, run_of_runActs (Lts.eq_ok_of_toOption hk)⟩
  exact ⟨k, hreach, htable, frame_table_consistent hreach⟩

end Pintos.Vm
