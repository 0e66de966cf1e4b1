import Pintos.Lib.Waiting
import Pintos.Synch.Elem

/-! # Round robin

A thread that is ready waits for the threads in front of it, and each of them
runs for `TIME_SLICE` ticks at most. Whatever the threads do in between, and
however many become ready behind it, it runs when it has waited that long.
-/

namespace Pintos.Synch

variable {k k' : Kernel} {p t : Ptr} {s : Sema} {a : Act} {acts : List Act} {n : ℕ}

/-- What a step with `n` ticks does to the scheduler: the running thread goes on, or the first
of the ready threads takes its place. In front of a ready thread nobody comes in. -/
inductive Turnover (k : Kernel) (n : ℕ) (k' : Kernel) : Prop where
  | stay (hready : k.readyList <+: k'.readyList)
      (hticks : k'.threadTicks = k.threadTicks + n) (hslice : n = 0 ∨ k'.threadTicks < timeSlice)
  | switch {ready : List Ptr} (hready : k.readyList <+: ready) (hrest : k'.readyList = ready.tail)
      (hfirst : ∀ t, ready.head? = some t → k'.current = t) (hticks : k'.threadTicks = 0)

/-- A thread is scheduled after the running one has entered `ready_list`, or not. -/
theorem turnover_scheduled {k₁ : Kernel} (hs : schedule k₁ = .ok k')
    (hready : k.readyList <+: k₁.readyList) : Turnover k n k' := by
  obtain ⟨-, m, hm, -, rfl⟩ := schedule_iff.mp hs
  refine .switch hready rfl (fun t ht => ?_) rfl
  have hnext : k₁.next = some t := by
    unfold Kernel.next
    rw [ht]
    rfl
  exact Option.some.inj (hm.symm.trans hnext)

theorem Turnover.same (hready : k.readyList <+: k'.readyList)
    (hticks : k'.threadTicks = k.threadTicks) : Turnover k 0 k' :=
  .stay hready hticks (.inl rfl)

theorem popWaiter_ready : k.readyList <+: (popWaiter k s).readyList := by
  unfold popWaiter
  split
  next => exact List.prefix_rfl
  next => exact List.prefix_append _ _

theorem popWaiter_threadTicks : (popWaiter k s).threadTicks = k.threadTicks := by
  unfold popWaiter
  split
  next => rfl
  next => rfl

theorem yielded_ready : k.readyList <+: (yielded k).readyList := by
  unfold yielded
  split
  next => exact List.prefix_append _ _
  next => exact List.prefix_rfl

theorem ticked_ready : (ticked k).readyList = k.readyList := same_ticked.readyList

theorem ticked_threadTicks : (ticked k).threadTicks = k.threadTicks + 1 := by
  unfold ticked countTick
  split
  next => rfl
  next =>
    split
    next => rfl
    next => rfl

theorem leaveHalt_ready : (leaveHalt k).readyList = k.readyList := by
  unfold leaveHalt
  split
  next => rfl
  next => rfl

theorem Exec.turnover (he : Exec k acts a k') : Turnover k 0 k' := by
  cases he with
  | sleep ha hv hs => exact turnover_scheduled hs List.prefix_rfl
  | take ha hv => exact .same List.prefix_rfl rfl
  | tryTake hv => exact .same List.prefix_rfl rfl
  | tryFails hv => exact .same List.prefix_rfl rfl
  | @up s hw =>
      exact .same (popWaiter_ready (k := k.setRest k.current acts))
        (popWaiter_threadTicks (k := k.setRest k.current acts))
  | checkFree hl => exact .same List.prefix_rfl rfl
  | setHolder => exact .same List.prefix_rfl rfl
  | pushLock => exact .same List.prefix_rfl rfl
  | clearHolder hl => exact .same List.prefix_rfl rfl
  | removeLock hl => exact .same List.prefix_rfl rfl
  | enqueueWaiter hl => exact .same List.prefix_rfl rfl
  | signalNone hl hc => exact .same List.prefix_rfl rfl
  | signal hl hc => exact .same List.prefix_rfl rfl
  | broadcastEnd hc => exact .same List.prefix_rfl rfl
  | broadcast hc => exact .same List.prefix_rfl rfl
  | loadTid => exact .same List.prefix_rfl rfl
  | storeTid ht => exact .same List.prefix_rfl rfl
  | setTid => exact .same List.prefix_rfl rfl
  | unblock ht => exact .same (List.prefix_append _ _) rfl
  | yield hs => exact turnover_scheduled hs (yielded_ready (k := k.setRest k.current acts))
  | finish hl hs => exact turnover_scheduled hs List.prefix_rfl
  | @releaseLock l hl hmem hw =>
      exact .same (popWaiter_ready (k := unlisted k l)) (popWaiter_threadTicks (k := unlisted k l))
  | setIdle => exact .same List.prefix_rfl rfl
  | idleBlock hs => exact turnover_scheduled hs List.prefix_rfl

/-- The ticks of a label. -/
def Label.ticks (b : Label) : ℕ := if b = .tick then 1 else 0

theorem turnover_of_step {b : Label} (h : Step k b k') : Turnover k b.ticks k' := by
  obtain ⟨-, hhappens⟩ := step_cases h
  cases hhappens with
  | @call c hc hidle =>
      cases c with
      | threadCreate t => exact .same List.prefix_rfl rfl
      | _ => exact .same List.prefix_rfl rfl
  | exec htodo he => exact he.turnover
  | tick hon ht =>
      have hready : (ticked (leaveHalt k)).readyList = k.readyList :=
        ticked_ready.trans leaveHalt_ready
      refine .stay (hready.symm ▸ List.prefix_rfl) ?_ (.inr ?_)
      · rw [ticked_threadTicks, leaveHalt_threadTicks]
        rfl
      · rw [ticked_threadTicks, leaveHalt_threadTicks]
        exact ht
  | slice hon ht hs =>
      refine turnover_scheduled hs ?_
      rw [← leaveHalt_ready, ← ticked_ready]
      exact yielded_ready
  | @device p hon hw =>
      refine .same ?_ (popWaiter_threadTicks.trans leaveHalt_threadTicks)
      rw [← leaveHalt_ready]
      exact popWaiter_ready
  | setPagedir hidle => exact .same List.prefix_rfl rfl

/-! ## Waiting for the processor -/

/-- The running thread has not used up its time slice. -/
theorem Turnover.slice (h : Turnover k n k') (hk : k.threadTicks < timeSlice) :
    k'.threadTicks < timeSlice := by
  cases h with
  | stay hready hticks hslice =>
      rcases hslice with rfl | hlt
      · rw [hticks]
        exact hk
      · exact hlt
  | switch hready hrest hfirst hticks =>
      rw [hticks]
      exact Nat.succ_pos 3

theorem Reachable.slice (h : Reachable k) : k.threadTicks < timeSlice := by
  obtain ⟨k₀, ⟨listed, main, p, started, value, hne, rfl⟩, hreach⟩ := h
  exact hreach.invariant (P := fun k => k.threadTicks < timeSlice)
    (fun _ _ _ hs hk => (turnover_of_step hs).slice hk) (Nat.succ_pos 3)

/-- The ticks that a thread has to wait at most, before the last one. -/
def ticksAhead (t : Ptr) (k : Kernel) : ℕ :=
  timeSlice * k.readyList.idxOf t + (timeSlice - 1 - k.threadTicks)

theorem idxOf_tail {ready : List Ptr} (hmem : t ∈ ready) (hfirst : ready.head? ≠ some t) :
    t ∈ ready.tail ∧ ready.idxOf t = ready.tail.idxOf t + 1 := by
  cases ready with
  | nil => exact absurd hmem List.not_mem_nil
  | cons u ready =>
      have hne : u ≠ t := fun heq => hfirst (congrArg some heq)
      refine ⟨(List.mem_cons.mp hmem).resolve_left (Ne.symm hne), ?_⟩
      exact List.idxOf_cons_ne _ hne

/-- A thread that is ready runs, or comes nearer with every tick. -/
theorem Turnover.nearer (h : Turnover k n k') (hn : n ≤ 1) (hk : k.threadTicks < timeSlice)
    (ht : t ∈ k.readyList) : k'.current = t ∨
      t ∈ k'.readyList ∧ ticksAhead t k' + n ≤ ticksAhead t k := by
  cases h with
  | stay hready hticks hslice =>
      right
      refine ⟨hready.subset ht, ?_⟩
      unfold ticksAhead
      unfold timeSlice at hk hslice ⊢
      rw [hready.idxOf_eq_of_mem ht]
      omega
  | @switch ready hready hrest hfirst hticks =>
      by_cases hhead : ready.head? = some t
      · exact .inl (hfirst t hhead)
      · obtain ⟨hmem, hidx⟩ := idxOf_tail (hready.subset ht) hhead
        right
        unfold ticksAhead
        unfold timeSlice at hk ⊢
        rw [hrest, hticks]
        refine ⟨hmem, ?_⟩
        rw [← hready.idxOf_eq_of_mem ht] at hidx
        omega

theorem sum_ticks (bs : List Label) : (bs.map Label.ticks).sum = bs.count .tick := by
  induction bs with
  | nil => rfl
  | cons b bs ih =>
      rw [List.map_cons, List.sum_cons, ih, List.count_cons, Nat.add_comm]
      simp [Label.ticks]

/-- A ready thread with `i` threads in front of it runs before `i + 1` time slices have gone
by, of which the running thread has used up `thread_ticks`: in every run with so many timer
interrupts, whatever else happens in it. -/
theorem runs_in_turn (h : Reachable k) {bs : List Label} (hrun : Lts.Run Step k bs k')
    (ht : t ∈ k.readyList)
    (hlong : timeSlice * (k.readyList.idxOf t + 1) ≤ k.threadTicks + bs.count .tick) :
    ∃ bs₁ bs₂ m, bs = bs₁ ++ bs₂ ∧ Lts.Run Step k bs₁ m ∧ m.current = t ∧
      Lts.Run Step m bs₂ k' := by
  have hslice := h.slice
  refine Waiting.passes_goal (fun k => k.threadTicks < timeSlice ∧ t ∈ k.readyList)
    (fun k => k.current = t) Label.ticks (ticksAhead t) (fun m b m' hstep hm => ?_) hrun
    ⟨hslice, ht⟩ ?_
  · obtain ⟨hm, htm⟩ := hm
    have hturn := turnover_of_step hstep
    have hone : b.ticks ≤ 1 := by
      unfold Label.ticks
      split
      next => exact le_rfl
      next => exact Nat.zero_le _
    rcases hturn.nearer hone hm htm with hgoal | ⟨hmem, hle⟩
    · exact .inl hgoal
    · exact .inr ⟨⟨hturn.slice hm, hmem⟩, hle⟩
  · rw [sum_ticks]
    unfold ticksAhead
    unfold timeSlice at hslice hlong ⊢
    omega

theorem runs_in_turn_creation : ∃ k k' m, Reachable k ∧ k.readyList = [5] ∧
    Lts.Run Step k (List.replicate 4 .tick) k' ∧ m.current = 5 ∧ Lts.Reaches Step k m := by
  obtain ⟨k, hk, -, hw⟩ := reachable_of_check creation
    (fun k => decide (k.readyList = [5]) &&
      (runLabels (List.replicate 4 .tick) k).toOption.isSome) (by decide +kernel)
  obtain ⟨hready, hsome⟩ := Bool.and_eq_true_iff.mp hw
  have hready := of_decide_eq_true hready
  obtain ⟨k', hk'⟩ := Option.isSome_iff_exists.mp hsome
  have hrun := run_of_runLabels hk'
  obtain ⟨bs₁, bs₂, m, -, hreach, hcur, -⟩ := runs_in_turn (t := 5) hk hrun
    (by rw [hready]; exact List.mem_cons_self) (by rw [hready]; exact Nat.le_add_left 4 _)
  exact ⟨k, k', m, hk, hready, hrun, hcur, bs₁, hreach⟩

end Pintos.Synch
