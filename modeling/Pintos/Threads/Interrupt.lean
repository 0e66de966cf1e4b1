import Pintos.Threads.Alarm

/-! # One timer interrupt against its reference

The loop of `timer_interrupt` looks at `wait_list` from the front, pops while
the front is due and inserts each thread it pops into `ready_list`. The
reference scans the whole of `wait_list`, sorts what is due and sorts it into
`ready_list`. That the two agree rests on the order of `wait_list`: by wake-up
tick and, among equal ticks, by the moment of going to sleep (`Slept`), which
the strict comparison of `least_sleep` keeps in every reachable state.
-/

namespace Pintos.Threads

open OrderedInsert

variable {main idle t u : Tid} {k k' : Kernel} {a : Act} {as : List Act}

/-- The moment of the last `timer_sleep` call of `t`, counted in events since
the start: when the call, with interrupts off, inserts its thread into
`wait_list`. The history is newest first. -/
def sleptAt (hist : List Event) (t : Tid) : ℕ := hist.length - hist.idxOf (.sleep t)

/-! ## The reference -/

/-- What a scan of the whole `wait_list` finds due at tick `now`. -/
def scan (k : Kernel) (now : Int64) : List Tid := k.waitList.filter fun t => k.wakeTickOf t ≤ now

/-- The order by wake-up tick and, for equal ticks, by `timer_sleep` call. -/
def wakesFirst (k : Kernel) (a b : Tid) : Bool :=
  k.wakeTickOf a < k.wakeTickOf b ∨
    k.wakeTickOf a = k.wakeTickOf b ∧ sleptAt k.hist a ≤ sleptAt k.hist b

/-- The woken threads: everybody who is due at tick `now`, in that order. -/
def woken (k : Kernel) (now : Int64) : List Tid := (scan k now).mergeSort (wakesFirst k)

/-- `wait_list` and `ready_list` after a timer interrupt, by the reference:
whoever is due leaves the one and is sorted into the other, which is ordered by
descending priority. The sort is stable. -/
def timerReference (k : Kernel) : List Tid × List Tid :=
  (k.waitList.filter fun t => ¬ k.wakeTickOf t ≤ k.ticks + 1,
    (k.readyList ++ woken k (k.ticks + 1)).mergeSort fun a b => k.priorityOf b ≤ k.priorityOf a)

/-! ## The order of wait_list -/

/-- `wait_list` is ordered by wake-up tick and, among equal ticks, by the moment
of going to sleep. -/
def Slept (k : Kernel) : Prop :=
  k.waitList.Pairwise (BeforeInQueue (fun u => (k.wakeTickOf u).toInt) (sleptAt k.hist))

theorem sleptAt_le (hist : List Event) (t : Tid) : sleptAt hist t ≤ hist.length :=
  Nat.sub_le _ _

theorem sleptAt_cons_self (hist : List Event) (t : Tid) :
    sleptAt (.sleep t :: hist) t = hist.length + 1 := by
  simp [sleptAt]

theorem sleptAt_cons_of_ne {e : Event} (hist : List Event) (h : e ≠ .sleep t) :
    sleptAt (e :: hist) t = sleptAt hist t := by
  unfold sleptAt
  rw [List.idxOf_cons_ne _ h, List.length_cons]
  omega

/-- Losing members, and changes that leave the members' ticks and bedtimes
alone, keep the order. -/
theorem Slept.congr (h : Slept k) (hsub : k'.waitList.Sublist k.waitList)
    (hsame : ∀ u ∈ k'.waitList, k'.wakeTickOf u = k.wakeTickOf u ∧
      sleptAt k'.hist u = sleptAt k.hist u) : Slept k' := by
  have hsubset := List.Pairwise.sublist hsub h
  apply hsubset.imp_of_mem
  intro b c hb hc hbc
  rcases hsame b hb with ⟨hwb, hsb⟩
  rcases hsame c hc with ⟨hwc, hsc⟩
  simpa only [BeforeInQueue, hwb, hsb, hwc, hsc] using hbc

/-- The caller of `timer_sleep` goes behind everybody who wakes up at the same
tick. -/
theorem Slept.insert (h : Slept k) {th : Thread} (ht : t ∉ k.waitList) :
    Slept (({ k.setThread t (some th) with
      waitList := listInsertOrdered (leastSleep (k.setThread t (some th))) t k.waitList } :
        Kernel).log (.sleep t)) := by
  have hmem : ∀ u ∈ k.waitList, u ≠ t := fun u hu heq => ht (heq ▸ hu)
  have hold : ∀ u ∈ k.waitList, sleptAt (.sleep t :: k.hist) u = sleptAt k.hist u := by
    intro u hu
    refine sleptAt_cons_of_ne _ ?_
    intro heq
    exact hmem u hu (Event.sleep.inj heq).symm
  show (listInsertOrdered (leastSleep (k.setThread t (some th))) t k.waitList).Pairwise
    (BeforeInQueue (fun u => ((k.setThread t (some th)).wakeTickOf u).toInt)
      (sleptAt (.sleep t :: k.hist)))
  rw [listInsertOrdered_leastSleep]
  refine queue_insertAfterTies ?_ ?_
  · refine List.Pairwise.imp_of_mem ?_ h
    intro b c hb hc hbc
    simpa only [BeforeInQueue, Kernel.wakeTickOf_setThread, hmem b hb, hmem c hc, if_false,
      hold b hb, hold c hc] using hbc
  · intro b hb
    have hle := sleptAt_le k.hist b
    rw [hold b hb, sleptAt_cons_self]
    omega

/-- The loop of `timer_interrupt` logs nobody's going to sleep. -/
theorem foldl_wakeOne_sleptAt (l : List Tid) (k : Kernel) (u : Tid) :
    sleptAt (l.foldl wakeOne k).hist u = sleptAt k.hist u := by
  induction l generalizing k with
  | nil => rfl
  | cons b l ih =>
      have hhist : (wakeOne k b).hist = .enqueue b :: .wake b :: k.hist := rfl
      rw [List.foldl_cons, ih, hhist, sleptAt_cons_of_ne _ (by simp),
        sleptAt_cons_of_ne _ (by simp)]

/-- What the caller of `schedule` has done to the order, before it is switched
away from. -/
theorem Slept.descheduled (h : Slept k) (hinv : Inv k) {th : Thread} :
    Slept (descheduled k th a) := by
  have hcur : ∀ u ∈ k.waitList, u ≠ k.current :=
    fun u hu heq => hinv.running_notMem.2.1 (heq ▸ hu)
  unfold Threads.descheduled
  split
  case h_4 =>
    by_cases hi : k.idleThread ≠ some k.current
    · rw [if_pos hi]
      refine h.congr (List.Sublist.refl _) ?_
      intro u hu
      refine ⟨?_, sleptAt_cons_of_ne _ (by simp)⟩
      rw [Kernel.wakeTickOf_setThread, if_neg (hcur u hu)]
      rfl
    · rw [if_neg hi]
      refine h.congr (List.Sublist.refl _) ?_
      intro u hu
      refine ⟨?_, rfl⟩
      rw [Kernel.wakeTickOf_setThread, if_neg (hcur u hu)]
  case h_5 =>
    refine (h.insert hinv.running_notMem.2.1).congr (List.Sublist.refl _) ?_
    intro u _
    refine ⟨?_, rfl⟩
    rw [Kernel.wakeTickOf_setThread]
    split
    next hu => simp [Kernel.wakeTickOf, hu]
    next => rfl
  case h_6 => exact h
  all_goals
    refine h.congr (List.Sublist.refl _) ?_
    intro u hu
    exact ⟨Kernel.wakeTickOf_setThread.trans (if_neg (hcur u hu)), rfl⟩

/-- Every step keeps the order. -/
theorem Slept.step (h : Slept k) (hinv : Inv k) (hs : Step k a k') : Slept k' := by
  -- outside a timer interrupt every sleeper sleeps on with the same tick
  have htick : a ≠ .tick → ∀ u ∈ k.waitList, k'.wakeTickOf u = k.wakeTickOf u := by
    intro hne u hu
    exact (asleep_step hinv (asleep_of_waiting hinv hu rfl) hs fun ha => absurd ha hne).wakeTick
  rcases step_cases hinv hs with ⟨heff, hinv'⟩
  cases heff with
  | create =>
      refine h.congr (List.Sublist.refl _) ?_
      exact fun u hu => ⟨htick (by simp) u hu, sleptAt_cons_of_ne _ (by simp)⟩
  | createFails => exact h
  | unblock =>
      refine h.congr (List.Sublist.refl _) ?_
      exact fun u hu => ⟨htick (by simp) u hu, sleptAt_cons_of_ne _ (by simp)⟩
  | setPriority =>
      exact h.congr (List.Sublist.refl _) fun u hu => ⟨htick (by simp) u hu, rfl⟩
  | sleepRead =>
      exact h.congr (List.Sublist.refl _) fun u hu => ⟨htick (by simp) u hu, rfl⟩
  | @deschedule _ n th =>
      have hmid : Slept (Threads.descheduled k th a) := h.descheduled hinv
      refine hmid.congr (List.Sublist.refl _) ?_
      intro u hu
      have hlive : (switchTo (Threads.descheduled k th a) n).threads u ≠ none := by
        rcases hinv'.wait_thread hu with ⟨th', hth', _⟩
        rw [hth']
        simp
      exact ⟨(switchTo_threads_of_ne_none hlive).2.1, sleptAt_cons_of_ne _ (by simp)⟩
  | tick =>
      refine h.congr ?_ ?_
      · unfold wakeAll
        rw [foldl_wakeOne_waitList]
        exact List.drop_sublist _ _
      · intro u _
        exact ⟨foldl_wakeOne_wakeTickOf _ _ u, foldl_wakeOne_sleptAt _ _ u⟩

theorem reachable_slept (h : Reachable main idle k) : Slept k :=
  (reachable_invariant (P := Slept) h (fun _ => List.Pairwise.nil)
    fun _ _ _ hinv hs hslept => hslept.step hinv hs).2

/-! ## The woken threads -/

/-- The order of waking up is total. -/
theorem wakesFirst_iff {a b : Tid} : wakesFirst k a b ↔
    (k.wakeTickOf a).toInt < (k.wakeTickOf b).toInt ∨
      (k.wakeTickOf a).toInt = (k.wakeTickOf b).toInt ∧
        sleptAt k.hist a ≤ sleptAt k.hist b := by
  simp [wakesFirst, Int64.lt_iff_toInt_lt, Int64.toInt_inj]

/-- Nobody who is due stands behind somebody who is not. -/
theorem due_downward (h : Inv k) :
    k.waitList.Pairwise fun a b =>
      decide (k.wakeTickOf b ≤ k.ticks) → decide (k.wakeTickOf a ≤ k.ticks) := by
  apply h.waitSorted.imp
  intro a b hab hb
  simp only [decide_eq_true_eq, Int64.le_iff_toInt_le] at hb ⊢
  omega

/-- The threads the loop pops are those of a full scan, in the order of
`wakesFirst`. -/
theorem due_eq_woken (h : Inv k) (hslept : Slept k) : due k = woken k k.ticks := by
  have hscan : due k = scan k k.ticks := (takeWhile_eq_filter_of_sorted (due_downward h)).1
  have hsorted : (scan k k.ticks).Pairwise fun a b => wakesFirst k a b := by
    refine (List.Pairwise.sublist List.filter_sublist hslept).imp ?_
    intro a b hab
    apply wakesFirst_iff.mpr
    rcases hab with hlt | ⟨heq, hbefore⟩
    · exact .inl hlt
    · exact .inr ⟨heq, hbefore.le⟩
  rw [hscan, woken, List.mergeSort_of_pairwise hsorted]

theorem wakeOne_priorityOf (k : Kernel) (t u : Tid) :
    (wakeOne k t).priorityOf u = k.priorityOf u := by
  unfold wakeOne
  by_cases hu : u = t
  · subst hu
    cases hth : k.threads u <;> simp [Kernel.priorityOf, hth]
  · simp [Kernel.priorityOf, hu]

/-- Whoever is not due stays on `wait_list`, in the old order. -/
theorem wakeAll_waitList (h : Inv k) :
    (wakeAll k).waitList = k.waitList.filter fun t => ¬ k.wakeTickOf t ≤ k.ticks := by
  have hlist : due k ++ (wakeAll k).waitList =
      due k ++ k.waitList.dropWhile fun t => k.wakeTickOf t ≤ k.ticks := by
    rw [← waitList_eq_due_append]
    exact List.takeWhile_append_dropWhile.symm
  rw [List.append_cancel_left hlist, (takeWhile_eq_filter_of_sorted (due_downward h)).2]
  exact List.filter_congr fun _ _ => decide_not.symm

/-- The loop inserts the threads it pops one by one. -/
theorem foldl_wakeOne_readyList (l : List Tid) (k : Kernel) :
    (l.foldl wakeOne k).readyList =
      l.foldl (fun r t => insertAfterTies (fun u => -(k.priorityOf u).toInt) t r)
        k.readyList := by
  induction l generalizing k with
  | nil => rfl
  | cons b l ih =>
      have hready : (wakeOne k b).readyList =
          insertAfterTies (fun u => -(k.priorityOf u).toInt) b k.readyList :=
        readyInsert_readyList _ b
      rw [List.foldl_cons, List.foldl_cons, ih, hready]
      simp only [wakeOne_priorityOf]

/-- So `ready_list` afterwards is a stable sort. -/
theorem wakeAll_readyList (h : Inv k) : (wakeAll k).readyList =
    (k.readyList ++ due k).mergeSort fun a b => k.priorityOf b ≤ k.priorityOf a := by
  have hle : (fun a b => decide (-(k.priorityOf a).toInt ≤ -(k.priorityOf b).toInt)) =
      fun a b => decide (k.priorityOf b ≤ k.priorityOf a) := by
    funext a b
    rw [decide_eq_decide, Int32.le_iff_toInt_le]
    omega
  unfold wakeAll
  rw [foldl_wakeOne_readyList, foldl_insertAfterTies h.readySorted, stableSort, hle]

/-! ## The interrupt -/

/-- In every reachable state one call of `timer_interrupt` terminates and does
what its reference does: it takes off `wait_list` what a scan of the whole list
finds due, leaving the others in their order, sorts the woken threads, in the
order of their ticks and their `timer_sleep` calls, stably into `ready_list`,
and marks them and nobody else ready. -/
theorem timer_interrupt_reference (h : Reachable main idle k) :
    ∃ k', timerInterrupt k = .ok k' ∧ (k'.waitList, k'.readyList) = timerReference k ∧
      ∀ t, k'.statusOf t = if t ∈ scan k (k.ticks + 1) then some .ready else k.statusOf t := by
  have hinv : Inv k := reachable_inv h
  set k₁ : Kernel := { k with ticks := k.ticks + 1 } with hk₁
  have hinv₁ : Inv k₁ := { hinv with }
  have hslept : Slept k := reachable_slept h
  have hslept₁ : Slept k₁ := hslept
  rcases step_ok hinv (show Enabled k .tick from trivial) with ⟨k', heq, heff, -⟩
  cases heff with
  | deschedule hact => simp [Deschedules] at hact
  | tick =>
      refine ⟨wakeAll k₁, heq, ?_, ?_⟩
      · have hwait : (wakeAll k₁).waitList =
            k.waitList.filter fun t => ¬ k.wakeTickOf t ≤ k.ticks + 1 := wakeAll_waitList hinv₁
        have hready : (wakeAll k₁).readyList = (k.readyList ++ woken k (k.ticks + 1)).mergeSort
            fun a b => k.priorityOf b ≤ k.priorityOf a := by
          rw [wakeAll_readyList hinv₁, due_eq_woken hinv₁ hslept₁]
          rfl
        rw [hwait, hready]
        rfl
      · intro t
        have htick := tick_wakes hinv
        have hscan : t ∈ scan k (k.ticks + 1) ↔
            t ∈ k.waitList ∧ k.wakeTickOf t ≤ (wakeAll k₁).ticks := by
          rw [htick.ticks]
          simp [scan]
        split
        next hdue =>
          rcases hscan.mp hdue with ⟨hmem, hle⟩
          exact (htick.dueWoken t hmem hle).1
        next hdue => exact (htick.othersKept t fun hm => hdue (hscan.mpr hm)).1

/-- The initial thread and thread 4 go to sleep for one tick, thread 3 for two:
the interrupt wakes the first two and sorts them in by their priorities. -/
theorem timer_interrupt_reference_run : ∃ k k',
    [Act.create 3 50, .create 4 40, .sleepRead 1, .sleepBlock, .sleepRead 2, .sleepBlock,
      .sleepRead 1, .sleepBlock].foldlM next (started 1 2) = .ok k ∧
    k.waitList = [1, 4, 3] ∧ timerInterrupt k = .ok k' ∧
    k'.waitList = [3] ∧ k'.readyList = [4, 1] ∧ (k'.waitList, k'.readyList) = timerReference k := by
  have hrun : ∃ k k', [Act.create 3 50, .create 4 40, .sleepRead 1, .sleepBlock, .sleepRead 2,
      .sleepBlock, .sleepRead 1, .sleepBlock].foldlM next (started 1 2) = .ok k ∧
      k.waitList = [1, 4, 3] ∧ timerInterrupt k = .ok k' ∧ k'.waitList = [3] ∧
      k'.readyList = [4, 1] := ⟨_, _, rfl, rfl, rfl, rfl, rfl⟩
  rcases hrun with ⟨k, k', hk, hlist, htick, hwait, hready⟩
  have hreach : Reachable 1 2 k :=
    ⟨started 1 2, threadStart_eq (by decide), _,
      (Lts.run_of_foldlM next hk).mono fun _ _ _ => step_of_next⟩
  rcases timer_interrupt_reference hreach with ⟨k'', heq, href, -⟩
  have hk' : k' = k'' := by
    rw [htick] at heq
    exact Except.ok.inj heq
  exact ⟨k, k', hk, hlist, htick, hwait, hready, hk' ▸ href⟩

/-! ## Calls of timer_sleep do not overlap -/

/-- Thread `t` is running inside `timer_sleep`, and is not the idle thread. -/
structure Interruptible (t : Tid) (k : Kernel) : Prop where
  running : k.current = t
  notIdle : k.idleThread ≠ some t
  inside : k.sleepFrameOf t ≠ none

/-- A timer interrupt or the unblocking of a thread does not take the processor
away. -/
theorem Interruptible.step (h : Interruptible t k) (hinv : Inv k) (hs : Step k a k')
    (hyield : a ≠ .yield) (hsleep : a ≠ .sleepBlock) :
    (a = .tick ∨ ∃ u, a = .unblock u) ∧ Interruptible t k' := by
  rcases h with ⟨rfl, hidle, hinside⟩
  have hown : ¬ OwnCode k := fun hoc => hinside hoc.2
  rcases Option.ne_none_iff_exists'.mp hinside with ⟨⟨start, m⟩, hframe⟩
  have hpend : Pending k.current start m k' :=
    pending_step hinv hframe hs fun hcon => hsleep hcon.1
  have hinside' : k'.sleepFrameOf k.current ≠ none := by
    rw [show k'.sleepFrameOf k.current = some (start, m) from hpend]
    simp
  have hen := hs.1
  have hinv' := (step_cases hinv hs).2
  rcases step_cases hinv hs with ⟨heff, -⟩
  cases heff with
  | create => exact absurd hen.1 hown
  | createFails => exact absurd hen hown
  | setPriority => exact absurd hen hown
  | sleepRead => exact absurd hen hown
  | @unblock u => exact ⟨.inr ⟨u, rfl⟩, rfl, hidle, hinside'⟩
  | @deschedule _ n th hact =>
      rcases hact with rfl | rfl | rfl | rfl | rfl
      · exact absurd hen hown
      · exact absurd hen hidle
      · exact absurd hen hown
      · exact absurd rfl hyield
      · exact absurd rfl hsleep
  | tick =>
      refine ⟨.inl rfl, foldl_wakeOne_current _ _, ?_, hinside'⟩
      unfold wakeAll
      rw [foldl_wakeOne_idleThread]
      exact hidle

/-- Nothing in Project 1 yields on the way back from an interrupt. So from the
moment a `timer_sleep` call reads the clock until it goes to sleep its thread
keeps the processor: there are only timer interrupts and unblockings, and the
order of going to sleep is the order of the calls. -/
theorem sleep_calls_do_not_overlap {k₁ k₂ k₃ : Kernel} {m : Int64} (h : Reachable main idle k₁)
    (hread : Step k₁ (.sleepRead m) k₂) (hrun : Lts.Run Step k₂ as k₃)
    (hyield : .yield ∉ as) (hsleep : .sleepBlock ∉ as) :
    (∀ a ∈ as, a = .tick ∨ ∃ u, a = .unblock u) ∧ k₃.current = k₁.current := by
  have hinv₁ : Inv k₁ := reachable_inv h
  have hinside : Interruptible k₁.current k₂ := by
    rcases step_cases hinv₁ hread with ⟨heff, -⟩
    cases heff with
    | deschedule hact => simp [Deschedules] at hact
    | sleepRead => exact ⟨rfl, hread.1.1, by simp [Kernel.sleepFrameOf]⟩
  have hinv₂ : Inv k₂ := (step_cases hinv₁ hread).2
  clear hread
  induction hrun with
  | nil s => exact ⟨by simp, hinside.running⟩
  | @cons s s' u a as hstep _ ih =>
      rw [List.mem_cons, not_or] at hyield hsleep
      rcases hinside.step hinv₂ hstep (Ne.symm hyield.1) (Ne.symm hsleep.1) with ⟨ha, hinside'⟩
      rcases ih hyield.2 hsleep.2 hinside' (step_cases hinv₂ hstep).2 with ⟨has, hcur⟩
      exact ⟨List.forall_mem_cons.mpr ⟨ha, has⟩, hcur⟩

end Pintos.Threads
