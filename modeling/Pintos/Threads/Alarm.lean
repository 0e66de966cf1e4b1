import Pintos.Threads.Consistency

/-! # The alarm clock over whole runs

A `timer_sleep` call is followed from its reading of the clock to its wake-up:
its stored values survive until it goes to sleep (`pending_step`), it sleeps
through every interrupt before its tick (`asleep_step`), and a timer interrupt
unblocks exactly the sleepers that are due (`tick_wakes`), which is where the
order of `wait_list` is needed.
-/

namespace Pintos.Threads

open OrderedInsert

variable {main idle t : Tid} {k k' : Kernel} {a : Act} {as bs : List Act} {w : Int64}

/-! ## What a timer interrupt does -/

theorem wakeOne_statusOf {u : Tid} : (wakeOne k t).statusOf u =
    if u = t then (k.statusOf u).map fun _ => .ready else k.statusOf u := by
  unfold wakeOne
  by_cases hu : u = t
  · subst hu
    cases hth : k.threads u <;> simp [Kernel.statusOf, hth]
  · simp [hu, Kernel.statusOf]

theorem foldl_wakeOne_statusOf (l : List Tid) (k : Kernel) (u : Tid) :
    (l.foldl wakeOne k).statusOf u =
      if u ∈ l then (k.statusOf u).map fun _ => .ready else k.statusOf u := by
  induction l generalizing k with
  | nil => simp
  | cons b l ih =>
      rw [List.foldl_cons, ih, wakeOne_statusOf]
      by_cases hu : u = b
      · subst hu
        by_cases hul : u ∈ l
        · cases hs : k.statusOf u <;> simp [hul]
        · simp [hul]
      · simp [hu]

theorem foldl_wakeOne_waitList (l : List Tid) (k : Kernel) :
    (l.foldl wakeOne k).waitList = k.waitList.drop l.length := by
  induction l generalizing k with
  | nil => simp
  | cons b l ih =>
      rw [List.foldl_cons, ih, wakeOne_waitList, List.length_cons, List.drop_tail]

theorem foldl_wakeOne_ticks (l : List Tid) (k : Kernel) :
    (l.foldl wakeOne k).ticks = k.ticks := by
  induction l generalizing k with
  | nil => rfl
  | cons b l ih => rw [List.foldl_cons, ih, wakeOne_ticks]

theorem foldl_wakeOne_wakeTickOf (l : List Tid) (k : Kernel) (u : Tid) :
    (l.foldl wakeOne k).wakeTickOf u = k.wakeTickOf u := by
  induction l generalizing k with
  | nil => rfl
  | cons b l ih => rw [List.foldl_cons, ih, wakeOne_wakeTickOf]

theorem foldl_wakeOne_sleepFrameOf (l : List Tid) (k : Kernel) (u : Tid) :
    (l.foldl wakeOne k).sleepFrameOf u = k.sleepFrameOf u := by
  have hone : ∀ (k : Kernel) (b : Tid), (wakeOne k b).sleepFrameOf u = k.sleepFrameOf u := by
    intro k b
    unfold wakeOne
    by_cases hu : u = b
    · subst hu
      cases hth : k.threads u <;> simp [Kernel.sleepFrameOf, hth]
    · simp [Kernel.sleepFrameOf, hu]
  induction l generalizing k with
  | nil => rfl
  | cons b l ih => rw [List.foldl_cons, ih, hone]

theorem foldl_wakeOne_idleThread (l : List Tid) (k : Kernel) :
    (l.foldl wakeOne k).idleThread = k.idleThread := by
  induction l generalizing k with
  | nil => rfl
  | cons b l ih => exact ih (wakeOne k b)

/-- The loop logs one wake-up for each round and no going to sleep. -/
theorem foldl_wakeOne_hist (l : List Tid) (k : Kernel) (u : Tid) :
    (l.foldl wakeOne k).hist.count (.wake u) = k.hist.count (.wake u) + l.count u ∧
    (l.foldl wakeOne k).hist.count (.sleep u) = k.hist.count (.sleep u) := by
  induction l generalizing k with
  | nil => exact ⟨rfl, rfl⟩
  | cons b l ih =>
      have hhist : (wakeOne k b).hist = .enqueue b :: .wake b :: k.hist := rfl
      rcases ih (wakeOne k b) with ⟨hwake, hsleep⟩
      rw [List.foldl_cons, hwake, hsleep, hhist]
      constructor
      · by_cases hu : b = u
        · subst hu
          simp only [List.count_cons, beq_self_eq_true, if_true]
          simp
          omega
        · simp [hu]
      · simp

/-- The loop ends at the first sleeper that is not due; because `wait_list` is
sorted, everybody who is due stands before it. -/
theorem mem_due (h : Inv k) : t ∈ due k ↔ t ∈ k.waitList ∧ k.wakeTickOf t ≤ k.ticks := by
  unfold due
  rw [mem_takeWhile_of_sorted]
  · simp
  · apply h.waitSorted.imp
    intro a b hab hb
    simp only [decide_eq_true_eq, Int64.le_iff_toInt_le] at hb ⊢
    omega

/-- `wait_list` is the due sleepers followed by those that stay. -/
theorem waitList_eq_due_append : k.waitList = due k ++ (wakeAll k).waitList := by
  have hsplit : due k ++ k.waitList.dropWhile (fun t => k.wakeTickOf t ≤ k.ticks) = k.waitList :=
    List.takeWhile_append_dropWhile
  have hdrop : (wakeAll k).waitList =
      k.waitList.dropWhile (fun t => k.wakeTickOf t ≤ k.ticks) := by
    unfold wakeAll
    rw [foldl_wakeOne_waitList]
    conv_lhs => rw [← hsplit]
    rw [List.drop_left]
  rw [hdrop, hsplit]

/-- How often thread `t` went to sleep in `timer_sleep`. -/
def sleeps (k : Kernel) (t : Tid) : ℕ := k.hist.count (.sleep t)

/-- How often `timer_interrupt` unblocked thread `t`. -/
def wakes (k : Kernel) (t : Tid) : ℕ := k.hist.count (.wake t)

/-- A timer interrupt from `k` to `k'` unblocks the sleepers whose tick has
come, each once, and no other thread. -/
structure TickWakes (k k' : Kernel) : Prop where
  ticks : k'.ticks = k.ticks + 1
  dueWoken : ∀ t ∈ k.waitList, k.wakeTickOf t ≤ k'.ticks →
    k'.statusOf t = some .ready ∧ t ∉ k'.waitList ∧ wakes k' t = wakes k t + 1
  othersKept : ∀ t, ¬ (t ∈ k.waitList ∧ k.wakeTickOf t ≤ k'.ticks) →
    k'.statusOf t = k.statusOf t ∧ (t ∈ k'.waitList ↔ t ∈ k.waitList) ∧ wakes k' t = wakes k t

theorem tick_wakes (h : Inv k) : TickWakes k (wakeAll { k with ticks := k.ticks + 1 }) := by
  set k₁ : Kernel := { k with ticks := k.ticks + 1 } with hk₁
  have h₁ : Inv k₁ := { h with }
  have hticks : (wakeAll k₁).ticks = k.ticks + 1 := foldl_wakeOne_ticks _ _
  have hmem : ∀ t, t ∈ due k₁ ↔ t ∈ k.waitList ∧ k.wakeTickOf t ≤ (wakeAll k₁).ticks := by
    intro t
    rw [mem_due h₁, hticks]
    rfl
  have hlist : k.waitList = due k₁ ++ (wakeAll k₁).waitList := waitList_eq_due_append (k := k₁)
  have hnodup : (due k₁ ++ (wakeAll k₁).waitList).Nodup := hlist ▸ h.waitNodup
  have hhist : ∀ t, wakes (wakeAll k₁) t = wakes k t + (due k₁).count t :=
    fun t => (foldl_wakeOne_hist (due k₁) k₁ t).1
  refine ⟨hticks, ?_, ?_⟩
  · intro t ht hle
    have hdue : t ∈ due k₁ := (hmem t).mpr ⟨ht, hle⟩
    rcases h.wait_thread ht with ⟨th, hth, hs⟩
    have hstat : k₁.statusOf t = some .blocked := Kernel.statusOf_eq.mpr ⟨th, hth, hs⟩
    refine ⟨?_, fun hm => List.disjoint_of_nodup_append hnodup hdue hm, ?_⟩
    · unfold wakeAll
      rw [foldl_wakeOne_statusOf, if_pos hdue, hstat]
      rfl
    · rw [hhist, List.count_eq_one_of_mem (List.Nodup.of_append_left hnodup) hdue]
  · intro t hnot
    have hdue : t ∉ due k₁ := fun hm => hnot ((hmem t).mp hm)
    refine ⟨?_, ?_, ?_⟩
    · unfold wakeAll
      rw [foldl_wakeOne_statusOf, if_neg hdue]
      rfl
    · rw [hlist, List.mem_append]
      exact ⟨.inr, fun hm => hm.resolve_left hdue⟩
    · rw [hhist, List.count_eq_zero_of_not_mem hdue, Nat.add_zero]

/-! ## A sleeper until its tick -/

/-- Thread `t` sleeps until tick `w`. -/
structure Asleep (t : Tid) (w : Int64) (k : Kernel) : Prop where
  blocked : k.statusOf t = some .blocked
  waiting : t ∈ k.waitList
  wakeTick : k.wakeTickOf t = w

/-- The timer interrupt has unblocked thread `t`. -/
structure Awake (t : Tid) (k : Kernel) : Prop where
  ready : k.statusOf t = some .ready
  queued : t ∈ k.readyList
  notWaiting : t ∉ k.waitList

theorem asleep_of_waiting (h : Inv k) (ht : t ∈ k.waitList) (hw : k.wakeTickOf t = w) :
    Asleep t w k :=
  ⟨((h.blocked t).mp (.inl ht)).2, ht, hw⟩

theorem descheduled_waitList {th : Thread} (ht : t ∈ k.waitList) :
    t ∈ (descheduled k th a).waitList := by
  unfold descheduled
  split
  case h_5 =>
    show t ∈ listInsertOrdered _ _ _
    rw [listInsertOrdered_leastSleep]
    exact mem_insertAfterTies.mpr (.inr ht)
  case h_4 =>
    by_cases hidle : k.idleThread ≠ some k.current
    · simpa [hidle] using ht
    · simpa [hidle] using ht
  all_goals exact ht

/-- Going to sleep, blocking or exiting only touches the caller's own page. -/
theorem descheduled_threads {th : Thread} (ht : t ≠ k.current) :
    (descheduled k th a).threads t = k.threads t := by
  unfold descheduled
  split
  case h_4 =>
    by_cases hidle : k.idleThread ≠ some k.current
    · simp [hidle, ht]
    · simp [hidle, ht]
  all_goals simp [ht]

/-- A switch frees the page of a dying caller and no other. -/
theorem switchTo_threads_ne_none {n : Tid} (hth : k.threads t ≠ none)
    (h : t ≠ k.current ∨ k.statusOf t ≠ some .dying) : (switchTo k n).threads t ≠ none := by
  unfold switchTo
  dsimp only
  by_cases hn : t = n
  · simpa [hn] using hn ▸ hth
  · rw [if_neg hn, if_neg (by tauto)]
    exact hth

/-- A sleeper sleeps on through every step that is not a timer interrupt at or
after its tick. -/
theorem asleep_step (h : Inv k) (ha : Asleep t w k) (hs : Step k a k')
    (hearly : a = .tick → k'.ticks < w) : Asleep t w k' := by
  rcases step_cases h hs with ⟨heff, hinv⟩
  have hcur : t ≠ k.current := by
    intro heq
    exact h.running_notMem.2.1 (heq ▸ ha.waiting)
  rcases Kernel.statusOf_eq.mp ha.blocked with ⟨th, hth, _⟩
  suffices hkept : t ∈ k'.waitList ∧ k'.wakeTickOf t = k.wakeTickOf t from
    asleep_of_waiting hinv hkept.1 (hkept.2.trans ha.wakeTick)
  cases heff with
  | create hnone =>
      -- the new page was not in use, so it is not the sleeper's
      have hne : t ≠ _ := fun heq => by
        rw [heq, hnone] at hth
        cases hth
      exact ⟨ha.waiting, by simp [Kernel.wakeTickOf, hne]⟩
  | createFails => exact ⟨ha.waiting, rfl⟩
  | unblock hwaiter =>
      have hne : t ≠ _ := fun heq => h.apart t ha.waiting (heq ▸ hwaiter)
      exact ⟨ha.waiting, by simp [Kernel.wakeTickOf, hne]⟩
  | setPriority => exact ⟨ha.waiting, by simp [hcur]⟩
  | sleepRead => exact ⟨ha.waiting, by simp [hcur]⟩
  | @deschedule _ n cth =>
      have hmem : t ∈ (switchTo (descheduled k cth a) n).waitList := descheduled_waitList ha.waiting
      have hlive : (switchTo (descheduled k cth a) n).threads t ≠ none := by
        rcases hinv.wait_thread hmem with ⟨th', hth', _⟩
        rw [hth']
        simp
      refine ⟨hmem, ?_⟩
      rw [(switchTo_threads_of_ne_none hlive).2.1]
      unfold Kernel.wakeTickOf
      rw [descheduled_threads hcur]
  | tick =>
      have htick := tick_wakes h
      have hlt := hearly rfl
      have hnot : ¬ (t ∈ k.waitList ∧
          k.wakeTickOf t ≤ (wakeAll { k with ticks := k.ticks + 1 }).ticks) := by
        rintro ⟨_, hle⟩
        rw [ha.wakeTick, Int64.le_iff_toInt_le] at hle
        rw [Int64.lt_iff_toInt_lt] at hlt
        omega
      refine ⟨(htick.othersKept t hnot).2.1.mpr ha.waiting, ?_⟩
      unfold wakeAll
      rw [foldl_wakeOne_wakeTickOf]
      rfl

/-! ## Between the clock and the bed -/

/-- Thread `t` is inside a call `timer_sleep (n₀)` that has read `start`. -/
@[reducible] def Pending (t : Tid) (start n₀ : Int64) (k : Kernel) : Prop :=
  k.sleepFrameOf t = some (start, n₀)

/-- The values a `timer_sleep` call works with stay until the thread goes to
sleep. -/
theorem pending_step {start n₀ : Int64} (h : Inv k) (hp : Pending t start n₀ k) (hs : Step k a k')
    (hnot : ¬ (a = .sleepBlock ∧ k.current = t)) : Pending t start n₀ k' := by
  rcases step_cases h hs with ⟨heff, hinv⟩
  -- the code of a thread that sleeps is `timer_sleep`
  have hown : OwnCode k → t ≠ k.current := by
    intro hoc heq
    rw [Pending, heq, hoc.2] at hp
    cases hp
  have hth : ∃ th, k.threads t = some th ∧ th.sleepFrame = some (start, n₀) := by
    simpa [Pending, Kernel.sleepFrameOf, Option.bind_eq_some_iff] using hp
  rcases hth with ⟨th, hth, hframe⟩
  cases heff with
  | create hnone =>
      have hne : t ≠ _ := fun heq => by
        rw [heq, hnone] at hth
        cases hth
      simpa [Pending, Kernel.sleepFrameOf, hne] using hp
  | createFails => exact hp
  | unblock hwaiter hu =>
      rename_i u uth
      -- a thread that is woken keeps its frame
      by_cases hut : t = u
      · subst hut
        rw [hth] at hu
        cases hu
        simp [Pending, Kernel.sleepFrameOf, hframe]
      · simpa [Pending, Kernel.sleepFrameOf, hut] using hp
  | setPriority hu => simpa [Pending, Kernel.sleepFrameOf, hown hs.1] using hp
  | sleepRead hu => simpa [Pending, Kernel.sleepFrameOf, hown hs.1] using hp
  | @deschedule _ n cth hact hcth =>
      have hmid : (descheduled k cth a).sleepFrameOf t = some (start, n₀) ∧
          (t ≠ k.current ∨ (descheduled k cth a).statusOf t ≠ some .dying) := by
        by_cases hcur : t = k.current
        · -- inside `timer_sleep` the running thread can only be interrupted
          subst hcur
          have hframe' : cth.sleepFrame = some (start, n₀) := by
            rw [hth] at hcth
            cases hcth
            exact hframe
          rcases hact with rfl | rfl | rfl | rfl | rfl
          · exact absurd rfl (hown hs.1)
          · simp [descheduled, Kernel.sleepFrameOf, hframe']
          · exact absurd rfl (hown hs.1)
          · simp [descheduled, Kernel.sleepFrameOf, hframe']
          · exact absurd ⟨rfl, rfl⟩ hnot
        · refine ⟨?_, .inl hcur⟩
          unfold Kernel.sleepFrameOf
          rw [descheduled_threads hcur]
          exact hp
      have hlive : (switchTo (descheduled k cth a) n).threads t ≠ none := by
        refine switchTo_threads_ne_none ?_ ?_
        · intro hnone
          simp [Kernel.sleepFrameOf, hnone] at hmid
        · rw [descheduled_current]
          exact hmid.2
      rw [Pending, (switchTo_threads_of_ne_none hlive).2.2]
      exact hmid.1
  | tick =>
      unfold Pending wakeAll
      rw [foldl_wakeOne_sleepFrameOf]
      exact hp

/-- The thread goes to sleep until the tick its call worked out. -/
theorem asleep_of_pending {start n₀ : Int64} (h : Inv k) (hp : Pending k.current start n₀ k)
    (hs : Step k .sleepBlock k') : Asleep k.current (start + n₀) k' := by
  rcases step_cases h hs with ⟨heff, hinv⟩
  cases heff with
  | @deschedule _ n cth _ hcth =>
      have hframe : cth.sleepFrame = some (start, n₀) := by
        simpa [Pending, Kernel.sleepFrameOf, hcth] using hp
      have hmem : k.current ∈ (switchTo (descheduled k cth .sleepBlock) n).waitList := by
        show k.current ∈ listInsertOrdered _ _ _
        rw [listInsertOrdered_leastSleep]
        exact mem_insertAfterTies.mpr (.inl rfl)
      have hlive : (switchTo (descheduled k cth .sleepBlock) n).threads k.current ≠ none := by
        rcases hinv.wait_thread hmem with ⟨th, hth, _⟩
        rw [hth]
        simp
      refine asleep_of_waiting hinv hmem ?_
      rw [(switchTo_threads_of_ne_none hlive).2.1]
      simp [descheduled, hframe]

/-! ## Every sleep has one wake-up -/

/-- What the caller of `schedule` has logged, and what it has put on `wait_list`. -/
theorem descheduled_counts (th : Thread) (t : Tid) :
    sleeps (descheduled k th a) t + k.waitList.count t =
      sleeps k t + (descheduled k th a).waitList.count t ∧
    wakes (descheduled k th a) t = wakes k t := by
  unfold sleeps wakes descheduled
  split
  case h_5 =>
    have hcount : ∀ less : Tid → Tid → Bool,
        (listInsertOrdered less k.current k.waitList).count t =
          (k.current :: k.waitList).count t :=
      fun less => (List.perm_orderedInsert _ _ _).count_eq t
    simp only [Kernel.setThread_hist, Kernel.log_hist, Kernel.setThread_waitList,
      Kernel.log_waitList, hcount]
    by_cases hcur : k.current = t
    · subst hcur
      simp
      omega
    · simp [hcur]
  case h_4 =>
    by_cases hidle : k.idleThread ≠ some k.current
    · simp [hidle]
    · simp [hidle]
  all_goals exact ⟨rfl, rfl⟩

/-- A thread has been woken as often as it went to sleep, but for the sleep it
is in. -/
theorem counts_step (h : Inv k) (hs : Step k a k')
    (hk : ∀ t, sleeps k t = wakes k t + k.waitList.count t) (t : Tid) :
    sleeps k' t = wakes k' t + k'.waitList.count t := by
  rcases step_cases h hs with ⟨heff, _⟩
  have hkt := hk t
  cases heff with
  | create => simpa [sleeps, wakes] using hkt
  | createFails => exact hkt
  | unblock => simpa [sleeps, wakes] using hkt
  | setPriority => exact hkt
  | sleepRead => exact hkt
  | @deschedule _ n cth =>
      have hlog : sleeps (switchTo (descheduled k cth a) n) t = sleeps (descheduled k cth a) t ∧
          wakes (switchTo (descheduled k cth a) n) t = wakes (descheduled k cth a) t := by
        simp [sleeps, wakes]
      rcases descheduled_counts (k := k) (a := a) cth t with ⟨hsleep, hwake⟩
      rw [hlog.1, hlog.2, switchTo_waitList, hwake]
      omega
  | tick =>
      set k₁ : Kernel := { k with ticks := k.ticks + 1 } with hk₁
      have hcounts := foldl_wakeOne_hist (due k₁) k₁ t
      have hlist : k.waitList.count t = (due k₁).count t + (wakeAll k₁).waitList.count t := by
        rw [← List.count_append, ← waitList_eq_due_append]
      have hsleep : sleeps (wakeAll k₁) t = sleeps k t := hcounts.2
      have hwake : wakes (wakeAll k₁) t = wakes k t + (due k₁).count t := hcounts.1
      omega

theorem reachable_counts (h : Reachable main idle k) (t : Tid) :
    sleeps k t = wakes k t + k.waitList.count t := by
  refine (reachable_invariant
    (P := fun k => ∀ t, sleeps k t = wakes k t + k.waitList.count t) h ?_ ?_).2 t
  · intro _ u
    simp [sleeps, wakes, started]
  · exact fun s a s' hinv hs hk => counts_step hinv hs hk

/-! ## The alarm clock -/

/-- The steps other than thread `t`'s own going to sleep. -/
def StepBeforeSleep (t : Tid) (k : Kernel) (a : Act) (k' : Kernel) : Prop :=
  Step k a k' ∧ ¬ (a = .sleepBlock ∧ k.current = t)

/-- The steps other than a timer interrupt at tick `w` or later. -/
def StepBeforeTick (w : Int64) (k : Kernel) (a : Act) (k' : Kernel) : Prop :=
  Step k a k' ∧ (a = .tick → k'.ticks < w)

/-- While the call is on its way to bed the queues stay consistent and its
values stay. -/
theorem pending_run {start n₀ : Int64} (h : Inv k) (hp : Pending t start n₀ k)
    (hrun : Lts.Run (StepBeforeSleep t) k as k') : Inv k' ∧ Pending t start n₀ k' := by
  refine hrun.invariant (P := fun k => Inv k ∧ Pending t start n₀ k) ?_ ⟨h, hp⟩
  rintro s a s' ⟨hs, hnot⟩ ⟨hinv, hpend⟩
  exact ⟨(step_cases hinv hs).2, pending_step hinv hpend hs hnot⟩

/-- Until its tick comes the thread sleeps on. -/
theorem asleep_run (h : Inv k) (ha : Asleep t w k)
    (hrun : Lts.Run (StepBeforeTick w) k bs k') : Inv k' ∧ Asleep t w k' := by
  refine hrun.invariant (P := fun k => Inv k ∧ Asleep t w k) ?_ ⟨h, ha⟩
  rintro s a s' ⟨hs, hearly⟩ ⟨hinv, hsleep⟩
  exact ⟨(step_cases hinv hs).2, asleep_step hinv hsleep hs hearly⟩

/-- The first timer interrupt at the tick or later ends the sleep. -/
theorem awake_of_tick (h : Inv k) (ha : Asleep t w k) (hs : Step k .tick k') (hw : w ≤ k'.ticks) :
    Awake t k' := by
  rcases step_cases h hs with ⟨heff, hinv⟩
  cases heff with
  | deschedule hact => simp [Deschedules] at hact
  | tick =>
      rcases (tick_wakes h).dueWoken t ha.waiting (by rw [ha.wakeTick]; exact hw) with
        ⟨hready, hnot, _⟩
      have hidle : (wakeAll { k with ticks := k.ticks + 1 }).idleThread ≠ some t := by
        unfold wakeAll
        rw [foldl_wakeOne_idleThread]
        exact ((h.blocked t).mp (.inl ha.waiting)).1
      exact ⟨hready, (hinv.ready t).mpr ⟨hidle, hready⟩, hnot⟩

/-- Every call `timer_sleep (n₀)` is matched by one wake-up. The call reads the
clock in `k₁` and goes to sleep in `k₃`, after any steps in between. Then the
caller sleeps through any steps that include no timer interrupt at its tick or
later, and the first such interrupt wakes it. A timer interrupt unblocks the
sleepers that are due, each once, and nobody else; and in every reachable state
every sleep but the present one has had its wake-up. -/
theorem alarm_clock {k₁ k₂ k₃ k₄ : Kernel} {n₀ : Int64} (h : Reachable main idle k₁)
    (hread : Step k₁ (.sleepRead n₀) k₂)
    (hwait : Lts.Run (StepBeforeSleep k₁.current) k₂ as k₃) (hcur : k₃.current = k₁.current)
    (hsleep : Step k₃ .sleepBlock k₄) :
    (∀ bs k₅, Lts.Run (StepBeforeTick (k₁.ticks + n₀)) k₄ bs k₅ →
      Asleep k₁.current (k₁.ticks + n₀) k₅ ∧
      ∀ k₆, Step k₅ .tick k₆ → ¬ k₆.ticks < k₁.ticks + n₀ → Awake k₁.current k₆) ∧
    (∀ k k', Reachable main idle k → Step k .tick k' → TickWakes k k') ∧
    (∀ k t, Reachable main idle k → sleeps k t = wakes k t + k.waitList.count t) := by
  have hinv₁ : Inv k₁ := reachable_inv h
  rcases step_cases hinv₁ hread with ⟨heff, hinv₂⟩
  have hpend₂ : Pending k₁.current k₁.ticks n₀ k₂ := by
    cases heff with
    | deschedule hact => simp [Deschedules] at hact
    | sleepRead hth => simp [Pending, Kernel.sleepFrameOf]
  rcases pending_run hinv₂ hpend₂ hwait with ⟨hinv₃, hpend₃⟩
  have hasleep₄ : Asleep k₁.current (k₁.ticks + n₀) k₄ := by
    rw [← hcur] at hpend₃ ⊢
    exact asleep_of_pending hinv₃ hpend₃ hsleep
  have hinv₄ : Inv k₄ := (step_cases hinv₃ hsleep).2
  refine ⟨?_, ?_, ?_⟩
  · intro bs k₅ hrun
    rcases asleep_run hinv₄ hasleep₄ hrun with ⟨hinv₅, hasleep₅⟩
    refine ⟨hasleep₅, ?_⟩
    intro k₆ htick hlate
    refine awake_of_tick hinv₅ hasleep₅ htick ?_
    rw [Int64.lt_iff_toInt_lt] at hlate
    rw [Int64.le_iff_toInt_le]
    omega
  · intro k k' hk htick
    rcases step_cases (reachable_inv hk) htick with ⟨heff', _⟩
    cases heff' with
    | deschedule hact => simp [Deschedules] at hact
    | tick => exact tick_wakes (reachable_inv hk)
  · exact fun k t hk => reachable_counts hk t

/-- The initial thread asks for two ticks, is interrupted before it goes to
sleep and has slept for one interrupt when the next one wakes it. -/
theorem alarm_clock_run : ∃ k₄ k₅,
    [Act.sleepRead 2, .tick, .sleepBlock].foldlM next (started 1 2) = .ok k₄ ∧
    next k₄ .tick = .ok k₅ ∧ Asleep 1 2 k₄ ∧ Awake 1 k₅ := by
  have hrun : ∃ k₂ k₃ k₄ k₅, next (started 1 2) (.sleepRead 2) = .ok k₂ ∧
      next k₂ .tick = .ok k₃ ∧ next k₃ .sleepBlock = .ok k₄ ∧ next k₄ .tick = .ok k₅ ∧
      k₃.current = 1 ∧ ¬ k₅.ticks < 2 :=
    ⟨_, _, _, _, rfl, rfl, rfl, rfl, rfl, by decide⟩
  rcases hrun with ⟨k₂, k₃, k₄, k₅, h₁, h₂, h₃, h₄, hcur, hlate⟩
  have hreach : Reachable 1 2 (started 1 2) :=
    ⟨started 1 2, threadStart_eq (by decide), .refl _⟩
  have hwait : Lts.Run (StepBeforeSleep 1) k₂ [.tick] k₃ :=
    .single ⟨step_of_next h₂, by simp⟩
  have hclock := (alarm_clock hreach (step_of_next h₁) hwait hcur (step_of_next h₃)).1 [] k₄ (.nil _)
  refine ⟨k₄, k₅, ?_, h₄, hclock.1, hclock.2 k₅ (step_of_next h₄) hlate⟩
  simp [List.foldlM, h₁, h₂, h₃, bind, Except.bind, pure, Except.pure]

end Pintos.Threads
