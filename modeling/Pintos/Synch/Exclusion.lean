import Pintos.Synch.Locks

/-! # Mutual exclusion, and the assertions

What follows from the order in which the functions use the locks: a lock has one
owner, what it protects is touched by its owner only, and no assertion of
`synch.c` and `thread.c` fails as long as the callers of the functions keep to
their comments, but for those about the `lock_list`s, if these are no lists.
-/

namespace Pintos.Synch

open Threads (ThreadStatus)

variable {k k' : Kernel} {p t u : Ptr} {s : Sema} {a : Act} {acts : List Act} {l c : Ptr}

/-! ## Locks -/

/-- The acts between the `sema_down` and the `sema_up` of a lock: those of `lock_acquire`
and `lock_release`, and those that the lock protects. -/
def Act.NeedsLock (l : Ptr) (a : Act) : Prop :=
  a = .setHolder l ∨ a = .pushLock l ∨ a = .clearHolder l ∨ a = .removeLock l ∨
    a = .up (.ofLock l) ∨ (∃ c, a = .enqueueWaiter c l) ∨ (∃ c, a = .signal c l) ∨
    (∃ c, a = .broadcast c l) ∨ ((a = .loadTid ∨ a = .storeTid) ∧ l = tidLock)

theorem LockUse.owner_of_needs (h : LockUse k) (htodo : k.rest t = a :: acts)
    (ha : a.NeedsLock l) : k.owner l = some t := by
  have hsource : ∀ source target, source ≠ .out →
      (∀ ph, a.phase l ph = move true source target ph) → k.owner l = some t :=
    fun _ _ hne hmove => (h.source _ _ htodo hmove).owner.mpr hne
  rcases ha with rfl | rfl | rfl | rfl | rfl | ⟨c, rfl⟩ | ⟨c, rfl⟩ | ⟨c, rfl⟩ | ⟨rfl | rfl, rfl⟩
  · exact hsource .taken .named (by simp) (by simp [Act.phase])
  · exact hsource .named .held (by simp) (by simp [Act.phase])
  · exact hsource .held .unnamed (by simp) (by simp [Act.phase])
  · exact hsource .unnamed .taken (by simp) (by simp [Act.phase])
  · exact hsource .taken .out (by simp) (by simp [Act.phase])
  · exact hsource .held .held (by simp) (by simp [Act.phase])
  · exact hsource .held .held (by simp) (by simp [Act.phase])
  · exact hsource .held .held (by simp) (by simp [Act.phase])
  · exact hsource .held .held (by simp) (by simp [Act.phase])
  · exact hsource .held .held (by simp) (by simp [Act.phase])

/-- What the kernel says about a lock. -/
structure Exclusive (k : Kernel) (l : Ptr) : Prop where
  /-- The semaphore is free or taken, and says so. -/
  value : k.value (.ofLock l) = if k.owner l = none then 1 else 0
  /-- The holder is the thread that has taken the semaphore. -/
  holder : ∀ t, k.holder l = some t → k.owner l = some t
  /-- So is the thread that has the lock in its list, and it is there once. -/
  listed : ∀ t, l ∈ k.lockList t → k.owner l = some t ∧ (k.lockList t).count l = 1
  /-- Between its calls a thread has the lock in all three ways, or in none. -/
  outside : ∀ t, k.rest t = [] →
    (k.owner l = some t ↔ k.holder l = some t) ∧ (k.owner l = some t ↔ l ∈ k.lockList t)
  /-- A thread that is about to do something for which it needs the lock is its owner. -/
  guarded : ∀ t a acts, k.rest t = a :: acts → a.NeedsLock l → k.owner l = some t

/-- A lock is held by at most one thread, and what it protects is touched by no other one:
not by a thread that has been interrupted inside `lock_acquire` or `lock_release` either. -/
theorem mutual_exclusion (h : Reachable k) (l : Ptr) : Exclusive k l := by
  obtain ⟨p, -, hu⟩ := h.lockUse
  refine ⟨hu.value l, fun t => hu.owner_of_holder, fun t hmem => ⟨hu.owner_of_mem hmem, ?_⟩,
    fun t hrest => ?_, fun t a acts htodo ha => hu.owner_of_needs htodo ha⟩
  · exact List.count_eq_one_of_mem (hu.nodup t) hmem
  · obtain ⟨ph, hin, hfits⟩ := hu.phase t l
    rw [hrest] at hfits
    rw [hin.owner, hin.holder, hin.listed]
    rcases hfits with rfl | rfl
    · simp
    · simp

theorem mutual_exclusion_contention :
    ∃ k, Reachable k ∧ k.holder 7 = some 1 ∧ k.waiters (.ofLock 7) = [5] ∧ Exclusive k 7 := by
  obtain ⟨k, hk, -, hw⟩ := reachable_of_check contention
    (fun k => k.holder 7 = some 1 ∧ k.waiters (.ofLock 7) = [5]) (by decide +kernel)
  obtain ⟨hholder, hwaits⟩ := of_decide_eq_true hw
  exact ⟨k, hk, hholder, hwaits, mutual_exclusion hk 7⟩

/-! ## Assertions -/

theorem Queues.schedules (h : Queues k p) (hno : ∀ t, k.status t ≠ some .running) :
    ∃ k', schedule k = .ok k' := by
  obtain ⟨n, hn, hlive⟩ := h.next_exists hno
  exact ⟨_, schedule_iff.mpr ⟨hno _, n, hn, hlive, rfl⟩⟩

theorem Settled.head_blocked (h : Settled k p) (s : Sema) (t : Ptr)
    (ht : (k.waiters s).head? = some t) : k.status t = some .blocked :=
  ((h.queues.waiting t s).mp (List.mem_of_mem_head? ht)).1

theorem Settled.semaUp_ok (h : Settled k p) : ∃ k', semaUp k s = .ok k' :=
  ⟨_, semaUp_iff.mpr ⟨h.head_blocked s, rfl⟩⟩

theorem Settled.semaTest_ok (h : Settled k p) (htodo : k.todo = a :: acts)
    (ha : a = .down s ∨ a = .retest s) : ∃ k', semaTest k s acts = .ok k' := by
  unfold semaTest
  split
  next hv =>
    exact (h.queues.asleep h.current htodo ha).schedules (h.running.leave .blocked nofun)
  next => exact ⟨_, rfl⟩

theorem Settled.yield_ok (h : Settled k p) : ∃ k', threadYield k = .ok k' := by
  rw [threadYield_eq]
  refine (h.queues.yielded h.current).schedules fun t => ?_
  rw [yielded_status]
  exact h.running.leave .ready nofun t

/-- `ASSERT (lock_held_by_current_thread (lock))` holds. -/
theorem LockUse.assertHeld_ok (h : LockUse k) (target : Phase) (htodo : k.todo = a :: acts)
    (ha : ∀ ph, a.phase l ph = move true .held target ph) : k.holder l = some k.current :=
  (h.source _ _ htodo ha).holder.mpr (.inr rfl)

/-- `release_locks` finds its locks held, and ends with the thread. -/
theorem LockUse.releaseRound_ok (h : LockUse k) (hs : Settled k p) (hlisted : k.listed = true)
    (htodo : k.todo = .releaseLocks :: acts) : ∃ k', releaseRound k = .ok k' := by
  cases hlist : k.lockList k.current with
  | nil =>
      obtain ⟨k', hk'⟩ : ∃ k', threadEnd k = .ok k' :=
        (hs.queues.ended hs.current htodo).schedules (hs.running.leave .dying nofun)
      refine ⟨k', assertThat_bind.mpr ⟨hlisted, ?_⟩⟩
      rw [hlist]
      exact hk'
  | cons l ls =>
      have hmem : l ∈ k.lockList k.current := by
        rw [hlist]
        exact List.mem_cons_self
      obtain ⟨ph, ph', hin, hph, -⟩ := h.head htodo l
      have hheld : k.holder l = some k.current := by
        refine hin.holder.mpr (.inr ?_)
        rcases hin.listed.mp hmem with rfl | rfl
        · rfl
        · simp [Act.phase] at hph
      have hs₁ : Settled (unlisted k l) p :=
        ⟨hs.queues.congr ⟨rfl, rfl, rfl, rfl, rfl, rfl, rfl, rfl⟩, hs.running.congr rfl rfl⟩
      obtain ⟨k', hk'⟩ := hs₁.semaUp_ok (s := .ofLock l)
      refine ⟨k', assertThat_bind.mpr ⟨hlisted, ?_⟩⟩
      rw [hlist]
      exact assertThat_bind.mpr ⟨hheld, Lts.bind_eq_ok.mpr ⟨unlisted k l,
        assertThat_bind.mpr ⟨hmem, rfl⟩, hk'⟩⟩

/-- The acts that push to the `lock_list` of their thread, or go through it. -/
def Act.UsesLockList (a : Act) : Prop := (∃ l, a = .pushLock l) ∨ a = .releaseLocks

/-- An act of the running thread fails in no assertion, if the `lock_list`s are lists where
it needs that. -/
theorem LockUse.exec_ok (h : LockUse k) (hs : Settled k p) (htodo : k.todo = a :: acts)
    (hhalt : a ≠ .halt) (htid : a = .storeTid → k.newTid k.current ≠ intMax)
    (hlist : a.UsesLockList → k.listed = true) : ∃ k', Synch.exec k acts a = .ok k' := by
  have hnext : ¬ a.OfIdle → (∀ t, a ≠ .unblock t) → Settled (k.setRest k.current acts) p :=
    fun ha hu => hs.advance htodo ha hu ⟨rfl, rfl, rfl, rfl, rfl, rfl, rfl, rfl⟩
  cases a with
  | down s => exact hs.semaTest_ok htodo (.inl rfl)
  | retest s => exact hs.semaTest_ok htodo (.inr rfl)
  | tryDown s => exact ⟨_, rfl⟩
  | up s => exact (hnext (by simp [Act.OfIdle]) (by simp)).semaUp_ok
  | checkFree l =>
      have hin : InPhase k k.current l .out := h.source .out .out htodo (by simp [Act.phase])
      refine ⟨_, assertThat_bind.mpr ⟨?_, rfl⟩⟩
      rw [ne_eq, hin.holder]
      simp
  | setHolder l => exact ⟨_, rfl⟩
  | pushLock l => exact ⟨_, assertThat_bind.mpr ⟨hlist (.inl ⟨l, rfl⟩), rfl⟩⟩
  | clearHolder l =>
      have hheld : k.holder l = some k.current :=
        h.assertHeld_ok .unnamed htodo (by simp [Act.phase])
      exact ⟨_, assertThat_bind.mpr ⟨hheld, rfl⟩⟩
  | removeLock l =>
      have hin : InPhase k k.current l .unnamed :=
        h.source .unnamed .taken htodo (by simp [Act.phase])
      exact ⟨_, assertThat_bind.mpr ⟨hin.listed.mpr (.inr rfl), rfl⟩⟩
  | enqueueWaiter c l =>
      have hheld : k.holder l = some k.current := h.assertHeld_ok .held htodo (by simp [Act.phase])
      exact ⟨_, assertThat_bind.mpr ⟨hheld, rfl⟩⟩
  | signal c l =>
      have hheld : k.holder l = some k.current := h.assertHeld_ok .held htodo (by simp [Act.phase])
      cases hc : k.conds c with
      | nil =>
          refine ⟨k.setRest k.current acts, assertThat_bind.mpr ⟨hheld, ?_⟩⟩
          rw [hc]
          rfl
      | cons t ts =>
          refine ⟨((k.setConds c ts).setRest k.current (.up (.ofWaiter t) :: acts)).log
            (.signal t c), assertThat_bind.mpr ⟨hheld, ?_⟩⟩
          rw [hc]
          rfl
  | broadcast c l =>
      dsimp only [Synch.exec]
      split
      next => exact ⟨_, rfl⟩
      next => exact ⟨_, rfl⟩
  | loadTid => exact ⟨_, rfl⟩
  | storeTid => exact ⟨_, assertThat_bind.mpr ⟨htid rfl, rfl⟩⟩
  | setTid t => exact ⟨_, rfl⟩
  | unblock t =>
      have hmem : .unblock t ∈ k.rest k.current := by
        rw [show k.rest k.current = _ from htodo]
        exact List.mem_cons_self
      exact ⟨_, threadUnblock_iff.mpr ⟨(hs.queues.created t _ hmem).1, rfl⟩⟩
  | yield => exact (hnext (by simp [Act.OfIdle]) (by simp)).yield_ok
  | releaseLocks => exact h.releaseRound_ok hs (hlist (.inr rfl)) htodo
  | setIdle => exact ⟨_, rfl⟩
  | idleBlock =>
      exact (hs.queues.idleBlocks hs.current htodo).schedules (hs.running.leave .blocked (by simp))
  | halt => exact absurd rfl hhalt

/-- An act that uses the `lock_list` only succeeds if that is a list. -/
theorem Exec.listed (he : Exec k acts a k') (ha : a.UsesLockList) : k.listed = true := by
  rcases ha with ⟨l, rfl⟩ | rfl
  · cases he with
    | sleep ha => simp at ha
    | take ha => simp at ha
    | pushLock hlisted => exact hlisted
  · cases he with
    | sleep ha => simp at ha
    | take ha => simp at ha
    | finish hl hs hlisted => exact hlisted
    | releaseLock hl hmem hw hlisted => exact hlisted

/-- Whatever the threads do, no assertion fails and there is always a thread to run: what can
happen next does, unless it uses a `lock_list` that is no list. -/
theorem never_panics_iff (h : Reachable k) {b : Label} (hen : Enabled k b) :
    (∃ k', Step k b k') ↔
      (b = .run → ∀ a acts, k.todo = a :: acts → a.UsesLockList → k.listed = true) := by
  obtain ⟨p, hs, hu⟩ := h.lockUse
  constructor
  · rintro ⟨k', hstep⟩ rfl a acts htodo ha
    cases (step_cases hstep).2 with
    | exec htodo' he =>
        obtain ⟨rfl, rfl⟩ := List.cons.inj (htodo.symm.trans htodo')
        exact he.listed ha
  intro hlist
  suffices hperform : ∃ k', perform k b = .ok k' by
    obtain ⟨k', hk'⟩ := hperform
    refine ⟨k', hen, Lts.bind_eq_ok.mpr ⟨k.current, ?_, hk'⟩⟩
    exact assertThat_bind.mpr ⟨hs.current, rfl⟩
  cases b with
  | call c => exact ⟨_, rfl⟩
  | run =>
      obtain ⟨hne, hhalt, htid⟩ := hen
      obtain ⟨a, acts, htodo⟩ := List.exists_cons_of_ne_nil hne
      rw [htodo, List.head?_cons] at hhalt htid
      unfold perform
      rw [htodo]
      exact hu.exec_ok hs htodo (fun heq => hhalt (congrArg some heq))
        (fun heq => htid (congrArg some heq)) (hlist rfl a acts htodo)
  | tick =>
      show ∃ k', threadTick (leaveHalt k) = .ok k'
      unfold threadTick
      dsimp only
      split
      next => exact hs.leaveHalt.ticked.yield_ok
      next => exact ⟨_, rfl⟩
  | device p => exact hs.leaveHalt.semaUp_ok
  | setPagedir b => exact ⟨_, rfl⟩

/-- The initial thread is going to push lock 7 to its list. -/
def acquiring : List Label :=
  List.replicate 5 .run ++ .call (.lockAcquire 7) :: List.replicate 3 .run

/-- With the list it does, and without it the kernel panics. -/
theorem never_panics_iff_acquiring :
    (∃ k, Reachable k ∧ k.todo = [.pushLock 7] ∧ ∃ k', Step k .run k') ∧
      ∃ k, Reachable k ∧ k.todo = [.pushLock 7] ∧ ¬ ∃ k', Step k .run k' := by
  have hreach : ∀ listed, (runLabels acquiring (boot listed 1 2 9 fun _ => 0)).toOption.map
      (fun k => decide (k.todo = [.pushLock 7] ∧ Enabled k .run ∧ k.listed = listed)) =
        some true → ∃ k, Reachable k ∧ k.todo = [.pushLock 7] ∧ Enabled k .run ∧
          k.listed = listed := by
    intro listed hrun
    obtain ⟨k, hk, hcheck⟩ := Option.map_eq_some_iff.mp hrun
    exact ⟨k, ⟨_, ⟨listed, 1, 2, 9, fun _ => 0, by decide, rfl⟩, acquiring, run_of_runLabels hk⟩,
      of_decide_eq_true hcheck⟩
  constructor
  · obtain ⟨k, hk, htodo, hen, hlisted⟩ := hreach true (by decide +kernel)
    exact ⟨k, hk, htodo, (never_panics_iff hk hen).mpr fun _ _ _ _ _ => hlisted⟩
  · obtain ⟨k, hk, htodo, hen, hlisted⟩ := hreach false (by decide +kernel)
    refine ⟨k, hk, htodo, fun hstep => ?_⟩
    have hlist := (never_panics_iff hk hen).mp hstep rfl _ _ htodo (.inl ⟨7, rfl⟩)
    rw [hlisted] at hlist
    cases hlist

end Pintos.Synch
