import Pintos.Threads.Effects

/-! # The scheduler queues in every reachable state

`thread_start` returns in a state with consistent queues, every step keeps
them consistent, so every reachable state has them; `queues_consistent` states
what that means in the source's own terms, and that no assertion fails.
-/

namespace Pintos.Threads

variable {main idle : Tid} {k : Kernel}

/-! ## The state after thread_start -/

/-- The state `thread_start` returns in. -/
def started (main idle : Tid) : Kernel where
  threads := fun u =>
    if u = main then some { initThread priDefault with status := .running }
    else if u = idle then some (initThread priMin)
    else none
  allList := [main, idle]
  readyList := []
  waitList := []
  waiters := []
  current := main
  idleThread := some idle
  initialThread := main
  ticks := 0
  hist := [.dispatch (some idle) (some main) [(main, priDefault)], .enqueue main,
    .dispatch none (some idle) [(idle, priMin)], .enqueue idle]

theorem threadStart_eq (h : idle ≠ main) : threadStart main idle = .ok (started main idle) := by
  have h' : main ≠ idle := Ne.symm h
  simp [threadStart, threadCreate, threadInit, initThread, blockElsewhere, unblockElsewhere,
    threadBlock, threadUnblock, threadCurrent, schedule, nextThreadToRun, threadScheduleTail,
    threadAt, assertThat, bind, Except.bind, pure, Except.pure, Kernel.setThread, Kernel.log,
    readyInsert, listInsertOrdered, List.orderedInsert, Kernel.priorityOf, h, h', priMin, priMax,
    priDefault, started]
  funext u
  by_cases hm : u = main
  · simp [hm]
  · by_cases hi : u = idle
    · simp [hi, h]
    · simp [hm, hi]

/-- The idle thread cannot share the initial thread's page. -/
theorem ne_of_threadStart (h : threadStart main idle = .ok k) : idle ≠ main := by
  intro heq
  subst heq
  simp [threadStart, threadCreate, threadInit, initThread, blockElsewhere, threadBlock,
    threadUnblock, threadCurrent, threadAt, assertThat, bind, Except.bind, pure, Except.pure,
    Kernel.setThread, Kernel.log, readyInsert, priMin, priMax] at h

theorem started_inv (h : idle ≠ main) : Inv (started main idle) := by
  have hstat : ∀ u, (started main idle).statusOf u =
      if u = main then some .running else if u = idle then some .blocked else none := by
    intro u
    by_cases hm : u = main
    · simp [Kernel.statusOf, started, hm]
    · by_cases hi : u = idle
      · simp [Kernel.statusOf, started, initThread, hi, h]
      · simp [Kernel.statusOf, started, hm, hi]
  refine
    { idle := ⟨idle, rfl, .blocked, by rw [hstat, if_neg h, if_pos rfl], by decide⟩,
      running := ?_, ready := ?_, blocked := ?_, apart := by simp [started],
      looseApart := by simp, readyNodup := List.nodup_nil, waitNodup := List.nodup_nil,
      waitersNodup := List.nodup_nil, readySorted := List.Pairwise.nil,
      waitSorted := List.Pairwise.nil, all := ?_, allNodup := ?_ }
  · intro u
    rw [hstat]
    show _ ↔ some main = some u
    by_cases hm : u = main
    · simp [hm]
    · by_cases hi : u = idle
      · simp [hi, h, Ne.symm h]
      · simp [hm, hi, Ne.symm hm]
  · intro u
    rw [hstat]
    show u ∈ [] ↔ some idle ≠ some u ∧ _
    by_cases hm : u = main
    · simp [hm]
    · by_cases hi : u = idle
      · simp [hi]
      · simp [hm, hi]
  · intro u
    rw [hstat]
    show (u ∈ [] ∨ u ∈ [] ∨ _) ↔ some idle ≠ some u ∧ _
    by_cases hm : u = main
    · simp [hm]
    · by_cases hi : u = idle
      · simp [hi]
      · simp [hm, hi]
  · intro u
    rw [hstat]
    show u ∈ [main, idle] ↔ _
    by_cases hm : u = main
    · simp [hm]
    · by_cases hi : u = idle
      · simp [hi, h]
      · simp [hm, hi]
  · show [main, idle].Nodup
    simp [Ne.symm h]

/-- Invariant induction for the thread system: a property of the state after
`thread_start` that every step from consistent queues preserves. -/
theorem reachable_invariant {P : Kernel → Prop} (h : Reachable main idle k)
    (hinit : idle ≠ main → P (started main idle))
    (hstep : ∀ s a s', Inv s → Step s a s' → P s → P s') : Inv k ∧ P k := by
  rcases h with ⟨k₀, hstart, hreach⟩
  have hne : idle ≠ main := ne_of_threadStart hstart
  have hk₀ : k₀ = started main idle := by
    rw [threadStart_eq hne] at hstart
    exact (Except.ok.inj hstart).symm
  refine hreach.invariant (P := fun k => Inv k ∧ P k) ?_ ?_
  · rintro s a s' hs ⟨hinv, hP⟩
    exact ⟨(step_cases hinv hs).2, hstep s a s' hinv hs hP⟩
  · rw [hk₀]
    exact ⟨started_inv hne, hinit hne⟩

/-- The queues are consistent in every reachable state. -/
theorem reachable_inv (h : Reachable main idle k) : Inv k :=
  (reachable_invariant (P := fun _ => True) h (fun _ => trivial) fun _ _ _ _ _ _ => trivial).1

/-! ## The statement in the source's terms -/

/-- What the scheduler queues promise between two operations. -/
structure QueuesConsistent (k : Kernel) : Prop where
  /-- Exactly one thread is `THREAD_RUNNING`. -/
  oneRunning : ∃! t, k.statusOf t = some .running
  /-- Every other live thread except the idle thread is in exactly one place:
  on `ready_list` once and ready, on `wait_list` once and blocked, or blocked by
  other kernel code. -/
  place : ∀ t ∈ k.allList, k.statusOf t ≠ some .running → k.idleThread ≠ some t →
    (k.readyList.count t = 1 ∧ k.statusOf t = some .ready ∧ t ∉ k.waitList ∧ t ∉ k.waiters) ∨
    (k.waitList.count t = 1 ∧ k.statusOf t = some .blocked ∧ t ∉ k.readyList ∧ t ∉ k.waiters) ∨
    (t ∈ k.waiters ∧ k.statusOf t = some .blocked ∧ t ∉ k.readyList ∧ t ∉ k.waitList)
  notBoth : ∀ t ∈ k.readyList, t ∉ k.waitList
  /-- The lists hold live threads only, so no dying and no freed one. -/
  live : ∀ t, t ∈ k.readyList ∨ t ∈ k.waitList → t ∈ k.allList ∧ k.statusOf t ≠ some .dying
  idleNowhere : ∀ i, k.idleThread = some i → i ∉ k.readyList ∧ i ∉ k.waitList
  waitSorted : k.waitList.Pairwise fun a b => k.wakeTickOf a ≤ k.wakeTickOf b
  readySorted : k.readyList.Pairwise fun a b => k.priorityOf b ≤ k.priorityOf a

namespace Queues

/-- A thread has one place at most. -/
theorem place_unique {run : Option Tid} {t : Tid} (h : Queues run none k)
    (ht : t ∈ k.readyList) : t ∉ k.waitList ∧ t ∉ k.waiters := by
  have hready := ((h.ready t).mp ht).2
  constructor
  · intro hm
    have hblocked := ((h.blocked t).mp (.inl hm)).2
    simp [hready] at hblocked
  · intro hm
    have hblocked := ((h.blocked t).mp (.inr (.inl hm))).2
    simp [hready] at hblocked

theorem consistent (h : Inv k) : QueuesConsistent k where
  oneRunning := by
    refine ⟨k.current, (h.running k.current).mpr rfl, ?_⟩
    intro t ht
    exact (Option.some.inj ((h.running t).mp ht)).symm
  place := by
    intro t ht hrun hidle
    rcases (h.all t).mp ht with ⟨s, hs, hsd⟩
    cases s with
    | running => exact absurd hs hrun
    | dying => exact absurd rfl hsd
    | ready =>
        have hm : t ∈ k.readyList := (h.ready t).mpr ⟨hidle, hs⟩
        exact .inl ⟨List.count_eq_one_of_mem h.readyNodup hm, hs, place_unique h hm⟩
    | blocked =>
        have hnot : t ∉ k.readyList := by
          intro hm
          have hr := ((h.ready t).mp hm).2
          simp [hs] at hr
        rcases (h.blocked t).mpr ⟨hidle, hs⟩ with hm | hm | hm
        · exact .inr (.inl ⟨List.count_eq_one_of_mem h.waitNodup hm, hs, hnot, h.apart t hm⟩)
        · exact .inr (.inr ⟨hm, hs, hnot, fun hw => h.apart t hw hm⟩)
        · simp at hm
  notBoth := fun t ht => (place_unique h ht).1
  live := by
    intro t ht
    rcases ht with hm | hm
    · have hs := ((h.ready t).mp hm).2
      exact ⟨(h.all t).mpr ⟨.ready, hs, by decide⟩, by simp [hs]⟩
    · have hs := ((h.blocked t).mp (.inl hm)).2
      exact ⟨(h.all t).mpr ⟨.blocked, hs, by decide⟩, by simp [hs]⟩
  idleNowhere := by
    intro i hi
    exact ⟨fun hm => ((h.ready i).mp hm).1 hi, fun hm => ((h.blocked i).mp (.inl hm)).1 hi⟩
  waitSorted := h.waitSorted.imp fun hab => Int64.le_iff_toInt_le.mpr hab
  readySorted := h.readySorted.imp fun hab => Int32.le_iff_toInt_le.mpr (by omega)

end Queues

/-- In every state reachable after `thread_start` the queues are consistent,
and every operation that can occur there completes: in particular neither
`t->status == THREAD_BLOCKED` in `thread_unblock` nor
`cur->status != THREAD_RUNNING` in `schedule` fails. -/
theorem queues_consistent (h : Reachable main idle k) :
    QueuesConsistent k ∧ ∀ a, Enabled k a → ∃ k', perform k a = .ok k' := by
  have hinv : Inv k := reachable_inv h
  refine ⟨Queues.consistent hinv, ?_⟩
  intro a hen
  rcases step_ok hinv hen with ⟨k', heq, _⟩
  exact ⟨k', heq⟩

/-- The initial thread goes to sleep, another thread is created and exits. -/
theorem queues_consistent_run :
    ∃ k, Reachable 1 2 k ∧ k.waitList = [1] ∧ k.current = 2 ∧ QueuesConsistent k := by
  have hrun : ∃ k, [Act.create 3 40, .sleepRead 5, .tick, .sleepBlock, .exit].foldlM next
      (started 1 2) = .ok k ∧ k.waitList = [1] ∧ k.current = 2 := ⟨_, rfl, rfl, rfl⟩
  rcases hrun with ⟨k, hk, hw, hc⟩
  have hreach : Reachable 1 2 k :=
    ⟨started 1 2, threadStart_eq (by decide), _,
      (Lts.run_of_foldlM next hk).mono fun _ _ _ => step_of_next⟩
  exact ⟨k, hreach, hw, hc, (queues_consistent hreach).1⟩

end Pintos.Threads
