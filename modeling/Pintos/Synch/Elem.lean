import Pintos.Synch.Queues

/-! # The lists of the threads in every reachable state

Every step keeps the invariant of the lists, so that the comment on the member
`elem` of `struct thread` holds: it can be an element of the run queue and of
the waiters of a semaphore, because these are mutually exclusive.
-/

namespace Pintos.Synch

open Threads (ThreadStatus)

variable {k k' : Kernel} {p t u v n : Ptr} {s : Sema} {a : Act} {acts r : List Act}

/-! ## Calls -/

theorem Act.fresh_iff : a.Fresh u ↔ a ≠ .setIdle ∧ a ≠ .idleBlock ∧ a ≠ .halt ∧
    ∀ v, a = .down (.ofWaiter v) ∨ a = .retest (.ofWaiter v) → u = v := by
  unfold Act.Fresh Act.OfIdle
  rw [not_or, not_or, and_assoc, and_assoc]

/-- No function but `idle` has acts of the idle thread, and `cond_wait` downs the semaphore
on its own stack. -/
theorem Call.code_fresh (c : Call) : ∀ a ∈ c.code u, a.Fresh u := by
  cases c <;>
    simp [Call.code, Act.fresh_iff, Synch.lockAcquire, Synch.lockRelease, Synch.condWait,
      Synch.threadCreate, allocateTid]

theorem Call.code_exits (c : Call) :
    .releaseLocks ∈ c.code u → c.code u = [.releaseLocks] := by
  cases c <;>
    simp [Call.code, Synch.lockAcquire, Synch.lockRelease, Synch.condWait, Synch.threadCreate,
      allocateTid]

theorem count_threadCreate : (threadCreate t).count (.unblock u) = if u = t then 1 else 0 := by
  by_cases hu : u = t
  · subst hu
    simp [threadCreate, allocateTid, lockAcquire, lockRelease]
  · simp [threadCreate, allocateTid, lockAcquire, lockRelease, hu, Ne.symm hu]

theorem Call.count_unblock {c : Call} (hc : ∀ t, c ≠ .threadCreate t) :
    (c.code u).count (.unblock t) = 0 := by
  rw [List.count_eq_zero]
  cases c <;>
    simp [Call.code, Synch.lockAcquire, Synch.lockRelease, Synch.condWait] at hc ⊢

/-- A function other than `thread_create` is called. -/
theorem Queues.call (h : Queues k p) (hrun : k.status k.current = some .running)
    (hidle : k.todo = []) {c : Call} (hc : ∀ t, c ≠ .threadCreate t) :
    Queues (k.setRest k.current (c.code k.current)) p := by
  have hrest : k.rest k.current = [] := hidle
  have hne : k.current ≠ p := by
    rintro heq
    exact h.idle.rest_ne_nil (heq ▸ hrest)
  refine h.detour hrun hne (fun t => ?_) (fun a ha => .inr (c.code_fresh a ha)) c.code_exits
  rw [Call.count_unblock hc, hrest, List.count_nil]

/-- `thread_create` is called. -/
theorem Queues.create (h : Queues k p) (hrun : k.status k.current = some .running)
    (hidle : k.todo = []) (ht : k.status t = none) :
    Queues ((initThread k t).setRest k.current (threadCreate t)) p := by
  have hnil : ∀ u, k.status u = none → k.rest u = [] := by
    intro u hu
    by_contra hrest
    exact (h.alive u hrest).1 hu
  have htc : k.current ≠ t := by
    rintro heq
    rw [heq, ht] at hrun
    cases hrun
  have hself : Function.update k.status t (some ThreadStatus.blocked) t = some .blocked :=
    Function.update_self ..
  have hother : ∀ u, u ≠ t → Function.update k.status t (some .blocked) u = k.status u :=
    fun u hu => Function.update_of_ne hu ..
  have hcur : k.rest k.current = [] := hidle
  -- only the running thread has something else to do
  have hrest : Function.update (Function.update k.rest t []) k.current (threadCreate t) =
      Function.update k.rest k.current (threadCreate t) := by
    rw [← hnil t ht, Function.update_eq_self]
  have hne : k.current ≠ p := fun heq => h.idle.rest_ne_nil (heq ▸ hcur)
  have hwaiters : ∀ s, t ∉ k.waiters s := by
    intro s hmem
    have hno := (h.of_mem_waiters hmem).1
    rw [ht] at hno
    cases hno
  have hunblock : ∀ u v, .unblock v ∈ Function.update k.rest k.current (threadCreate t) u ↔
      .unblock v ∈ k.rest u ∨ (u = k.current ∧ v = t) := by
    intro u v
    by_cases hu : u = k.current
    · subst hu
      rw [Function.update_self, hcur, ← List.count_pos_iff, count_threadCreate]
      by_cases hv : v = t
      · simp [hv]
      · simp [hv]
    · rw [Function.update_of_ne hu]
      simp [hu]
  have hkeep : ∀ u, u ≠ k.current →
      Function.update k.rest k.current (threadCreate t) u = k.rest u :=
    fun u hu => Function.update_of_ne hu ..
  have hnew : Function.update k.rest k.current (threadCreate t) k.current = threadCreate t :=
    Function.update_self ..
  have hfresh := (Call.threadCreate t).code_fresh (u := k.current)
  refine Queues.congr (k := { k with
    status := Function.update k.status t (some .blocked)
    rest := Function.update k.rest k.current (threadCreate t)
    allList := k.allList ++ [t] }) ⟨h.readyNodup, fun u => ?_, h.waitersNodup, fun u s => ?_,
      fun u hu => ?_, fun u v hmem => ?_, fun u v w hv hw => ?_, fun u v => ?_, fun u hmem => ?_,
      fun u hu => ?_, ⟨?_, fun u a hmem ha => ?_⟩, ?_, fun u => ?_, fun u hu => ?_, ?_,
      fun u v hmem => ?_⟩ ⟨rfl, hrest, rfl, rfl, rfl, rfl, rfl, rfl⟩
  · dsimp only
    by_cases hu : u = t
    · subst hu
      rw [hself, h.ready, ht]
      exact iff_of_false (fun hno => by cases hno.1) fun hno => by cases hno.1
    · rw [hother u hu]
      exact h.ready u
  · dsimp only
    by_cases hu : u = t
    · subst hu
      rw [hself, hkeep u (Ne.symm htc), hnil u ht]
      exact iff_of_false (hwaiters s) fun hno => by cases hno.2
    · rw [hother u hu, h.waiting]
      refine and_congr_right fun hst => ?_
      rw [hkeep u]
      rintro rfl
      rw [hrun] at hst
      cases hst
  · dsimp only at hu ⊢
    by_cases hut : u = t
    · exact .inr (.inr ⟨k.current, (hunblock _ u).mpr (.inr ⟨rfl, hut⟩)⟩)
    · rw [hother u hut] at hu
      have huc : u ≠ k.current := by
        rintro rfl
        rw [hrun] at hu
        cases hu
      rw [hkeep u huc]
      rcases h.blocked u hu with hhead | hidle | ⟨v, hv⟩
      · exact .inl hhead
      · exact .inr (.inl hidle)
      · exact .inr (.inr ⟨v, (hunblock v u).mpr (.inl hv)⟩)
  · dsimp only at hmem ⊢
    rcases (hunblock v u).mp hmem with hold | ⟨-, rfl⟩
    · obtain ⟨hst, hempty⟩ := h.created u v hold
      have hut : u ≠ t := by
        rintro rfl
        rw [ht] at hst
        cases hst
      have huc : u ≠ k.current := by
        rintro rfl
        rw [hrun] at hst
        cases hst
      rw [hother u hut, hkeep u huc]
      exact ⟨hst, hempty⟩
    · rw [hkeep u (Ne.symm htc)]
      exact ⟨hself, hnil u ht⟩
  · -- a page that is free is not being made a thread yet
    have hfree : ∀ x y, .unblock x ∈ k.rest y → x ≠ t := by
      rintro x y hmem rfl
      have hno := (h.created x y hmem).1
      rw [ht] at hno
      cases hno
    rcases (hunblock v u).mp hv with hv | ⟨hv, hu⟩
    · rcases (hunblock w u).mp hw with hw | ⟨-, hu⟩
      · exact h.creator u v w hv hw
      · exact absurd hu (hfree u v hv)
    · rcases (hunblock w u).mp hw with hw | ⟨hw, -⟩
      · exact absurd hu (hfree u w hw)
      · exact hv.trans hw.symm
  · dsimp only
    by_cases hv : v = k.current
    · subst hv
      rw [hnew, count_threadCreate]
      split
      next => exact le_rfl
      next => exact Nat.zero_le _
    · rw [hkeep v hv]
      exact h.once u v
  · dsimp only at hmem ⊢
    by_cases hu : u = k.current
    · subst hu
      rw [hnew] at hmem ⊢
      exact (Call.threadCreate t).code_exits (u := k.current) hmem
    · rw [hkeep u hu] at hmem ⊢
      exact h.exits u hmem
  · dsimp only at hu ⊢
    by_cases hut : u = t
    · subst hut
      rw [hself]
      decide
    · rw [hother u hut]
      by_cases huc : u = k.current
      · subst huc
        rw [hrun]
        decide
      · rw [hkeep u huc] at hu
        exact h.alive u hu
  · have hpt : p ≠ t := by
      rintro rfl
      exact h.idle.rest_ne_nil (hnil p ht)
    dsimp only
    rw [hkeep p (Ne.symm hne), hother p hpt]
    exact h.idle.code
  · dsimp only at hmem
    by_cases hu : u = k.current
    · subst hu
      rw [hnew] at hmem
      exact absurd ha (hfresh a hmem).1
    · rw [hkeep u hu] at hmem
      exact h.idle.only u a hmem ha
  · refine nodup_concat h.allNodup ?_
    rw [h.all, ht]
    exact fun hno => hno.1 rfl
  · dsimp only
    by_cases hu : u = t
    · subst hu
      rw [hself]
      exact iff_of_true (List.mem_append_right _ List.mem_cons_self) ⟨by decide, by decide⟩
    · rw [hother u hu, mem_concat_of_ne hu]
      exact h.all u
  · dsimp only at hu ⊢
    by_cases hut : u = t
    · subst hut
      rw [hself] at hu
      cases hu
    · rw [hother u hut] at hu
      exact h.dying u hu
  · dsimp only
    rw [hother]
    · exact h.initial
    · intro heq
      exact h.initial (heq ▸ ht)
  · dsimp only at hmem
    by_cases hu : u = k.current
    · subst hu
      rw [hnew] at hmem
      rcases hmem with hmem | hmem
      · exact (hfresh _ hmem).2 v (.inl rfl)
      · exact (hfresh _ hmem).2 v (.inr rfl)
    · rw [hkeep u hu] at hmem
      exact h.ownWaiter u v hmem

/-! ## Steps -/

/-- The idle thread registers. -/
theorem Queues.setIdle (h : Queues k p) (hrun : k.status k.current = some .running)
    (htodo : k.todo = .setIdle :: acts) :
    Queues ({ k with idleThread := some k.current }.setRest k.current acts) p := by
  have hmem : Act.setIdle ∈ k.rest k.current := by
    rw [show k.rest k.current = _ from htodo]
    exact List.mem_cons_self
  have hp : k.current = p := h.idle.only _ _ hmem (.inl rfl)
  have hrest : k.rest p = .setIdle :: acts := hp ▸ htodo
  obtain ⟨hnone, started, hacts⟩ : k.idleThread = none ∧
      ∃ started, acts = [.up (.plain started), .idleBlock] := by
    obtain ⟨hnone, -, started, hcode⟩ | ⟨-, ⟨started, hcode⟩ | hcode | hcode⟩ := h.idle.code
    · rw [hrest] at hcode
      exact ⟨hnone, started, (List.cons.inj hcode).2⟩
    · rw [hrest] at hcode
      cases hcode
    · rw [hrest] at hcode
      cases hcode
    · rw [hrest] at hcode
      cases hcode
  refine (h.setTodo hrun (some k.current) (fun t ht => ?_) (fun t => ?_) ⟨.inr ⟨?_, ?_⟩, ?_⟩
    (fun v hv => ?_) fun hexit => ?_).congr ⟨rfl, rfl, rfl, rfl, rfl, rfl, rfl, rfl⟩
  · rw [hnone]
    refine iff_of_false (fun heq => ht ?_) nofun
    rw [← Option.some.inj heq]
    exact hrun
  · rw [hp, hrest, List.count_cons_of_ne (by simp)]
  · rw [hp]
  · rw [hp]
    show IdleLoop (Function.update k.rest p acts p)
    rw [Function.update_self]
    exact .inl ⟨started, hacts⟩
  · intro t a hmem ha
    by_contra ht
    have hmem' : a ∈ Function.update k.rest k.current acts t := hmem
    rw [Function.update_of_ne (hp ▸ ht)] at hmem'
    exact ht (h.idle.only t a hmem' ha)
  · rw [hacts] at hv
    simp at hv
  · rw [hacts] at hexit
    simp at hexit

/-- An interrupt ends the wait of the idle thread. -/
theorem Queues.leaveHalt (h : Queues k p) (hrun : k.status k.current = some .running) :
    Queues (leaveHalt k) p := by
  unfold Synch.leaveHalt
  split
  next htodo =>
    have hrest : k.rest k.current = [.halt] := htodo
    have hp : k.current = p := by
      refine h.idle.only _ .halt ?_ (.inr (.inr rfl))
      rw [hrest]
      exact List.mem_cons_self
    have hsome : k.idleThread = some p := by
      obtain ⟨-, -, started, hcode⟩ | ⟨hsome, -⟩ := h.idle.code
      · rw [← hp, hrest] at hcode
        cases hcode
      · exact hsome
    refine h.setRest hrun (fun t => ?_) ?_ (fun v hv => ?_) fun hexit => ?_
    · rw [hrest]
      rfl
    · rw [hp]
      exact h.idle.setRest_self hsome (.inr (.inl rfl))
    · simp at hv
    · simp at hexit
  next => exact h

theorem same_ticked : SameQueues k (ticked k) := by
  unfold ticked countTick
  split
  next => exact ⟨rfl, rfl, rfl, rfl, rfl, rfl, rfl, rfl⟩
  next =>
    split
    next => exact ⟨rfl, rfl, rfl, rfl, rfl, rfl, rfl, rfl⟩
    next => exact ⟨rfl, rfl, rfl, rfl, rfl, rfl, rfl, rfl⟩

/-- The state is one between two acts. -/
structure Settled (k : Kernel) (p : Ptr) : Prop where
  queues : Queues k p
  running : Running k

theorem Settled.current (h : Settled k p) : k.status k.current = some .running :=
  (h.running _).mpr rfl

/-- The semaphore on the stack of the running thread has no waiters. -/
theorem Settled.ownWaiters_nil (h : Settled k p) : k.waiters (.ofWaiter k.current) = [] := by
  rw [List.eq_nil_iff_forall_not_mem]
  intro t hmem
  obtain ⟨hblocked, hhead⟩ := (h.queues.waiting t _).mp hmem
  have ht := h.queues.ownWaiter t k.current (.inr (List.mem_of_mem_head? hhead))
  rw [ht, h.current] at hblocked
  cases hblocked

/-- `cond_wait` initializes it. -/
theorem Settled.update_ownWaiters (h : Settled k p) :
    Function.update k.waiters (.ofWaiter k.current) [] = k.waiters := by
  rw [← h.ownWaiters_nil, Function.update_eq_self]

theorem Queues.scheduled (h : Queues k p) (hno : ∀ t, k.status t ≠ some .running)
    (hs : schedule k = .ok k') : Settled k' p := by
  obtain ⟨-, n, hn, hlive, rfl⟩ := schedule_iff.mp hs
  obtain ⟨hq, hr⟩ := h.switchTo hno hn hlive
  exact ⟨hq, hr⟩

/-- No thread runs when the running one has another status. -/
theorem Running.leave (h : Running k) (st : ThreadStatus) (hst : st ≠ .running) (t : Ptr) :
    Function.update k.status k.current (some st) t ≠ some .running := by
  by_cases ht : t = k.current
  · subst ht
    rw [Function.update_self]
    exact fun heq => hst (Option.some.inj heq)
  · rw [Function.update_of_ne ht, ne_eq, h t]
    exact ht

theorem Running.wakeUp (h : Running k) (ht : k.status t = some .blocked) :
    Running (wakeUp k t) := by
  intro u
  show Function.update k.status t (some .ready) u = some .running ↔ u = k.current
  by_cases hu : u = t
  · subst hu
    rw [Function.update_self, ← h u, ht]
    decide
  · rw [Function.update_of_ne hu]
    exact h u

theorem Running.popWaiter (h : Running k)
    (hw : ∀ t, (k.waiters s).head? = some t → k.status t = some .blocked) :
    Running (popWaiter k s) := by
  unfold Synch.popWaiter
  split
  next => exact h
  next t ts heq =>
    have ht : k.status t = some .blocked := hw t (by rw [heq]; rfl)
    exact Running.wakeUp (k := (k.setWaiters s ts).log (.wake t s)) h ht

/-- `sema_up` leads from one such state to another. -/
theorem Settled.raised (h : Settled k p)
    (hw : ∀ t, (k.waiters s).head? = some t → k.status t = some .blocked) :
    Settled (raised k s) p :=
  ⟨h.queues.popWaiter.congr ⟨rfl, rfl, rfl, rfl, rfl, rfl, rfl, rfl⟩,
    (h.running.popWaiter hw).congr rfl rfl⟩

theorem yielded_status : (yielded k).status = Function.update k.status k.current (some .ready) := by
  unfold yielded
  split
  next => rfl
  next => rfl

/-- The running thread is done with an act that changes no list. -/
theorem Settled.advance (h : Settled k p) (htodo : k.todo = a :: acts) (ha : ¬ a.OfIdle)
    (hunblock : ∀ t, a ≠ .unblock t) (he : SameQueues (k.setRest k.current acts) k') :
    Settled k' p :=
  ⟨(h.queues.advance h.current htodo ha hunblock).congr he,
    h.running.congr he.status he.current⟩

/-- The running thread calls a function in turn. -/
theorem Settled.detour (h : Settled k p) (htodo : k.todo = a :: acts) (hne : k.current ≠ p)
    (hunblock : ∀ t, a ≠ .unblock t) (pre : List Act)
    (hpre : ∀ b ∈ pre, b.Fresh k.current ∧ b ≠ .releaseLocks ∧ ∀ t, b ≠ .unblock t)
    (he : SameQueues (k.setRest k.current (pre ++ acts)) k') : Settled k' p := by
  have hrest : k.rest k.current = a :: acts := htodo
  refine ⟨(h.queues.detour h.current hne (fun t => ?_) (fun b hb => ?_) fun hexit => ?_).congr he,
    h.running.congr he.status he.current⟩
  · rw [hrest, List.count_cons_of_ne (hunblock t), List.count_append,
      List.count_eq_zero.mpr fun hmem => (hpre _ hmem).2.2 t rfl, Nat.zero_add]
  · rcases List.mem_append.mp hb with hb | hb
    · exact .inr (hpre b hb).1
    · left
      rw [hrest]
      exact List.mem_cons_of_mem _ hb
  · rcases List.mem_append.mp hexit with hmem | hmem
    · exact absurd rfl (hpre _ hmem).2.1
    · exact absurd hmem (h.queues.exits_notMem hrest)

/-- An act leads from one such state to another. -/
theorem Settled.exec (h : Settled k p) (htodo : k.todo = a :: acts) (he : Exec k acts a k') :
    Settled k' p := by
  have hsame : ∀ {k₁ : Kernel}, SameQueues k₁ k₁ := ⟨rfl, rfl, rfl, rfl, rfl, rfl, rfl, rfl⟩
  cases he with
  | sleep ha hv hs =>
      exact (h.queues.asleep h.current htodo ha).scheduled
        (h.running.leave .blocked (by decide)) hs
  | take ha hv =>
      rcases ha with rfl | rfl
      · exact h.advance htodo (by simp [Act.OfIdle]) (by simp) ⟨rfl, rfl, rfl, rfl, rfl, rfl, rfl, rfl⟩
      · exact h.advance htodo (by simp [Act.OfIdle]) (by simp) ⟨rfl, rfl, rfl, rfl, rfl, rfl, rfl, rfl⟩
  | tryTake hv =>
      exact h.advance htodo (by simp [Act.OfIdle]) (by simp) ⟨rfl, rfl, rfl, rfl, rfl, rfl, rfl, rfl⟩
  | tryFails hv => exact h.advance htodo (by simp [Act.OfIdle]) (by simp) hsame
  | up hw =>
      exact (h.advance htodo (by simp [Act.OfIdle]) (by simp) hsame).raised hw
  | checkFree hl => exact h.advance htodo (by simp [Act.OfIdle]) (by simp) hsame
  | setHolder =>
      exact h.advance htodo (by simp [Act.OfIdle]) (by simp) ⟨rfl, rfl, rfl, rfl, rfl, rfl, rfl, rfl⟩
  | pushLock =>
      exact h.advance htodo (by simp [Act.OfIdle]) (by simp) ⟨rfl, rfl, rfl, rfl, rfl, rfl, rfl, rfl⟩
  | clearHolder hl =>
      exact h.advance htodo (by simp [Act.OfIdle]) (by simp) ⟨rfl, rfl, rfl, rfl, rfl, rfl, rfl, rfl⟩
  | removeLock hl =>
      exact h.advance htodo (by simp [Act.OfIdle]) (by simp) ⟨rfl, rfl, rfl, rfl, rfl, rfl, rfl, rfl⟩
  | @enqueueWaiter c l hl =>
      exact h.advance htodo (by simp [Act.OfIdle]) (by simp)
        ⟨rfl, rfl, rfl, rfl, rfl, rfl, rfl, h.update_ownWaiters⟩
  | signalNone hl hc => exact h.advance htodo (by simp [Act.OfIdle]) (by simp) hsame
  | @signal c l t ts hl hc =>
      refine h.detour htodo (h.queues.idle.ne htodo (by simp [Act.OfIdle]) (by simp)) (by simp)
        [.up (.ofWaiter t)] (fun b hb => ?_) ⟨rfl, rfl, rfl, rfl, rfl, rfl, rfl, rfl⟩
      obtain rfl := List.mem_singleton.mp hb
      exact ⟨by simp [Act.fresh_iff], by simp, by simp⟩
  | broadcastEnd hc => exact h.advance htodo (by simp [Act.OfIdle]) (by simp) hsame
  | @broadcast c l hc =>
      refine h.detour htodo (h.queues.idle.ne htodo (by simp [Act.OfIdle]) (by simp)) (by simp)
        [.signal c l, .broadcast c l] (fun b hb => ?_) hsame
      rcases List.mem_cons.mp hb with rfl | hb
      · exact ⟨by simp [Act.fresh_iff], by simp, by simp⟩
      · obtain rfl := List.mem_singleton.mp hb
        exact ⟨by simp [Act.fresh_iff], by simp, by simp⟩
  | loadTid =>
      exact h.advance htodo (by simp [Act.OfIdle]) (by simp) ⟨rfl, rfl, rfl, rfl, rfl, rfl, rfl, rfl⟩
  | storeTid ht =>
      exact h.advance htodo (by simp [Act.OfIdle]) (by simp) ⟨rfl, rfl, rfl, rfl, rfl, rfl, rfl, rfl⟩
  | setTid =>
      exact h.advance htodo (by simp [Act.OfIdle]) (by simp) ⟨rfl, rfl, rfl, rfl, rfl, rfl, rfl, rfl⟩
  | unblock ht =>
      exact ⟨h.queues.unblock h.current htodo, Running.wakeUp (k := k.setRest _ _) h.running ht⟩
  | yield hs =>
      have h₁ : Settled (k.setRest k.current acts) p :=
        h.advance htodo (by simp [Act.OfIdle]) (by simp) hsame
      refine (h₁.queues.yielded h₁.current).scheduled (fun t => ?_) hs
      rw [yielded_status]
      exact h₁.running.leave .ready (by decide) t
  | finish hl hs =>
      exact (h.queues.ended h.current htodo).scheduled (h.running.leave .dying (by decide)) hs
  | releaseLock hl hmem hw =>
      refine Settled.raised (k := unlisted k _) ⟨h.queues.congr ?_, h.running.congr rfl rfl⟩ hw
      exact ⟨rfl, rfl, rfl, rfl, rfl, rfl, rfl, rfl⟩
  | setIdle => exact ⟨h.queues.setIdle h.current htodo, h.running.congr rfl rfl⟩
  | idleBlock hs =>
      exact (h.queues.idleBlocks h.current htodo).scheduled (h.running.leave .blocked (by decide)) hs

theorem Settled.leaveHalt (h : Settled k p) : Settled (leaveHalt k) p := by
  refine ⟨h.queues.leaveHalt h.current, h.running.congr leaveHalt_status ?_⟩
  unfold Synch.leaveHalt
  split
  next => rfl
  next => rfl

theorem Settled.ticked (h : Settled k p) : Settled (ticked k) p :=
  ⟨h.queues.congr same_ticked, h.running.congr same_ticked.status same_ticked.current⟩

theorem Settled.begin (h : Settled k p) {c : Call} (hc : c.Allowed k) (hidle : k.todo = []) :
    Settled (begin k c) p := by
  by_cases hcreate : ∃ t, c = .threadCreate t
  · obtain ⟨t, rfl⟩ := hcreate
    obtain ⟨-, ht⟩ := hc
    refine ⟨h.queues.create h.current hidle ht, fun u => ?_⟩
    show Function.update k.status t (some .blocked) u = some .running ↔ u = k.current
    by_cases hu : u = t
    · subst hu
      rw [Function.update_self, ← h.running u, ht]
      decide
    · rw [Function.update_of_ne hu]
      exact h.running u
  · have hne : ∀ t, c ≠ .threadCreate t := fun t heq => hcreate ⟨t, heq⟩
    have hbegin : Synch.begin k c = k.setRest k.current (c.code k.current) := by
      cases c with
      | threadCreate t => exact absurd rfl (hne t)
      | _ => rfl
    rw [hbegin]
    exact ⟨h.queues.call h.current hidle hne, h.running.congr rfl rfl⟩

/-- A step leads from one such state to another. -/
theorem Settled.step (h : Settled k p) {b : Label} (hs : Step k b k') : Settled k' p := by
  obtain ⟨-, hhappens⟩ := step_cases hs
  cases hhappens with
  | call hc hidle => exact h.begin hc hidle
  | exec htodo he => exact h.exec htodo he
  | tick hon ht => exact h.leaveHalt.ticked
  | slice hon ht hs =>
      have h₁ := h.leaveHalt.ticked
      refine (h₁.queues.yielded h₁.current).scheduled (fun t => ?_) hs
      rw [yielded_status]
      exact h₁.running.leave .ready nofun t
  | device hon hw =>
      refine h.leaveHalt.raised fun t ht => ?_
      rw [leaveHalt_waiters] at ht
      rw [leaveHalt_status]
      exact hw t ht
  | setPagedir hidle =>
      exact ⟨h.queues.congr ⟨rfl, rfl, rfl, rfl, rfl, rfl, rfl, rfl⟩, h.running.congr rfl rfl⟩

/-! ## Reachable states -/

section

variable {listed : Bool} {main started : Ptr} {value : Ptr → ℕ}

theorem boot_status : (boot listed main p started value).status t =
    if t = p then some .ready else if t = main then some .running else none := by
  simp only [boot, Function.update_apply]

theorem boot_rest : (boot listed main p started value).rest t =
    if t = p then idle started else if t = main then [.down (.plain started)] else [] := by
  simp only [boot, Function.update_apply]

/-- At the start nothing is to be created, and nothing sleeps. -/
theorem boot_acts (ha : a ∈ (boot listed main p started value).rest t) :
    (t = p ∧ (a = .setIdle ∨ a = .up (.plain started) ∨ a = .idleBlock)) ∨
      (t = main ∧ a = .down (.plain started)) := by
  rw [boot_rest] at ha
  split at ha
  next ht =>
    left
    simpa [idle, ht] using ha
  next =>
    split at ha
    next ht =>
      right
      simpa [ht] using ha
    next => simp at ha

theorem settled_boot (hne : main ≠ p) : Settled (boot listed main p started value) p := by
  have hunblock : ∀ t u, .unblock t ∉ (boot listed main p started value).rest u := by
    intro t u hmem
    simpa using boot_acts hmem
  refine ⟨⟨List.nodup_singleton _, fun t => ?_, fun _ => List.nodup_nil, fun t s => ?_, fun t ht => ?_,
    fun t u hmem => absurd hmem (hunblock t u), fun t u v hmem => absurd hmem (hunblock t u),
    fun t u => ?_, fun t hmem => ?_, fun t ht => ?_, ⟨.inl ⟨rfl, ?_, started, ?_⟩, fun t a hmem ha => ?_⟩,
    ?_, fun t => ?_, fun t ht => ?_, ?_, fun t u hmem => ?_⟩, fun t => ?_⟩
  · show t ∈ [p] ↔ _ ∧ none ≠ some t
    rw [boot_status, List.mem_singleton]
    by_cases ht : t = p
    · simp [ht]
    · by_cases hm : t = main
      · simp [hm, hne]
      · simp [ht, hm]
  · show t ∈ [] ↔ _
    rw [boot_status]
    refine iff_of_false List.not_mem_nil fun hno => ?_
    split_ifs at hno <;> cases hno.1
  · rw [boot_status] at ht
    split_ifs at ht <;> cases ht
  · rw [List.count_eq_zero.mpr (hunblock t u)]
    exact Nat.zero_le _
  · simpa using boot_acts hmem
  · rw [boot_status]
    split_ifs with hp hm
    · simp
    · simp
    · rw [boot_rest, if_neg hp, if_neg hm] at ht
      exact absurd rfl ht
  · rw [boot_status, if_pos rfl]
    simp
  · rw [boot_rest, if_pos rfl]
  · rcases boot_acts hmem with ⟨ht, -⟩ | ⟨-, rfl⟩
    · exact ht
    · simp [Act.OfIdle] at ha
  · exact List.nodup_cons.mpr ⟨by simpa using hne, List.nodup_singleton _⟩
  · show t ∈ [main, p] ↔ _
    rw [boot_status]
    by_cases ht : t = p
    · simp [ht]
    · by_cases hm : t = main
      · simp [hm, hne]
      · simp [ht, hm]
  · rw [boot_status] at ht
    split_ifs at ht <;> cases ht
  · show (boot listed main p started value).status main ≠ none
    rw [boot_status, if_neg hne, if_pos rfl]
    simp
  · rcases hmem with hmem | hmem
    · simpa using boot_acts hmem
    · simpa using boot_acts hmem
  · show _ ↔ t = main
    rw [boot_status]
    by_cases ht : t = p
    · simp [ht, Ne.symm hne]
    · by_cases hm : t = main
      · simp [hm, hne]
      · simp [ht, hm]

end

theorem Reachable.settled (h : Reachable k) : ∃ p, Settled k p := by
  obtain ⟨k₀, ⟨listed, main, p, started, value, hne, rfl⟩, hreach⟩ := h
  exact ⟨p, hreach.invariant (P := fun k => Settled k p) (fun _ _ _ hs hk => hk.step hs)
    (settled_boot hne)⟩

/-- What the member `elem` of the threads is used for. -/
structure ElemUse (k : Kernel) : Prop where
  /-- The running thread is in no list. -/
  running : ∀ t, k.status t = some .running ↔ t = k.current
  /-- A ready thread is in `ready_list`, and nothing else is. The idle thread is not. -/
  ready : ∀ t, t ∈ k.readyList ↔ k.status t = some .ready ∧ k.idleThread ≠ some t
  /-- A thread among the waiters of a semaphore is blocked and going to test it again. -/
  waiting : ∀ t s, t ∈ k.waiters s ↔
    k.status t = some .blocked ∧ (k.rest t).head? = some (.retest s)
  /-- No thread is in a list twice. -/
  nodup : k.readyList.Nodup ∧ ∀ s, (k.waiters s).Nodup
  /-- No thread is in two lists. -/
  disjoint : ∀ t s, t ∈ k.waiters s → t ∉ k.readyList ∧ ∀ s', t ∈ k.waiters s' → s' = s
  /-- Whatever is blocked sleeps on a semaphore, is the idle thread, or is being created by
  one thread. -/
  blocked : ∀ t, k.status t = some .blocked →
    (∃ s, t ∈ k.waiters s) ∨ k.idleThread = some t ∨ ∃! u, .unblock t ∈ k.rest u

/-- A thread is in `ready_list` or among the waiters of one semaphore, as its status says,
whatever the threads do and whenever they are interrupted. -/
theorem elem_in_one_list (h : Reachable k) : ElemUse k := by
  obtain ⟨p, hq, hr⟩ := h.settled
  refine ⟨hr, hq.ready, hq.waiting, ⟨hq.readyNodup, hq.waitersNodup⟩, fun t s ht => ⟨?_, ?_⟩,
    fun t ht => ?_⟩
  · intro hready
    have hblocked := ((hq.waiting t s).mp ht).1
    rw [((hq.ready t).mp hready).1] at hblocked
    cases hblocked
  · intro s' ht'
    have heq := ((hq.waiting t s').mp ht').2.symm.trans ((hq.waiting t s).mp ht).2
    exact Act.retest.inj (Option.some.inj heq)
  · rcases hq.blocked t ht with ⟨s, hhead⟩ | hidle | ⟨u, hu⟩
    · exact .inl ⟨s, (hq.waiting t s).mpr ⟨ht, hhead⟩⟩
    · exact .inr (.inl hidle)
    · exact .inr (.inr ⟨u, hu, fun v hv => hq.creator t v u hv hu⟩)

theorem elem_in_one_list_contention :
    ∃ k, Reachable k ∧ k.waiters (.ofLock 7) = [5] ∧ ElemUse k := by
  obtain ⟨k, hk, -, hw⟩ := reachable_of_check contention
    (fun k => k.waiters (.ofLock 7) = [5]) (by decide +kernel)
  exact ⟨k, hk, of_decide_eq_true hw, elem_in_one_list hk⟩

end Pintos.Synch
