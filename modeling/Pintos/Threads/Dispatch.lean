import Pintos.Threads.Consistency

/-! # Which thread the scheduler picks

`ready_list` is kept in the order of descending priority and, among equal
priorities, of insertion (`Ranked`): the comparison of `prio_detect` is strict,
so a newcomer goes behind everybody it ties with. The moment of insertion is
read off the history, so the statement covers every way into the list alike.
-/

namespace Pintos.Threads

open OrderedInsert

variable {main idle t u n : Tid} {k k' : Kernel} {a : Act}

/-- The moment of the last insertion of `t` into `ready_list`, counted in
events since the start; the history is newest first. -/
def enqueuedAt : List Event → Tid → ℕ
  | [], _ => 0
  | e :: hist, t => if e = .enqueue t then hist.length + 1 else enqueuedAt hist t

/-- The order of `ready_list`: descending priority, then insertion. -/
def Before (k : Kernel) : Tid → Tid → Prop :=
  BeforeInQueue (fun u => -(k.priorityOf u).toInt) (enqueuedAt k.hist)

/-- `ready_list` is in that order. -/
def Ranked (k : Kernel) : Prop := k.readyList.Pairwise (Before k)

/-- `schedule` picked rightly: from an empty `ready_list` the idle thread; from
any other a thread that is not the idle one, whose priority nobody exceeds, and
that among its equals was inserted first. `pre` is the history at that moment. -/
structure PickedRight (pre : List Event) (idle next : Option Tid) (ready : List (Tid × Int32)) :
    Prop where
  ofEmpty : ready = [] → next = idle
  ofNonempty : ready ≠ [] → next ≠ idle ∧ ∃ t p, next = some t ∧ (t, p) ∈ ready ∧
    ∀ u q, (u, q) ∈ ready → u ≠ t → q < p ∨ q = p ∧ enqueuedAt pre t < enqueuedAt pre u

/-- Every pick recorded so far was right. -/
def Picked (k : Kernel) : Prop :=
  ∀ pre idle next ready, (.dispatch idle next ready :: pre) <:+ k.hist →
    PickedRight pre idle next ready

/-! ## The order of ready_list -/

theorem enqueuedAt_le (hist : List Event) (t : Tid) : enqueuedAt hist t ≤ hist.length := by
  induction hist with
  | nil => exact le_refl _
  | cons e hist ih =>
      unfold enqueuedAt
      rw [List.length_cons]
      split
      next => exact le_refl _
      next => omega

theorem enqueuedAt_cons_of_ne {e : Event} {hist : List Event} (h : e ≠ .enqueue t) :
    enqueuedAt (e :: hist) t = enqueuedAt hist t := if_neg h

/-- Losing members, and changes that leave the members' priorities and times
of insertion alone, keep the order. -/
theorem Ranked.congr (h : Ranked k) (hsub : k'.readyList.Sublist k.readyList)
    (hsame : ∀ u ∈ k'.readyList, k'.priorityOf u = k.priorityOf u ∧
      enqueuedAt k'.hist u = enqueuedAt k.hist u) : Ranked k' := by
  have hsubset : k'.readyList.Pairwise (Before k) := List.Pairwise.sublist hsub h
  apply hsubset.imp_of_mem
  intro b c hb hc hbc
  rcases hsame b hb with ⟨hpb, heb⟩
  rcases hsame c hc with ⟨hpc, hec⟩
  simpa only [Before, BeforeInQueue, hpb, heb, hpc, hec] using hbc

/-- A newcomer goes behind everybody it ties with. -/
theorem Ranked.readyInsert (h : Ranked k) (ht : t ∉ k.readyList) : Ranked (readyInsert k t) := by
  have hmem : ∀ u ∈ k.readyList, u ≠ t := fun u hu heq => ht (heq ▸ hu)
  have hnew : enqueuedAt (.enqueue t :: k.hist) t = k.hist.length + 1 := if_pos rfl
  have hold : ∀ u, u ≠ t → enqueuedAt (.enqueue t :: k.hist) u = enqueuedAt k.hist u := by
    intro u hu
    apply enqueuedAt_cons_of_ne
    intro heq
    exact hu (Event.enqueue.inj heq).symm
  unfold Ranked Before
  rw [readyInsert_readyList, readyInsert_hist]
  refine queue_insertAfterTies ?_ ?_
  · refine List.Pairwise.imp_of_mem ?_ h
    intro b c hb hc hbc
    simpa only [Before, BeforeInQueue, readyInsert_priorityOf, hold b (hmem b hb),
      hold c (hmem c hc)] using hbc
  · intro b hb
    have hle := enqueuedAt_le k.hist b
    rw [hnew, hold b (hmem b hb)]
    omega

/-! ## The picks -/

/-- Events other than a pick leave the recorded picks as they are. -/
theorem Picked.cons (h : Picked k) {e : Event} (hhist : k'.hist = e :: k.hist)
    (hpick : ∀ idle next ready, e = .dispatch idle next ready →
      PickedRight k.hist idle next ready) : Picked k' := by
  intro pre idle next ready hsuffix
  rw [hhist, List.suffix_cons_iff] at hsuffix
  rcases hsuffix with heq | hsuffix
  · rcases List.cons.inj heq with ⟨he, hpre⟩
    rw [hpre]
    exact hpick idle next ready he.symm
  · exact h pre idle next ready hsuffix

/-- The front of an ordered `ready_list` is a right pick. -/
theorem pickedRight_switchTo (h : Ranked k) (hidle : ∀ i, k.idleThread = some i → i ∉ k.readyList)
    (hnext : (k.readyList.head?.or k.idleThread) = some n) :
    PickedRight k.hist k.idleThread (some n) (k.readyList.map fun t => (t, k.priorityOf t)) := by
  cases hready : k.readyList with
  | nil =>
      refine ⟨fun _ => ?_, fun hne => absurd rfl hne⟩
      simpa [hready] using hnext.symm
  | cons b rest =>
      have hb : b = n := by simpa [hready] using hnext
      subst hb
      refine ⟨fun hnil => by simp at hnil, fun _ => ⟨?_, b, k.priorityOf b, rfl, by simp, ?_⟩⟩
      · intro hib
        exact hidle b hib.symm (by rw [hready]; exact List.mem_cons_self ..)
      · intro u q hu hne
        have huq : u ∈ rest ∧ k.priorityOf u = q := by
          simpa [hne] using hu
        rcases huq with ⟨hrest, rfl⟩
        have hranked : (b :: rest).Pairwise (Before k) := hready ▸ h
        rcases (List.pairwise_cons.mp hranked).1 u hrest with hlt | ⟨heq, hearly⟩
        · refine .inl (Int32.lt_iff_toInt_lt.mpr ?_)
          dsimp only at hlt
          omega
        · refine .inr ⟨Int32.toInt_inj.mp ?_, hearly⟩
          dsimp only at heq
          omega

/-! ## One step -/

/-- What is known about `ready_list` and the history, in every state that has
consistent queues and inside the operations. -/
structure Dispatching (k : Kernel) : Prop where
  ranked : Ranked k
  picked : Picked k

namespace Dispatching

/-- An event that is no pick and no insertion. -/
theorem log (h : Dispatching k) {e : Event} (he : ∀ t, e ≠ .enqueue t)
    (he' : ∀ idle next ready, e ≠ .dispatch idle next ready) : Dispatching (k.log e) where
  ranked := h.ranked.congr (List.Sublist.refl _) fun u _ =>
    ⟨rfl, enqueuedAt_cons_of_ne (he u)⟩
  picked := h.picked.cons rfl fun i n r heq => absurd heq (he' i n r)

theorem readyInsert (h : Dispatching k) (ht : t ∉ k.readyList) : Dispatching (readyInsert k t) where
  ranked := h.ranked.readyInsert ht
  picked := h.picked.cons rfl fun _ _ _ heq => by cases heq

/-- Nobody on `ready_list` changes priority. -/
theorem of_priorities (h : Dispatching k) (hready : k'.readyList = k.readyList)
    (hhist : k'.hist = k.hist) (hprio : ∀ u ∈ k.readyList, k'.priorityOf u = k.priorityOf u) :
    Dispatching k' where
  ranked := by
    refine h.ranked.congr (by rw [hready]) ?_
    intro u hu
    exact ⟨hprio u (hready ▸ hu), by rw [hhist]⟩
  picked := fun pre i n r hsuffix => h.picked pre i n r (hhist ▸ hsuffix)

/-- A thread that keeps its priority, or is not on `ready_list`, can be written. -/
theorem setThread (h : Dispatching k) {o : Option Thread}
    (hprio : t ∈ k.readyList → o.elim 0 (·.priority) = k.priorityOf t) :
    Dispatching (k.setThread t o) := by
  refine h.of_priorities rfl rfl ?_
  intro u hu
  rw [Kernel.priorityOf_setThread]
  split
  next heq => exact heq ▸ hprio (heq ▸ hu)
  next => rfl

/-- The context switch records its pick. -/
theorem switchTo (h : Dispatching k) (hinv : Inv (switchTo k n))
    (hidle : ∀ i, k.idleThread = some i → i ∉ k.readyList)
    (hnext : (k.readyList.head?.or k.idleThread) = some n) : Dispatching (switchTo k n) where
  ranked := by
    refine h.ranked.congr (List.tail_sublist _) ?_
    intro u hu
    have hlive : (Threads.switchTo k n).threads u ≠ none := by
      rcases hinv.ready_thread hu with ⟨th, hth, _⟩
      rw [hth]
      simp
    exact ⟨(switchTo_threads_of_ne_none hlive).1, enqueuedAt_cons_of_ne (by simp)⟩
  picked := by
    refine h.picked.cons switchTo_hist ?_
    intro i m r heq
    cases heq
    exact pickedRight_switchTo h.ranked hidle hnext

/-- One round of the loop of `timer_interrupt`. -/
theorem wakeOne (h : Dispatching k) (ht : t ∉ k.readyList) : Dispatching (wakeOne k t) := by
  have hpopped : Dispatching { k with waitList := k.waitList.tail } :=
    h.of_priorities rfl rfl fun _ _ => rfl
  have hlogged := hpopped.log (e := .wake t) (by simp) (by simp)
  refine (hlogged.readyInsert ht).setThread ?_
  intro _
  unfold Kernel.priorityOf
  cases hth : k.threads t <;> simp [hth]

/-- The loop of `timer_interrupt`: the woken threads were not ready before. -/
theorem foldl_wakeOne {l : List Tid} (h : Dispatching k) (hnodup : l.Nodup)
    (hfresh : ∀ t ∈ l, t ∉ k.readyList) : Dispatching (l.foldl Threads.wakeOne k) := by
  induction l generalizing k with
  | nil => exact h
  | cons b l ih =>
      rcases List.nodup_cons.mp hnodup with ⟨hb, hl⟩
      refine ih (h.wakeOne (hfresh b (List.mem_cons_self ..))) hl ?_
      intro t ht hm
      have hm' : t = b ∨ t ∈ k.readyList := by
        have hready : (Threads.wakeOne k b).readyList = (Threads.readyInsert k b).readyList := rfl
        exact Queues.mem_readyInsert.mp (hready ▸ hm)
      rcases hm' with rfl | hm'
      · exact hb ht
      · exact hfresh t (List.mem_cons_of_mem _ ht) hm'

/-- The caller of `schedule` is off `ready_list`, or was put on it behind its
equals by `thread_yield`. -/
theorem descheduled (h : Dispatching k) (hinv : Inv k) {th : Thread}
    (hth : k.threads k.current = some th) :
    Dispatching (descheduled k th a) ∧
      ∀ i, k.idleThread = some i → i ∉ (descheduled k th a).readyList := by
  have hcur : k.current ∉ k.readyList := hinv.running_notMem.1
  have hidle : ∀ i, k.idleThread = some i → i ∉ k.readyList :=
    fun i hi hm => ((hinv.ready i).mp hm).1 hi
  unfold Threads.descheduled
  split
  case h_1 =>
    have hwaiters : Dispatching { k with waiters := k.waiters ++ [k.current] } :=
      h.of_priorities rfl rfl fun _ _ => rfl
    exact ⟨hwaiters.setThread fun hm => absurd hm hcur, hidle⟩
  case h_2 => exact ⟨h.setThread fun hm => absurd hm hcur, hidle⟩
  case h_3 =>
    have hall : Dispatching { k with allList := k.allList.erase k.current } :=
      h.of_priorities rfl rfl fun _ _ => rfl
    exact ⟨hall.setThread fun hm => absurd hm hcur, hidle⟩
  case h_4 =>
    by_cases hi : k.idleThread ≠ some k.current
    · rw [if_pos hi]
      refine ⟨(h.readyInsert hcur).setThread ?_, ?_⟩
      · intro _
        simp [Kernel.priorityOf, hth]
      · intro i hidle' hm
        rcases Queues.mem_readyInsert.mp hm with rfl | hm'
        · exact hi hidle'
        · exact hidle i hidle' hm'
    · rw [if_neg hi]
      exact ⟨h.setThread fun hm => absurd hm hcur, hidle⟩
  case h_5 =>
    have hawake := h.setThread (t := k.current) (o := some { th with
      wakeTick := (th.sleepFrame.getD (0, 0)).1 + (th.sleepFrame.getD (0, 0)).2,
      sleepFrame := none }) fun hm => absurd hm hcur
    refine ⟨Dispatching.setThread ?_ fun hm => absurd hm hcur, hidle⟩
    refine Dispatching.log ?_ (by simp) (by simp)
    exact hawake.of_priorities rfl rfl fun _ _ => rfl
  case h_6 => exact ⟨h, hidle⟩

/-- Every step keeps `ready_list` ordered and picks rightly. -/
theorem step (h : Dispatching k) (hinv : Inv k) (hs : Step k a k') : Dispatching k' := by
  rcases step_cases hinv hs with ⟨heff, hinv'⟩
  cases heff with
  | @create t p hnone =>
      have hfresh : t ∉ k.readyList := by
        intro hm
        rcases hinv.ready_thread hm with ⟨th, hth, _⟩
        rw [hnone] at hth
        cases hth
      have hnew : Dispatching { k.setThread t (some (initThread p)) with
          allList := k.allList ++ [t] } :=
        (h.setThread fun hm => absurd hm hfresh).of_priorities rfl rfl fun _ _ => rfl
      exact (hnew.readyInsert hfresh).setThread fun _ => by simp [Kernel.priorityOf]
  | createFails => exact h
  | @unblock t th hwaiter hth =>
      have hfresh : t ∉ k.readyList := fun hm => (Queues.place_unique hinv hm).2 hwaiter
      have herased : Dispatching { k with waiters := k.waiters.erase t } :=
        h.of_priorities rfl rfl fun _ _ => rfl
      exact (herased.readyInsert hfresh).setThread fun _ => by simp [Kernel.priorityOf, hth]
  | setPriority => exact h.setThread fun hm => absurd hm hinv.running_notMem.1
  | sleepRead => exact h.setThread fun hm => absurd hm hinv.running_notMem.1
  | @deschedule _ n th _ hth hnext =>
      rcases h.descheduled (a := a) hinv hth with ⟨hmid, hidle⟩
      have hidleThread : (Threads.descheduled k th a).idleThread = k.idleThread :=
        descheduled_idleThread
      rw [← hidleThread] at hnext hidle
      exact hmid.switchTo hinv' hidle hnext
  | tick =>
      set k₁ : Kernel := { k with ticks := k.ticks + 1 } with hk₁
      have h₁ : Dispatching k₁ := h.of_priorities rfl rfl fun _ _ => rfl
      have hsub : (due k₁).Sublist k.waitList := List.takeWhile_sublist _
      refine h₁.foldl_wakeOne (hsub.nodup hinv.waitNodup) ?_
      intro t ht hm
      exact (Queues.place_unique hinv hm).1 (hsub.subset ht)

end Dispatching

/-! ## Every pick of every run -/

/-- `thread_start` has picked twice, each time the only ready thread. -/
theorem started_dispatching (hne : idle ≠ main) : Dispatching (started main idle) where
  ranked := List.Pairwise.nil
  picked := by
    have honly : ∀ (pre : List Event) (i : Option Tid) (t : Tid) (p : Int32), some t ≠ i →
        PickedRight pre i (some t) [(t, p)] := by
      intro pre i t p hi
      refine ⟨fun hnil => by simp at hnil, fun _ => ⟨hi, t, p, rfl, by simp, ?_⟩⟩
      intro u q hu hut
      simp [hut] at hu
    intro pre i n r hsuffix
    have hcases : (i = some idle ∧ n = some main ∧ r = [(main, priDefault)]) ∨
        (i = none ∧ n = some idle ∧ r = [(idle, priMin)]) := by
      simp only [started, List.suffix_cons_iff, List.cons.injEq, Event.dispatch.injEq,
        List.suffix_nil, reduceCtorEq] at hsuffix
      tauto
    rcases hcases with ⟨rfl, rfl, rfl⟩ | ⟨rfl, rfl, rfl⟩
    · exact honly pre _ main _ (by simpa using Ne.symm hne)
    · exact honly pre _ idle _ (by simp)

/-- Each time `schedule` picks a thread, in any run and however often priorities
were changed: from an empty `ready_list` it picks the idle thread, and from any
other a thread with the highest priority that has been there longest among its
equals, never the idle thread. -/
theorem priority_dispatch {post pre : List Event} {idleNow next : Option Tid}
    {ready : List (Tid × Int32)} (h : Reachable main idle k)
    (hpick : k.hist = post ++ .dispatch idleNow next ready :: pre) :
    PickedRight pre idleNow next ready := by
  have hdispatching : Dispatching k := by
    refine (reachable_invariant (P := Dispatching) h started_dispatching ?_).2
    exact fun s a s' hinv hs hs' => hs'.step hinv hs
  exact hdispatching.picked pre idleNow next ready ⟨post, hpick.symm⟩

/-- Threads 3 and 4 are created with equal priorities and the initial thread
yields after lowering its own: thread 3, the older one, is picked. -/
theorem priority_dispatch_run : ∃ k post pre,
    [Act.create 3 20, .create 4 20, .setPriority 10, .yield].foldlM next (started 1 2) = .ok k ∧
    k.hist = post ++ .dispatch (some 2) (some 3) [(3, 20), (4, 20), (1, 10)] :: pre ∧
    PickedRight pre (some 2) (some 3) [(3, 20), (4, 20), (1, 10)] := by
  have hrun : ∃ k pre, [Act.create 3 20, .create 4 20, .setPriority 10, .yield].foldlM next
      (started 1 2) = .ok k ∧
      k.hist = [] ++ .dispatch (some 2) (some 3) [(3, 20), (4, 20), (1, 10)] :: pre :=
    ⟨_, _, rfl, rfl⟩
  rcases hrun with ⟨k, pre, hk, hhist⟩
  have hreach : Reachable 1 2 k :=
    ⟨started 1 2, threadStart_eq (by decide), _,
      (Lts.run_of_foldlM next hk).mono fun _ _ _ => step_of_next⟩
  exact ⟨k, [], pre, hk, hhist, priority_dispatch hreach hhist⟩

end Pintos.Threads
