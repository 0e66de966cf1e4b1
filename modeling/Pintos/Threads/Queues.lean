import Pintos.Threads.Basic

/-! # The invariant of the scheduler queues

`Queues run loose k` describes a kernel state in which `run` is the thread
marked running and `loose` a blocked thread that is on no list. Between two
operations it holds with the current thread for `run` and nobody loose;
inside an operation, before `schedule` has picked a thread, nobody is marked
running, and `thread_unblock` is called on a loose thread. Each operation is
one or two of the small steps below.
-/

namespace Pintos.Threads

open OrderedInsert

variable {k : Kernel} {run loose : Option Tid} {t u n i : Tid} {th : Thread}

/-- The invariant. Membership in the lists is tied to the status of a thread
by equivalences, the idle thread being on no list. -/
structure Queues (run loose : Option Tid) (k : Kernel) : Prop where
  /-- The idle thread exists and does not die. -/
  idle : ∃ i, k.idleThread = some i ∧ ∃ s, k.statusOf i = some s ∧ s ≠ .dying
  running : ∀ t, k.statusOf t = some .running ↔ run = some t
  ready : ∀ t, t ∈ k.readyList ↔ k.idleThread ≠ some t ∧ k.statusOf t = some .ready
  blocked : ∀ t, (t ∈ k.waitList ∨ t ∈ k.waiters ∨ loose = some t) ↔
    k.idleThread ≠ some t ∧ k.statusOf t = some .blocked
  apart : ∀ t ∈ k.waitList, t ∉ k.waiters
  looseApart : ∀ t, loose = some t → t ∉ k.waitList ∧ t ∉ k.waiters
  readyNodup : k.readyList.Nodup
  waitNodup : k.waitList.Nodup
  waitersNodup : k.waiters.Nodup
  readySorted : k.readyList.Pairwise
    fun a b => -(k.priorityOf a).toInt ≤ -(k.priorityOf b).toInt
  waitSorted : k.waitList.Pairwise
    fun a b => (k.wakeTickOf a).toInt ≤ (k.wakeTickOf b).toInt
  all : ∀ t, t ∈ k.allList ↔ ∃ s, k.statusOf t = some s ∧ s ≠ .dying
  allNodup : k.allList.Nodup

namespace Queues

/-- The running thread's page. -/
theorem running_thread (h : Queues (some t) loose k) :
    ∃ th, k.threads t = some th ∧ th.status = .running :=
  Kernel.statusOf_eq.mp ((h.running t).mpr rfl)

/-- A thread on `ready_list` has a page and is ready. -/
theorem ready_thread (h : Queues run loose k) (ht : t ∈ k.readyList) :
    ∃ th, k.threads t = some th ∧ th.status = .ready :=
  Kernel.statusOf_eq.mp ((h.ready t).mp ht).2

/-- A thread on `wait_list` has a page and is blocked. -/
theorem wait_thread (h : Queues run loose k) (ht : t ∈ k.waitList) :
    ∃ th, k.threads t = some th ∧ th.status = .blocked :=
  Kernel.statusOf_eq.mp ((h.blocked t).mp (.inl ht)).2

theorem loose_thread (h : Queues run (some t) k) :
    ∃ th, k.threads t = some th ∧ th.status = .blocked :=
  Kernel.statusOf_eq.mp ((h.blocked t).mp (.inr (.inr rfl))).2

/-- The running thread is on no list. -/
theorem running_notMem (h : Queues (some t) loose k) :
    t ∉ k.readyList ∧ t ∉ k.waitList ∧ t ∉ k.waiters := by
  have hrun : k.statusOf t = some .running := (h.running t).mpr rfl
  refine ⟨?_, ?_, ?_⟩
  · intro hm
    have hready := ((h.ready t).mp hm).2
    simp [hrun] at hready
  · intro hm
    have hblocked := ((h.blocked t).mp (.inl hm)).2
    simp [hrun] at hblocked
  · intro hm
    have hblocked := ((h.blocked t).mp (.inr (.inl hm))).2
    simp [hrun] at hblocked

/-- The thread `schedule` will pick. -/
theorem exists_next (h : Queues none none k) :
    ∃ n nth, (k.readyList.head?.or k.idleThread) = some n ∧ k.threads n = some nth ∧
      nth.status ≠ .dying := by
  cases hready : k.readyList with
  | nil =>
      rcases h.idle with ⟨i, hi, s, hs, hd⟩
      rcases Kernel.statusOf_eq.mp hs with ⟨th, hth, hst⟩
      exact ⟨i, th, by simp [hi], hth, by rw [hst]; exact hd⟩
  | cons a rest =>
      rcases h.ready_thread (t := a) (by simp [hready]) with ⟨th, hth, hst⟩
      exact ⟨a, th, by simp, hth, by rw [hst]; decide⟩

/-! ## The context switch -/

/-- On another thread the status stays, unless the page of a dying one goes. -/
theorem switchTo_statusOf_of_ne {u : Tid} {r : ThreadStatus} (hu : u ≠ n) (hr : r ≠ .dying) :
    (switchTo k n).statusOf u = some r ↔ k.statusOf u = some r := by
  rw [switchTo_statusOf, if_neg hu]
  split
  next hd =>
    rw [hd.2.1]
    simp [hr.symm]
  next => rfl

theorem mem_readyTail (h : Queues none none k)
    (hnext : (k.readyList.head?.or k.idleThread) = some n) (u : Tid) :
    u ∈ k.readyList.tail ↔ u ∈ k.readyList ∧ u ≠ n := by
  cases hready : k.readyList with
  | nil => simp
  | cons a rest =>
      have han : a = n := by simpa [hready] using hnext
      have hnd : a ∉ rest := (List.nodup_cons.mp (hready ▸ h.readyNodup)).1
      subst han
      simp only [List.tail_cons, List.mem_cons]
      constructor
      · intro hu
        exact ⟨.inr hu, fun hua => hnd (hua ▸ hu)⟩
      · rintro ⟨hu | hu, hua⟩
        · exact absurd hu hua
        · exact hu

/-- A picked thread that is not the idle thread comes from `ready_list`. -/
theorem next_ready (h : Queues none none k)
    (hnext : (k.readyList.head?.or k.idleThread) = some n) (hi : k.idleThread ≠ some n) :
    k.statusOf n = some .ready := by
  cases hready : k.readyList with
  | nil => exact absurd (by simpa [hready] using hnext) hi
  | cons a rest =>
      have han : a = n := by simpa [hready] using hnext
      exact ((h.ready n).mp (by simp [hready, han])).2

/-- Who is picked leaves `ready_list` and becomes the only running thread. -/
theorem switch (h : Queues none none k)
    (hnext : (k.readyList.head?.or k.idleThread) = some n)
    (hn : ∃ s, k.statusOf n = some s ∧ s ≠ .dying) :
    Queues (some n) none (switchTo k n) := by
  rcases hn with ⟨s, hs, hsd⟩
  have hstatn : (switchTo k n).statusOf n = some .running := by
    rw [switchTo_statusOf, if_pos rfl, hs]
    rfl
  have hpage : ∀ u r, (switchTo k n).statusOf u = some r → (switchTo k n).threads u ≠ none := by
    intro u r hu hnone
    simp [Kernel.statusOf, hnone] at hu
  have hnone : ∀ u, k.statusOf u ≠ some .running := by
    intro u hu
    have := (h.running u).mp hu
    simp at this
  have hready' : ∀ u, u ∈ k.readyList.tail ↔
      k.idleThread ≠ some u ∧ (switchTo k n).statusOf u = some .ready := by
    intro u
    rw [h.mem_readyTail hnext, h.ready]
    by_cases hu : u = n
    · simp [hu, hstatn]
    · rw [switchTo_statusOf_of_ne hu (by decide)]
      simp [hu]
  have hblocked' : ∀ u, (u ∈ k.waitList ∨ u ∈ k.waiters ∨ (none : Option Tid) = some u) ↔
      k.idleThread ≠ some u ∧ (switchTo k n).statusOf u = some .blocked := by
    intro u
    rw [h.blocked]
    by_cases hu : u = n
    · subst hu
      rw [hstatn]
      constructor
      · rintro ⟨hi, hb⟩
        rw [h.next_ready hnext hi] at hb
        simp at hb
      · rintro ⟨_, hb⟩
        simp at hb
    · rw [switchTo_statusOf_of_ne hu (by decide)]
  refine
    { idle := ?_, running := ?_, ready := hready', blocked := hblocked', apart := h.apart,
      looseApart := by simp, readyNodup := h.readyNodup.tail, waitNodup := h.waitNodup,
      waitersNodup := h.waitersNodup, readySorted := ?_, waitSorted := ?_, all := ?_,
      allNodup := h.allNodup }
  · rcases h.idle with ⟨i, hi, r, hr, hrd⟩
    by_cases hin : i = n
    · exact ⟨i, hi, .running, by rw [hin]; exact hstatn, by decide⟩
    · exact ⟨i, hi, r, (switchTo_statusOf_of_ne hin hrd).mpr hr, hrd⟩
  · intro u
    by_cases hu : u = n
    · simp [hu, hstatn]
    · rw [switchTo_statusOf_of_ne hu (by decide)]
      constructor
      · intro hr
        exact absurd hr (hnone u)
      · intro hr
        exact absurd (Option.some.inj hr).symm hu
  · refine List.Pairwise.imp_of_mem ?_ (h.readySorted.tail)
    intro a b ha hb hab
    have hpa := switchTo_threads_of_ne_none (hpage a _ ((hready' a).mp ha).2)
    have hpb := switchTo_threads_of_ne_none (hpage b _ ((hready' b).mp hb).2)
    rw [hpa.1, hpb.1]
    exact hab
  · refine List.Pairwise.imp_of_mem ?_ h.waitSorted
    intro a b ha hb hab
    have hpa := switchTo_threads_of_ne_none (hpage a _ ((hblocked' a).mp (.inl ha)).2)
    have hpb := switchTo_threads_of_ne_none (hpage b _ ((hblocked' b).mp (.inl hb)).2)
    rw [hpa.2.1, hpb.2.1]
    exact hab
  · intro u
    show u ∈ k.allList ↔ _
    rw [h.all]
    by_cases hu : u = n
    · subst hu
      exact ⟨fun _ => ⟨.running, hstatn, by decide⟩, fun _ => ⟨s, hs, hsd⟩⟩
    · constructor
      · rintro ⟨r, hr, hrd⟩
        exact ⟨r, (switchTo_statusOf_of_ne hu hrd).mpr hr, hrd⟩
      · rintro ⟨r, hr, hrd⟩
        exact ⟨r, (switchTo_statusOf_of_ne hu hrd).mp hr, hrd⟩

/-- `schedule` succeeds whenever nobody is marked running, and re-establishes
the invariant. -/
theorem schedule_ok (h : Queues none none k) {cth : Thread}
    (hcur : k.threads k.current = some cth) :
    ∃ n, (k.readyList.head?.or k.idleThread) = some n ∧
      schedule k = .ok (switchTo k n) ∧ Queues (some n) none (switchTo k n) := by
  rcases h.exists_next with ⟨n, nth, hnext, hn, hnd⟩
  have hs : cth.status ≠ .running := by
    intro hr
    have := (h.running k.current).mp (Kernel.statusOf_eq.mpr ⟨cth, hcur, hr⟩)
    simp at this
  exact ⟨n, hnext, schedule_eq hcur hs hnext hn,
    h.switch hnext ⟨nth.status, by simp [Kernel.statusOf, hn], hnd⟩⟩

/-! ## Blocked to ready -/

/-- Insertion into `ready_list` keeps it sorted. -/
theorem readySorted_insert (h : Queues run loose k) :
    (readyInsert k t).readyList.Pairwise
      fun a b => -(k.priorityOf a).toInt ≤ -(k.priorityOf b).toInt := by
  rw [readyInsert_readyList]
  exact sorted_insertAfterTies h.readySorted

theorem mem_readyInsert : u ∈ (readyInsert k t).readyList ↔ u = t ∨ u ∈ k.readyList := by
  rw [readyInsert_readyList]
  exact mem_insertAfterTies

/-- `thread_unblock` of a loose thread. -/
theorem unblock (h : Queues run (some t) k) (ht : k.threads t = some th) :
    Queues run none ((readyInsert k t).setThread t (some { th with status := .ready })) := by
  -- a loose thread is blocked, and not the idle thread
  have hblk : k.statusOf t = some .blocked := ((h.blocked t).mp (.inr (.inr rfl))).2
  have hidle : k.idleThread ≠ some t := ((h.blocked t).mp (.inr (.inr rfl))).1
  have hnotReady : t ∉ k.readyList := by
    intro hm
    have hr := ((h.ready t).mp hm).2
    simp [hblk] at hr
  rcases h.looseApart t rfl with ⟨hnw, hnws⟩
  have hstat : ∀ u, ((readyInsert k t).setThread t
      (some { th with status := .ready })).statusOf u =
      if u = t then some .ready else k.statusOf u := by
    intro u
    simp
  refine
    { idle := ?_, running := ?_, ready := ?_, blocked := ?_, apart := h.apart,
      looseApart := by simp, readyNodup := ?_, waitNodup := h.waitNodup,
      waitersNodup := h.waitersNodup, readySorted := ?_, waitSorted := ?_, all := ?_,
      allNodup := h.allNodup }
  · -- the idle thread is another one
    rcases h.idle with ⟨i, hi, s, hs, hsd⟩
    have hit : i ≠ t := by
      intro hit
      exact hidle (hit ▸ hi)
    exact ⟨i, hi, s, by rw [hstat, if_neg hit]; exact hs, hsd⟩
  · intro u
    rw [hstat]
    by_cases hu : u = t
    · have hrun := h.running t
      rw [hblk] at hrun
      simpa [hu] using hrun
    · rw [if_neg hu]
      exact h.running u
  · intro u
    rw [hstat]
    show u ∈ (readyInsert k t).readyList ↔ k.idleThread ≠ some u ∧ _
    rw [mem_readyInsert]
    by_cases hu : u = t
    · simp [hu, hidle]
    · simp [hu, h.ready u]
  · intro u
    rw [hstat]
    show (u ∈ k.waitList ∨ u ∈ k.waiters ∨ _) ↔ k.idleThread ≠ some u ∧ _
    by_cases hu : u = t
    · simp [hu, hnw, hnws]
    · have hb := h.blocked u
      have hut : ¬ (t = u) := fun hut => hu hut.symm
      simpa [hu, hut] using hb
  · show (readyInsert k t).readyList.Nodup
    rw [readyInsert_readyList]
    exact nodup_insertAfterTies hnotReady h.readyNodup
  · refine List.Pairwise.imp ?_ (readySorted_insert (t := t) h)
    intro a b hab
    -- the order of the ready list is that of the priorities, which stay
    have hp : ∀ c, ((readyInsert k t).setThread t
        (some { th with status := .ready })).priorityOf c = k.priorityOf c := by
      intro c
      by_cases hc : c = t
      · simp [hc, Kernel.priorityOf, ht]
      · simp [hc]
    rw [hp, hp]
    exact hab
  · refine List.Pairwise.imp ?_ h.waitSorted
    intro a b hab
    have hw : ∀ c, ((readyInsert k t).setThread t
        (some { th with status := .ready })).wakeTickOf c = k.wakeTickOf c := by
      intro c
      by_cases hc : c = t
      · simp [hc, Kernel.wakeTickOf, ht]
      · simp [hc]
    rw [hw, hw]
    exact hab
  · intro u
    rw [hstat]
    show u ∈ k.allList ↔ _
    rw [h.all]
    by_cases hu : u = t
    · simp [hu, hblk]
    · simp [hu]

theorem threadUnblock_ok (h : Queues run (some t) k) :
    ∃ th, k.threads t = some th ∧
      threadUnblock k t =
        .ok ((readyInsert k t).setThread t (some { th with status := .ready })) ∧
      Queues run none ((readyInsert k t).setThread t (some { th with status := .ready })) := by
  rcases h.loose_thread with ⟨th, ht, hs⟩
  exact ⟨th, ht, threadUnblock_eq ht hs, h.unblock ht⟩

/-- The front of `wait_list` taken off the list is loose. -/
theorem popWait {rest : List Tid} (h : Queues run none k) (hw : k.waitList = t :: rest) :
    Queues run (some t) { k with waitList := rest } := by
  have hnd : t ∉ rest ∧ rest.Nodup := List.nodup_cons.mp (hw ▸ h.waitNodup)
  refine
    { idle := h.idle, running := h.running, ready := h.ready, blocked := ?_, apart := ?_,
      looseApart := ?_, readyNodup := h.readyNodup, waitNodup := hnd.2,
      waitersNodup := h.waitersNodup, readySorted := h.readySorted, waitSorted := ?_,
      all := h.all, allNodup := h.allNodup }
  · intro u
    show (u ∈ rest ∨ u ∈ k.waiters ∨ some t = some u) ↔
      k.idleThread ≠ some u ∧ k.statusOf u = some .blocked
    have hb := h.blocked u
    rw [hw] at hb
    rw [← hb]
    simp only [List.mem_cons, Option.some.injEq, reduceCtorEq, or_false, @eq_comm _ u t]
    tauto
  · intro u hu
    exact h.apart u (by rw [hw]; exact List.mem_cons_of_mem _ hu)
  · intro u hu
    have htu : t = u := Option.some.inj hu
    subst htu
    exact ⟨hnd.1, h.apart t (by rw [hw]; exact List.mem_cons_self ..)⟩
  · exact (List.pairwise_cons.mp (hw ▸ h.waitSorted)).2

/-- A waiter of other kernel code taken off its list is loose. -/
theorem eraseWaiter (h : Queues run none k) (ht : t ∈ k.waiters) :
    Queues run (some t) { k with waiters := k.waiters.erase t } := by
  have hmem : ∀ u, u ∈ k.waiters.erase t ↔ u ≠ t ∧ u ∈ k.waiters :=
    fun u => h.waitersNodup.mem_erase_iff
  refine
    { idle := h.idle, running := h.running, ready := h.ready, blocked := ?_, apart := ?_,
      looseApart := ?_, readyNodup := h.readyNodup, waitNodup := h.waitNodup,
      waitersNodup := h.waitersNodup.erase t, readySorted := h.readySorted,
      waitSorted := h.waitSorted, all := h.all, allNodup := h.allNodup }
  · intro u
    show (u ∈ k.waitList ∨ u ∈ k.waiters.erase t ∨ some t = some u) ↔
      k.idleThread ≠ some u ∧ k.statusOf u = some .blocked
    rw [← h.blocked, hmem]
    by_cases hu : u = t
    · simp [hu, ht]
    · have hut : ¬ (t = u) := fun hut => hu hut.symm
      simp [hu, hut]
  · intro u hu hm
    exact h.apart u hu ((hmem u).mp hm).2
  · intro u hu
    have htu : t = u := Option.some.inj hu
    subst htu
    exact ⟨fun hw => h.apart t hw ht, fun hm => ((hmem t).mp hm).1 rfl⟩

/-- A change to the page of a thread that is on neither sorted list leaves both
lists sorted. -/
theorem sorted_setThread (h : Queues run loose k) (th : Thread) (hr : t ∉ k.readyList)
    (hw : t ∉ k.waitList) :
    (k.readyList.Pairwise fun a b =>
      -((k.setThread t (some th)).priorityOf a).toInt ≤
        -((k.setThread t (some th)).priorityOf b).toInt) ∧
    (k.waitList.Pairwise fun a b =>
      ((k.setThread t (some th)).wakeTickOf a).toInt ≤
        ((k.setThread t (some th)).wakeTickOf b).toInt) := by
  constructor
  · refine List.Pairwise.imp_of_mem ?_ h.readySorted
    intro a b ha hb hab
    have hat : a ≠ t := fun hat => hr (hat ▸ ha)
    have hbt : b ≠ t := fun hbt => hr (hbt ▸ hb)
    simpa [hat, hbt] using hab
  · refine List.Pairwise.imp_of_mem ?_ h.waitSorted
    intro a b ha hb hab
    have hat : a ≠ t := fun hat => hw (hat ▸ ha)
    have hbt : b ≠ t := fun hbt => hw (hbt ▸ hb)
    simpa [hat, hbt] using hab

/-- Whatever is on a list has a status. -/
theorem absent_notMem (h : Queues run loose k) (ht : k.threads t = none) :
    t ∉ k.readyList ∧ t ∉ k.waitList ∧ t ∉ k.waiters ∧ t ∉ k.allList := by
  have hnone : k.statusOf t = none := by simp [Kernel.statusOf, ht]
  have hfresh : ∀ l : List Tid, (∀ u ∈ l, k.statusOf u ≠ none) → t ∉ l :=
    fun l hl hm => hl t hm hnone
  refine ⟨hfresh _ fun u hu => ?_, hfresh _ fun u hu => ?_, hfresh _ fun u hu => ?_,
    hfresh _ fun u hu => ?_⟩
  · rw [((h.ready u).mp hu).2]
    simp
  · rw [((h.blocked u).mp (.inl hu)).2]
    simp
  · rw [((h.blocked u).mp (.inr (.inl hu))).2]
    simp
  · rcases (h.all u).mp hu with ⟨s, hs, _⟩
    simp [hs]

/-- A new thread, blocked and on no list, is loose. -/
theorem addThread (h : Queues run none k) (ht : k.threads t = none) (hs : th.status = .blocked) :
    Queues run (some t)
      { k.setThread t (some th) with allList := k.allList ++ [t] } := by
  have hnone : k.statusOf t = none := by simp [Kernel.statusOf, ht]
  have hstat : ∀ u, (k.setThread t (some th)).statusOf u =
      if u = t then some .blocked else k.statusOf u := by
    intro u
    simp [hs]
  rcases h.absent_notMem ht with ⟨hready, hwait, hwaiters, hall⟩
  have hsorted := h.sorted_setThread th hready hwait
  have hidle : k.idleThread ≠ some t := by
    intro hi
    rcases h.idle with ⟨i, hi', s, hs', _⟩
    have hit : i = t := Option.some.inj (hi'.symm.trans hi)
    rw [hit, hnone] at hs'
    simp at hs'
  refine
    { idle := ?_, running := ?_, ready := ?_, blocked := ?_, apart := h.apart,
      looseApart := ?_, readyNodup := h.readyNodup, waitNodup := h.waitNodup,
      waitersNodup := h.waitersNodup, readySorted := hsorted.1, waitSorted := hsorted.2,
      all := ?_, allNodup := ?_ }
  · -- the idle thread is another one
    rcases h.idle with ⟨i, hi, s, hsi, hsd⟩
    have hit : i ≠ t := fun hit => hidle (hit ▸ hi)
    refine ⟨i, hi, s, ?_, hsd⟩
    show (k.setThread t (some th)).statusOf i = some s
    rw [hstat, if_neg hit]
    exact hsi
  · intro u
    show (k.setThread t (some th)).statusOf u = some .running ↔ _
    rw [hstat]
    by_cases hu : u = t
    · have hrun := h.running t
      rw [hnone] at hrun
      simpa [hu] using hrun
    · rw [if_neg hu]
      exact h.running u
  · intro u
    show u ∈ k.readyList ↔ k.idleThread ≠ some u ∧ (k.setThread t (some th)).statusOf u = _
    rw [hstat]
    by_cases hu : u = t
    · simp [hu, hready]
    · rw [if_neg hu]
      exact h.ready u
  · intro u
    show (u ∈ k.waitList ∨ u ∈ k.waiters ∨ some t = some u) ↔
      k.idleThread ≠ some u ∧ (k.setThread t (some th)).statusOf u = _
    rw [hstat]
    by_cases hu : u = t
    · simp [hu, hidle]
    · have hut : ¬ (t = u) := fun hut => hu hut.symm
      rw [if_neg hu]
      simpa [hut] using h.blocked u
  · intro u hu
    have htu : t = u := Option.some.inj hu
    subst htu
    exact ⟨hwait, hwaiters⟩
  · intro u
    show u ∈ k.allList ++ [t] ↔ ∃ s, (k.setThread t (some th)).statusOf u = some s ∧ s ≠ .dying
    rw [hstat, List.mem_append, List.mem_singleton]
    by_cases hu : u = t
    · simp [hu]
    · rw [if_neg hu]
      simpa [hu] using h.all u
  · exact List.nodup_append.mpr ⟨h.allNodup, List.nodup_singleton t, fun a ha b hb hab => by
      rw [List.mem_singleton] at hb
      exact hall (hb ▸ hab ▸ ha)⟩

/-! ## The running thread gives up the processor -/

/-- The running thread `t` is given another status `s`; on the way to
`schedule` it may join a list or leave `all_list`, as `s` demands. -/
theorem stop {k' : Kernel} {s : ThreadStatus} (h : Queues (some t) none k) (hs : s ≠ .running)
    (hidle : k'.idleThread = k.idleThread)
    (hstat : ∀ u, k'.statusOf u = if u = t then some s else k.statusOf u)
    (hready : ∀ u, u ∈ k'.readyList ↔
      u ∈ k.readyList ∨ u = t ∧ s = .ready ∧ k.idleThread ≠ some t)
    (hblocked : ∀ u, u ∈ k'.waitList ∨ u ∈ k'.waiters ↔
      (u ∈ k.waitList ∨ u ∈ k.waiters) ∨ u = t ∧ s = .blocked ∧ k.idleThread ≠ some t)
    (hall : ∀ u, u ∈ k'.allList ↔ u ∈ k.allList ∧ (s = .dying → u ≠ t))
    (hdie : s = .dying → k.idleThread ≠ some t)
    (hapart : ∀ u ∈ k'.waitList, u ∉ k'.waiters)
    (hnodup : k'.readyList.Nodup ∧ k'.waitList.Nodup ∧ k'.waiters.Nodup ∧ k'.allList.Nodup)
    (hreadySorted : k'.readyList.Pairwise
      fun a b => -(k'.priorityOf a).toInt ≤ -(k'.priorityOf b).toInt)
    (hwaitSorted : k'.waitList.Pairwise
      fun a b => (k'.wakeTickOf a).toInt ≤ (k'.wakeTickOf b).toInt) :
    Queues none none k' := by
  have hrun : k.statusOf t = some .running := (h.running t).mpr rfl
  refine
    { idle := ?_, running := ?_, ready := ?_, blocked := ?_, apart := hapart,
      looseApart := by simp, readyNodup := hnodup.1, waitNodup := hnodup.2.1,
      waitersNodup := hnodup.2.2.1, readySorted := hreadySorted, waitSorted := hwaitSorted,
      all := ?_, allNodup := hnodup.2.2.2 }
  · -- the idle thread may be the one that stops, but it does not die
    rcases h.idle with ⟨i, hi, r, hr, hrd⟩
    by_cases hit : i = t
    · refine ⟨i, hidle.trans hi, s, by rw [hstat, if_pos hit], ?_⟩
      intro hsd
      exact hdie hsd (hit ▸ hi)
    · exact ⟨i, hidle.trans hi, r, by rw [hstat, if_neg hit]; exact hr, hrd⟩
  · -- the caller was the running thread, and now none is
    intro u
    rw [hstat]
    by_cases hu : u = t
    · simp [hu, hs]
    · rw [if_neg hu, h.running u]
      simp [Ne.symm hu]
  · intro u
    rw [hready, hstat, hidle]
    by_cases hu : u = t
    · -- the running thread was on no list, so it is on one now only if it has joined it
      have hnot : t ∉ k.readyList := h.running_notMem.1
      simp [hu, hnot, and_comm]
    · simp [hu, h.ready u]
  · intro u
    rw [hstat, hidle]
    have hb := hblocked u
    by_cases hu : u = t
    · -- nor was it on `wait_list` or among the waiters
      have hnot := h.running_notMem.2
      subst hu
      simp only [hnot.1, hnot.2, or_self, false_or, true_and] at hb
      simpa [and_comm] using hb
    · have hold := h.blocked u
      simp only [hu, false_and, or_false] at hb
      simp only [reduceCtorEq, or_false, hu, if_false] at hold ⊢
      rw [← hold]
      exact hb
  · intro u
    rw [hall, hstat, h.all]
    by_cases hu : u = t
    · simp only [hu, hrun, if_true, Option.some.injEq, exists_eq_left', ne_eq, reduceCtorEq,
        not_false_eq_true, true_and]
      simp
    · simp [hu]

/-- After `thread_block` by other kernel code has marked the caller. -/
theorem block (h : Queues (some t) none k) (th : Thread)
    (hidle : k.idleThread ≠ some t) :
    Queues none none (({ k with waiters := k.waiters ++ [t] } : Kernel).setThread t
      (some { th with status := .blocked })) := by
  have hnot := h.running_notMem
  have hsorted := h.sorted_setThread { th with status := .blocked } hnot.1 hnot.2.1
  refine h.stop (s := .blocked) (by decide) rfl ?_ ?_ ?_ ?_ (by simp) ?_ ?_ hsorted.1 hsorted.2
  · intro u
    rw [Kernel.statusOf_setThread]
    rfl
  · intro u
    simp
  · intro u
    simp [hidle, or_assoc]
  · intro u
    simp
  · intro u hu hm
    rcases List.mem_append.mp hm with hm | hm
    · exact h.apart u hu hm
    · exact hnot.2.1 (List.mem_singleton.mp hm ▸ hu)
  · refine ⟨h.readyNodup, h.waitNodup, ?_, h.allNodup⟩
    refine List.nodup_append.mpr ⟨h.waitersNodup, List.nodup_singleton t, ?_⟩
    intro a ha b hb hab
    exact hnot.2.2 (List.mem_singleton.mp hb ▸ hab ▸ ha)

/-- After `thread_block` by the idle thread's loop has marked it. -/
theorem idleBlock (h : Queues (some t) none k) (th : Thread)
    (hidle : k.idleThread = some t) :
    Queues none none (k.setThread t (some { th with status := .blocked })) := by
  have hnot := h.running_notMem
  have hsorted := h.sorted_setThread { th with status := .blocked } hnot.1 hnot.2.1
  refine h.stop (s := .blocked) (by decide) rfl ?_ ?_ ?_ ?_ (by simp) h.apart
    ⟨h.readyNodup, h.waitNodup, h.waitersNodup, h.allNodup⟩ hsorted.1 hsorted.2
  · intro u
    rw [Kernel.statusOf_setThread]
    rfl
  · intro u
    simp
  · intro u
    simp [hidle]
  · intro u
    simp

/-- After `thread_exit` has marked the caller. -/
theorem exit (h : Queues (some t) none k) (th : Thread)
    (hidle : k.idleThread ≠ some t) :
    Queues none none (({ k with allList := k.allList.erase t } : Kernel).setThread t
      (some { th with status := .dying })) := by
  have hnot := h.running_notMem
  have hsorted := h.sorted_setThread { th with status := .dying } hnot.1 hnot.2.1
  refine h.stop (s := .dying) (by decide) rfl ?_ ?_ ?_ ?_ (fun _ => hidle) h.apart
    ⟨h.readyNodup, h.waitNodup, h.waitersNodup, h.allNodup.erase t⟩ hsorted.1 hsorted.2
  · intro u
    rw [Kernel.statusOf_setThread]
    rfl
  · intro u
    simp
  · intro u
    simp
  · intro u
    show u ∈ k.allList.erase t ↔ _
    rw [h.allNodup.mem_erase_iff]
    simp [and_comm]

/-- After `thread_yield` has marked the caller; the idle thread is not put on
`ready_list`. -/
theorem yield (h : Queues (some t) none k) (ht : k.threads t = some th) :
    Queues none none ((if k.idleThread ≠ some t then readyInsert k t else k).setThread t
      (some { th with status := .ready })) := by
  have hnot := h.running_notMem
  by_cases hidle : k.idleThread = some t
  · -- the idle thread is ready on no list
    rw [if_neg (not_not.mpr hidle)]
    have hsorted := h.sorted_setThread { th with status := .ready } hnot.1 hnot.2.1
    refine h.stop (s := .ready) (by decide) rfl ?_ ?_ ?_ ?_ (by simp) h.apart
      ⟨h.readyNodup, h.waitNodup, h.waitersNodup, h.allNodup⟩ hsorted.1 hsorted.2
    · intro u
      rw [Kernel.statusOf_setThread]
      rfl
    · intro u
      simp [hidle]
    · intro u
      simp
    · intro u
      simp
  · rw [if_pos hidle]
    -- the mark as ready leaves the order of `ready_list` as it is
    have hp : ∀ c, ((readyInsert k t).setThread t
        (some { th with status := .ready })).priorityOf c = k.priorityOf c := by
      intro c
      by_cases hc : c = t
      · simp [hc, Kernel.priorityOf, ht]
      · simp [hc]
    have hsorted := h.sorted_setThread { th with status := .ready } hnot.1 hnot.2.1
    refine h.stop (s := .ready) (by decide) rfl ?_ ?_ ?_ ?_ (by simp) h.apart
      ⟨?_, h.waitNodup, h.waitersNodup, h.allNodup⟩ ?_ hsorted.2
    · intro u
      rw [Kernel.statusOf_setThread]
      rfl
    · intro u
      show u ∈ (readyInsert k t).readyList ↔ _
      rw [mem_readyInsert]
      simp [hidle, or_comm]
    · intro u
      simp
    · intro u
      simp
    · show (readyInsert k t).readyList.Nodup
      rw [readyInsert_readyList]
      exact nodup_insertAfterTies hnot.1 h.readyNodup
    · refine List.Pairwise.imp ?_ (readySorted_insert (t := t) h)
      intro a b hab
      rw [hp, hp]
      exact hab

/-- Changing other fields of the running thread's page than its status. -/
theorem setRunning (h : Queues (some t) none k) (hs : th.status = .running) :
    Queues (some t) none (k.setThread t (some th)) := by
  have hnot := h.running_notMem
  have hsorted := h.sorted_setThread th hnot.1 hnot.2.1
  have hstat : ∀ u, (k.setThread t (some th)).statusOf u = k.statusOf u := by
    intro u
    rw [Kernel.statusOf_setThread]
    split
    next hu =>
      rw [hu, (h.running t).mpr rfl]
      simp [hs]
    next => rfl
  exact
    { idle := by
        simp only [hstat]
        exact h.idle
      running := by simpa only [hstat] using h.running
      ready := by
        simp only [hstat]
        exact h.ready
      blocked := by
        simp only [hstat]
        exact h.blocked
      apart := h.apart
      looseApart := h.looseApart
      readyNodup := h.readyNodup
      waitNodup := h.waitNodup
      waitersNodup := h.waitersNodup
      readySorted := hsorted.1
      waitSorted := hsorted.2
      all := by
        simp only [hstat]
        exact h.all
      allNodup := h.allNodup }

/-- After `timer_sleep` has put the caller on `wait_list` and `thread_block`
has marked it. `th` is the caller's page with the wake-up tick stored. -/
theorem sleep {k' : Kernel} (h : Queues (some t) none k) (hidle : k.idleThread ≠ some t)
    (hs : th.status = .running)
    (hk' : k' = { k.setThread t (some th) with
      waitList := listInsertOrdered (leastSleep (k.setThread t (some th))) t k.waitList }) :
    Queues none none (k'.setThread t (some { th with status := .blocked })) := by
  subst hk'
  have h₁ := h.setRunning hs
  have hnot := h.running_notMem
  -- the tick was stored before the insertion: marking the caller leaves the order
  have hw : ∀ c, (({ k.setThread t (some th) with
      waitList := listInsertOrdered (leastSleep (k.setThread t (some th))) t k.waitList } :
      Kernel).setThread t (some { th with status := .blocked })).wakeTickOf c =
      (k.setThread t (some th)).wakeTickOf c := by
    intro c
    by_cases hc : c = t
    · simp [hc]
    · simp [hc, Kernel.wakeTickOf]
  have hsorted := h₁.sorted_setThread { th with status := .blocked } hnot.1 hnot.2.1
  have hmem : ∀ u, u ∈ listInsertOrdered (leastSleep (k.setThread t (some th))) t k.waitList ↔
      u = t ∨ u ∈ k.waitList := by
    intro u
    rw [listInsertOrdered_leastSleep]
    exact mem_insertAfterTies
  refine h₁.stop (s := .blocked) (by decide) rfl ?_ ?_ ?_ ?_ (by simp) ?_
    ⟨h.readyNodup, ?_, h.waitersNodup, h.allNodup⟩ hsorted.1 ?_
  · intro u
    rw [Kernel.statusOf_setThread]
    rfl
  · intro u
    simp
  · intro u
    show u ∈ listInsertOrdered _ t k.waitList ∨ u ∈ k.waiters ↔ _
    rw [hmem]
    simp only [Kernel.setThread_waitList, Kernel.setThread_waiters, Kernel.setThread_idleThread,
      ne_eq, hidle, not_false_eq_true, and_true]
    tauto
  · intro u
    simp
  · -- a sleeping thread waits for nothing else
    intro u hu hm
    rcases (hmem u).mp hu with hut | hu
    · exact hnot.2.2 (hut ▸ hm)
    · exact h.apart u hu hm
  · show (listInsertOrdered _ t k.waitList).Nodup
    rw [listInsertOrdered_leastSleep]
    exact nodup_insertAfterTies hnot.2.1 h.waitNodup
  · show (listInsertOrdered _ t k.waitList).Pairwise _
    simp only [hw]
    rw [listInsertOrdered_leastSleep]
    exact sorted_insertAfterTies h₁.waitSorted

end Queues

end Pintos.Threads
