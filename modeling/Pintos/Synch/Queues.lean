import Mathlib.Data.List.Count
import Mathlib.Data.List.Nodup
import Pintos.Synch.Effects

/-! # Where a thread is

The member `elem` of a thread serves the `ready_list` and the waiters of the
semaphores. What keeps them apart is the status: a ready thread is in
`ready_list`, a blocked one among the waiters of the one semaphore that it is
going to test again, and it is there once. Two kinds of threads are in no list:
the idle thread, and a thread that `thread_create` has not finished.
-/

namespace Pintos.Synch

open Threads (ThreadStatus)

variable {k k' : Kernel} {p t u v n : Ptr} {s : Sema} {a : Act} {acts r : List Act}

/-! ## The idle thread -/

/-- The acts of the function `idle` that no other function has. -/
def Act.OfIdle (a : Act) : Prop := a = .setIdle ∨ a = .idleBlock ∨ a = .halt

/-- The code of the idle thread, once it has registered. -/
def IdleLoop (acts : List Act) : Prop :=
  (∃ started, acts = [.up (.plain started), .idleBlock]) ∨ acts = [.idleBlock] ∨ acts = [.halt]

/-- The thread in page `p` executes `idle`, and no other thread does. -/
structure Idle (k : Kernel) (p : Ptr) : Prop where
  code : (k.idleThread = none ∧ k.status p ≠ some .blocked ∧ ∃ started, k.rest p = idle started) ∨
    (k.idleThread = some p ∧ IdleLoop (k.rest p))
  only : ∀ t a, a ∈ k.rest t → a.OfIdle → t = p

/-! ## The invariant -/

/-- The lists of the threads. Their owner is the status, and what a blocked thread is going
to do; `p` is the page of the idle thread. -/
structure Queues (k : Kernel) (p : Ptr) : Prop where
  readyNodup : k.readyList.Nodup
  ready : ∀ t, t ∈ k.readyList ↔ k.status t = some .ready ∧ k.idleThread ≠ some t
  waitersNodup : ∀ s, (k.waiters s).Nodup
  waiting : ∀ t s, t ∈ k.waiters s ↔
    k.status t = some .blocked ∧ (k.rest t).head? = some (.retest s)
  blocked : ∀ t, k.status t = some .blocked → (∃ s, (k.rest t).head? = some (.retest s)) ∨
    k.idleThread = some t ∨ ∃ u, .unblock t ∈ k.rest u
  created : ∀ t u, .unblock t ∈ k.rest u → k.status t = some .blocked ∧ k.rest t = []
  creator : ∀ t u v, .unblock t ∈ k.rest u → .unblock t ∈ k.rest v → u = v
  once : ∀ t u, (k.rest u).count (.unblock t) ≤ 1
  exits : ∀ t, .releaseLocks ∈ k.rest t → k.rest t = [.releaseLocks]
  alive : ∀ t, k.rest t ≠ [] → k.status t ≠ none ∧ k.status t ≠ some .dying
  idle : Idle k p
  allNodup : k.allList.Nodup
  all : ∀ t, t ∈ k.allList ↔ k.status t ≠ none ∧ k.status t ≠ some .dying
  dying : ∀ t, k.status t = some .dying → t = k.initialThread ∨ t = k.current
  initial : k.status k.initialThread ≠ none
  ownWaiter : ∀ t u, .down (.ofWaiter u) ∈ k.rest t ∨ .retest (.ofWaiter u) ∈ k.rest t → t = u

/-- One thread runs. -/
def Running (k : Kernel) : Prop := ∀ t, k.status t = some .running ↔ t = k.current

/-- The parts of the kernel that the invariant is about are the same. -/
structure SameQueues (k k' : Kernel) : Prop where
  status : k'.status = k.status
  rest : k'.rest = k.rest
  readyList : k'.readyList = k.readyList
  allList : k'.allList = k.allList
  current : k'.current = k.current
  idleThread : k'.idleThread = k.idleThread
  initialThread : k'.initialThread = k.initialThread
  waiters : k'.waiters = k.waiters

theorem Queues.congr (h : Queues k p) (he : SameQueues k k') : Queues k' p := by
  obtain ⟨h₁, h₂, h₃, h₄, h₅, h₆, h₇, h₈⟩ := he
  obtain ⟨q₁, q₂, q₃, q₄, q₅, q₆, q₇, q₈, q₉, q₁₀, ⟨q₁₁, q₁₂⟩, q₁₃, q₁₄, q₁₅, q₁₆, q₁₇⟩ := h
  refine ⟨?_, ?_, ?_, ?_, ?_, ?_, ?_, ?_, ?_, ?_, ⟨?_, ?_⟩, ?_, ?_, ?_, ?_, ?_⟩ <;>
    simp only [h₁, h₂, h₃, h₄, h₅, h₆, h₇, h₈] <;> assumption

theorem Running.congr (h : Running k) (hs : k'.status = k.status) (hc : k'.current = k.current) :
    Running k' := by
  intro t
  rw [hs, hc]
  exact h t

/-! ## What the running thread has left to do -/

/-- An act that a thread other than the idle one may get to do. -/
def Act.Fresh (u : Ptr) (a : Act) : Prop :=
  ¬ a.OfIdle ∧ ∀ v, a = .down (.ofWaiter v) ∨ a = .retest (.ofWaiter v) → u = v

/-- The running thread gets something else to do; it may become the idle thread. -/
theorem Queues.setTodo (h : Queues k p) (hrun : k.status u = some .running) (o : Option Ptr)
    (ho : ∀ t, k.status t ≠ some .running → (o = some t ↔ k.idleThread = some t))
    (hcount : ∀ t, r.count (.unblock t) = (k.rest u).count (.unblock t))
    (hidle : Idle { k.setRest u r with idleThread := o } p)
    (hown : ∀ v, .down (.ofWaiter v) ∈ r ∨ .retest (.ofWaiter v) ∈ r → u = v)
    (hexits : .releaseLocks ∈ r → r = [.releaseLocks]) :
    Queues { k.setRest u r with idleThread := o } p := by
  have hmem : ∀ t w, .unblock t ∈ (k.setRest u r).rest w ↔ .unblock t ∈ k.rest w := by
    intro t w
    by_cases hw : w = u
    · subst hw
      rw [Kernel.setRest_rest, Function.update_self, ← List.count_pos_iff, hcount,
        List.count_pos_iff]
    · rw [Kernel.setRest_rest, Function.update_of_ne hw]
  have hrest : ∀ t, k.status t ≠ some .running → (k.setRest u r).rest t = k.rest t := by
    intro t ht
    refine Function.update_of_ne ?_ ..
    rintro rfl
    exact ht hrun
  have hblocked : ∀ t, k.status t = some .blocked → k.status t ≠ some .running := by
    intro t ht
    rw [ht]
    decide
  refine ⟨h.readyNodup, ?_, h.waitersNodup, ?_, ?_, ?_, ?_, ?_, ?_, ?_, hidle, h.allNodup, h.all,
    h.dying, h.initial, ?_⟩
  · intro t
    show t ∈ k.readyList ↔ k.status t = some .ready ∧ o ≠ some t
    rw [h.ready]
    refine and_congr_right fun ht => ?_
    rw [ne_eq, ne_eq, ho t]
    rw [ht]
    decide
  · intro t s
    show t ∈ k.waiters s ↔ k.status t = some .blocked ∧ _
    rw [h.waiting]
    refine and_congr_right fun ht => ?_
    rw [hrest t (hblocked t ht)]
  · intro t ht
    simp only [hmem, hrest t (hblocked t ht), ho t (hblocked t ht)]
    exact h.blocked t ht
  · intro t w hw
    obtain ⟨ht, hnil⟩ := h.created t w ((hmem t w).mp hw)
    exact ⟨ht, (hrest t (hblocked t ht)).trans hnil⟩
  · intro t w₁ w₂ h₁ h₂
    exact h.creator t w₁ w₂ ((hmem t w₁).mp h₁) ((hmem t w₂).mp h₂)
  · intro t w
    by_cases hw : w = u
    · subst hw
      rw [Kernel.setRest_rest, Function.update_self, hcount]
      exact h.once t w
    · rw [Kernel.setRest_rest, Function.update_of_ne hw]
      exact h.once t w
  · intro t ht
    by_cases htu : t = u
    · subst htu
      rw [Kernel.setRest_rest, Function.update_self] at ht ⊢
      exact hexits ht
    · rw [Kernel.setRest_rest, Function.update_of_ne htu] at ht ⊢
      exact h.exits t ht
  · intro t ht
    by_cases htu : t = u
    · subst htu
      show k.status t ≠ none ∧ k.status t ≠ some .dying
      rw [hrun]
      decide
    · rw [Kernel.setRest_rest, Function.update_of_ne htu] at ht
      exact h.alive t ht
  · intro t w
    by_cases htu : t = u
    · subst htu
      rw [Kernel.setRest_rest, Function.update_self]
      exact hown w
    · rw [Kernel.setRest_rest, Function.update_of_ne htu]
      exact h.ownWaiter t w

/-- The running thread gets something else to do. -/
theorem Queues.setRest (h : Queues k p) (hrun : k.status u = some .running)
    (hcount : ∀ t, r.count (.unblock t) = (k.rest u).count (.unblock t))
    (hidle : Idle (k.setRest u r) p)
    (hown : ∀ v, .down (.ofWaiter v) ∈ r ∨ .retest (.ofWaiter v) ∈ r → u = v)
    (hexits : .releaseLocks ∈ r → r = [.releaseLocks]) : Queues (k.setRest u r) p :=
  h.setTodo hrun k.idleThread (fun _ _ => Iff.rfl) hcount hidle hown hexits

theorem IdleLoop.ne_nil (h : IdleLoop acts) : acts ≠ [] := by
  rcases h with ⟨started, rfl⟩ | rfl | rfl
  · exact List.cons_ne_nil _ _
  · exact List.cons_ne_nil _ _
  · exact List.cons_ne_nil _ _

theorem Idle.rest_ne_nil (h : Idle k p) : k.rest p ≠ [] := by
  obtain ⟨-, -, started, hcode⟩ | ⟨-, hcode⟩ := h.code
  · rw [hcode]
    exact List.cons_ne_nil _ _
  · exact hcode.ne_nil

theorem Idle.eq (h : Idle k p) (ht : k.idleThread = some t) : t = p := by
  obtain ⟨hnone, -⟩ | ⟨hsome, -⟩ := h.code
  · rw [hnone] at ht
    cases ht
  · rw [hsome] at ht
    exact (Option.some.inj ht).symm

/-- What the idle thread executes next. -/
theorem Idle.head (h : Idle k p) (htodo : k.rest p = a :: acts) :
    a.OfIdle ∨ (∃ started, a = .up (.plain started)) ∧ k.idleThread = some p ∧
      acts = [.idleBlock] := by
  obtain ⟨-, -, started, hcode⟩ | ⟨hsome, hcode⟩ := h.code
  · rw [htodo] at hcode
    obtain ⟨rfl, -⟩ := List.cons.inj hcode
    exact .inl (.inl rfl)
  · obtain ⟨started, hcode⟩ | hcode | hcode := hcode
    · rw [htodo] at hcode
      obtain ⟨rfl, rfl⟩ := List.cons.inj hcode
      exact .inr ⟨⟨started, rfl⟩, hsome, rfl⟩
    · rw [htodo] at hcode
      obtain ⟨rfl, -⟩ := List.cons.inj hcode
      exact .inl (.inr (.inl rfl))
    · rw [htodo] at hcode
      obtain ⟨rfl, -⟩ := List.cons.inj hcode
      exact .inl (.inr (.inr rfl))

/-- Only the idle thread blocks in the loop of `idle`, and it has registered. -/
theorem Idle.of_idleBlock (h : Idle k p) (hrest : k.rest u = .idleBlock :: acts) :
    u = p ∧ k.idleThread = some p ∧ acts = [] := by
  have hmem : Act.idleBlock ∈ k.rest u := by
    rw [hrest]
    exact List.mem_cons_self
  obtain rfl := h.only u _ hmem (.inr (.inl rfl))
  refine ⟨rfl, ?_⟩
  obtain ⟨-, -, started, hcode⟩ | ⟨hsome, hcode⟩ := h.code
  · rw [hrest] at hcode
    cases hcode
  · refine ⟨hsome, ?_⟩
    rw [hrest] at hcode
    obtain ⟨started, hcode⟩ | hcode | hcode := hcode
    · cases hcode
    · exact (List.cons.inj hcode).2
    · cases hcode

/-- A thread with something else to do than the idle thread. -/
theorem Idle.ne (h : Idle k p) (htodo : k.rest u = a :: acts) (ha : ¬ a.OfIdle)
    (hup : ∀ started, a ≠ .up (.plain started)) : u ≠ p := by
  rintro rfl
  rcases h.head htodo with hidle | ⟨⟨started, heq⟩, -⟩
  · exact ha hidle
  · exact hup started heq

theorem Idle.setRest (h : Idle k p) (hne : u ≠ p) (hnew : ∀ a ∈ r, a ∈ k.rest u ∨ ¬ a.OfIdle) :
    Idle (k.setRest u r) p := by
  have hp : (k.setRest u r).rest p = k.rest p := Function.update_of_ne (Ne.symm hne) ..
  refine ⟨?_, fun t a hmem hidle => ?_⟩
  · rw [hp]
    exact h.code
  · by_cases ht : t = u
    · subst ht
      rw [Kernel.setRest_rest, Function.update_self] at hmem
      rcases hnew a hmem with hold | hno
      · exact h.only t a hold hidle
      · exact absurd hidle hno
    · rw [Kernel.setRest_rest, Function.update_of_ne ht] at hmem
      exact h.only t a hmem hidle

theorem Idle.setRest_self (h : Idle k p) (hp : k.idleThread = some p) (hr : IdleLoop r) :
    Idle (k.setRest p r) p := by
  refine ⟨.inr ⟨hp, ?_⟩, fun t a hmem hidle => ?_⟩
  · rw [Kernel.setRest_rest, Function.update_self]
    exact hr
  · by_contra ht
    rw [Kernel.setRest_rest, Function.update_of_ne ht] at hmem
    exact ht (h.only t a hmem hidle)

/-- A thread other than the idle thread gets more to do. -/
theorem Queues.detour (h : Queues k p) (hrun : k.status u = some .running) (hne : u ≠ p)
    (hcount : ∀ t, r.count (.unblock t) = (k.rest u).count (.unblock t))
    (hnew : ∀ a ∈ r, a ∈ k.rest u ∨ a.Fresh u)
    (hexits : .releaseLocks ∈ r → r = [.releaseLocks]) : Queues (k.setRest u r) p := by
  refine h.setRest hrun hcount (h.idle.setRest hne fun a ha => ?_) (fun v hv => ?_) hexits
  · rcases hnew a ha with hold | hfresh
    · exact .inl hold
    · exact .inr hfresh.1
  · rcases hv with hv | hv
    · rcases hnew _ hv with hold | hfresh
      · exact h.ownWaiter u v (.inl hold)
      · exact hfresh.2 v (.inl rfl)
    · rcases hnew _ hv with hold | hfresh
      · exact h.ownWaiter u v (.inr hold)
      · exact hfresh.2 v (.inr rfl)

/-- `thread_exit` does not return. -/
theorem Queues.exits_notMem (h : Queues k p) (htodo : k.rest u = a :: acts) :
    .releaseLocks ∉ acts := by
  intro hmem
  have hrest := h.exits u (by rw [htodo]; exact List.mem_cons_of_mem _ hmem)
  rw [htodo] at hrest
  rw [(List.cons.inj hrest).2] at hmem
  cases hmem

/-- A thread is done with an act. -/
theorem Queues.advance (h : Queues k p) (hrun : k.status u = some .running)
    (htodo : k.rest u = a :: acts) (ha : ¬ a.OfIdle) (hunblock : ∀ t, a ≠ .unblock t) :
    Queues (k.setRest u acts) p := by
  have hcount : ∀ t, acts.count (.unblock t) = (k.rest u).count (.unblock t) := by
    intro t
    rw [htodo, List.count_cons_of_ne (hunblock t)]
  have hexits : .releaseLocks ∉ acts := h.exits_notMem htodo
  by_cases hne : u = p
  · subst hne
    rcases h.idle.head htodo with hidle | ⟨-, hsome, rfl⟩
    · exact absurd hidle ha
    · refine h.setRest hrun hcount (h.idle.setRest_self hsome (.inr (.inl rfl))) (fun v hv => ?_)
        fun hmem => absurd hmem hexits
      simp at hv
  · refine h.detour hrun hne hcount (fun b hb => .inl ?_) fun hmem => absurd hmem hexits
    rw [htodo]
    exact List.mem_cons_of_mem _ hb

/-! ## The running thread gives up its status -/

/-- The running thread gets another status, and is in the list that goes with it. -/
theorem Queues.leave (h : Queues k p) (hrun : k.status k.current = some .running)
    (st : ThreadStatus) (ready all : List Ptr) (waiters : Sema → List Ptr)
    (hready : ready.Nodup ∧ (∀ t, t ≠ k.current → (t ∈ ready ↔ t ∈ k.readyList)) ∧
      (k.current ∈ ready ↔ st = .ready ∧ k.idleThread ≠ some k.current))
    (hwaiters : ∀ s, (waiters s).Nodup ∧ (∀ t, t ≠ k.current → (t ∈ waiters s ↔ t ∈ k.waiters s)) ∧
      (k.current ∈ waiters s ↔ st = .blocked ∧ k.todo.head? = some (.retest s)))
    (hall : all.Nodup ∧ (∀ t, t ≠ k.current → (t ∈ all ↔ t ∈ k.allList)) ∧
      (k.current ∈ all ↔ st ≠ .dying))
    (hblocked : st = .blocked → (∃ s, k.todo.head? = some (.retest s)) ∨
      k.idleThread = some k.current)
    (hdying : st = .dying → k.todo = []) :
    Queues { k with
      status := Function.update k.status k.current (some st)
      readyList := ready
      waiters := waiters
      allList := all } p := by
  have hother : ∀ t, t ≠ k.current →
      Function.update k.status k.current (some st) t = k.status t :=
    fun t ht => Function.update_of_ne ht ..
  have hself : Function.update k.status k.current (some st) k.current = some st :=
    Function.update_self ..
  -- a thread that is being created is not the running one
  have hcreated : ∀ t u, .unblock t ∈ k.rest u → t ≠ k.current := by
    rintro t u hmem rfl
    have hno := (h.created _ u hmem).1
    rw [hrun] at hno
    cases hno
  refine ⟨hready.1, fun t => ?_, fun s => (hwaiters s).1, fun t s => ?_, fun t ht => ?_,
    fun t u hmem => ?_, h.creator, h.once, h.exits, fun t ht => ?_, ⟨?_, h.idle.only⟩, hall.1,
    fun t => ?_, fun t ht => ?_, ?_, h.ownWaiter⟩
  · dsimp only
    by_cases ht : t = k.current
    · subst ht
      rw [hready.2.2, hself, Option.some.injEq]
    · rw [hready.2.1 t ht, hother t ht]
      exact h.ready t
  · dsimp only
    by_cases ht : t = k.current
    · subst ht
      rw [(hwaiters s).2.2, hself, Option.some.injEq]
      exact Iff.rfl
    · rw [(hwaiters s).2.1 t ht, hother t ht]
      exact h.waiting t s
  · dsimp only at ht ⊢
    by_cases htu : t = k.current
    · subst htu
      rw [hself] at ht
      rcases hblocked (Option.some.inj ht) with hhead | hidle
      · exact .inl hhead
      · exact .inr (.inl hidle)
    · rw [hother t htu] at ht
      exact h.blocked t ht
  · dsimp only
    rw [hother t (hcreated t u hmem)]
    exact h.created t u hmem
  · dsimp only
    by_cases htu : t = k.current
    · subst htu
      rw [hself]
      refine ⟨Option.some_ne_none _, fun hst => ?_⟩
      exact ht (hdying (Option.some.inj hst))
    · rw [hother t htu]
      exact h.alive t ht
  · obtain ⟨hnone, hp, hcode⟩ | hsome := h.idle.code
    · refine .inl ⟨hnone, ?_, hcode⟩
      dsimp only
      by_cases hpu : p = k.current
      · subst hpu
        rw [hself]
        intro hst
        rcases hblocked (Option.some.inj hst) with ⟨s, hhead⟩ | hidle
        · obtain ⟨started, hcode⟩ := hcode
          rw [Kernel.todo, hcode] at hhead
          cases hhead
        · rw [hnone] at hidle
          cases hidle
      · rw [hother p hpu]
        exact hp
    · exact .inr hsome
  · dsimp only
    by_cases ht : t = k.current
    · subst ht
      rw [hall.2.2, hself]
      simp
    · rw [hall.2.1 t ht, hother t ht]
      exact h.all t
  · dsimp only at ht ⊢
    by_cases htu : t = k.current
    · exact .inr htu
    · rw [hother t htu] at ht
      exact h.dying t ht
  · dsimp only
    by_cases hi : k.initialThread = k.current
    · rw [hi, hself]
      exact Option.some_ne_none _
    · rw [hother _ hi]
      exact h.initial

/-- The running thread is in no list of threads that do not run. -/
theorem Queues.current_notMem (h : Queues k p) (hrun : k.status k.current = some .running) :
    k.current ∉ k.readyList ∧ ∀ s, k.current ∉ k.waiters s := by
  constructor
  · intro hmem
    have hready := ((h.ready _).mp hmem).1
    rw [hrun] at hready
    cases hready
  · intro s hmem
    have hblocked := ((h.waiting _ s).mp hmem).1
    rw [hrun] at hblocked
    cases hblocked

theorem mem_concat_of_ne {l : List Ptr} (h : t ≠ u) : t ∈ l ++ [u] ↔ t ∈ l := by
  rw [List.mem_append, List.mem_singleton]
  exact or_iff_left h

theorem nodup_concat {l : List Ptr} (h : l.Nodup) (hu : u ∉ l) : (l ++ [u]).Nodup :=
  List.nodup_append.mpr ⟨h, List.nodup_singleton u, fun a ha b hb hab => by
    rw [List.mem_singleton] at hb
    exact hu (hb ▸ hab ▸ ha)⟩

section

variable (h : Queues k p) (hrun : k.status k.current = some .running)

include h hrun

theorem Queues.all_current (st : ThreadStatus) (hst : st ≠ .dying) :
    k.allList.Nodup ∧ (∀ t, t ≠ k.current → (t ∈ k.allList ↔ t ∈ k.allList)) ∧
      (k.current ∈ k.allList ↔ st ≠ .dying) := by
  refine ⟨h.allNodup, fun _ _ => Iff.rfl, iff_of_true ?_ hst⟩
  rw [h.all, hrun]
  decide

theorem Queues.ready_current (st : ThreadStatus) (hst : st ≠ .ready) :
    k.readyList.Nodup ∧ (∀ t, t ≠ k.current → (t ∈ k.readyList ↔ t ∈ k.readyList)) ∧
      (k.current ∈ k.readyList ↔ st = .ready ∧ k.idleThread ≠ some k.current) :=
  ⟨h.readyNodup, fun _ _ => Iff.rfl,
    iff_of_false (h.current_notMem hrun).1 fun hready => hst hready.1⟩

theorem Queues.waiters_current (st : ThreadStatus) (hst : st ≠ .blocked ∨ k.todo = [.halt])
    (s : Sema) : (k.waiters s).Nodup ∧
      (∀ t, t ≠ k.current → (t ∈ k.waiters s ↔ t ∈ k.waiters s)) ∧
      (k.current ∈ k.waiters s ↔ st = .blocked ∧ k.todo.head? = some (.retest s)) := by
  refine ⟨h.waitersNodup s, fun _ _ => Iff.rfl,
    iff_of_false ((h.current_notMem hrun).2 s) fun hblocked => ?_⟩
  rcases hst with hst | hst
  · exact hst hblocked.1
  · rw [hst] at hblocked
    cases hblocked.2

/-- The running thread blocks in `sema_down`. -/
theorem Queues.asleep (htodo : k.todo = a :: acts) (ha : a = .down s ∨ a = .retest s) :
    Queues (asleep k s acts) p := by
  have hne : k.current ≠ p := by
    refine h.idle.ne htodo ?_ fun started heq => ?_
    · rintro (rfl | rfl | rfl)
      · rcases ha with hno | hno <;> cases hno
      · rcases ha with hno | hno <;> cases hno
      · rcases ha with hno | hno <;> cases hno
    · rcases ha with rfl | rfl <;> cases heq
  have hcount : ∀ t, (Act.retest s :: acts).count (.unblock t) =
      (k.rest k.current).count (.unblock t) := by
    intro t
    rw [show k.rest k.current = a :: acts from htodo]
    rcases ha with rfl | rfl
    · rw [List.count_cons_of_ne (by simp), List.count_cons_of_ne (by simp)]
    · rfl
  have h₁ : Queues (k.setRest k.current (.retest s :: acts)) p := by
    refine h.detour hrun hne hcount (fun b hb => ?_) fun hmem => ?_
    rotate_left
    · rcases List.mem_cons.mp hmem with hno | hmem
      · cases hno
      · exact absurd hmem (h.exits_notMem htodo)
    rcases List.mem_cons.mp hb with rfl | hb
    · refine .inr ⟨by simp [Act.OfIdle], fun v hv => ?_⟩
      have hs : s = .ofWaiter v := by simpa using hv
      refine h.ownWaiter k.current v ?_
      rw [show k.rest k.current = a :: acts from htodo, ← hs]
      rcases ha with rfl | rfl
      · exact .inl List.mem_cons_self
      · exact .inr List.mem_cons_self
    · left
      rw [show k.rest k.current = a :: acts from htodo]
      exact List.mem_cons_of_mem _ hb
  have hhead : (k.setRest k.current (.retest s :: acts)).todo.head? = some (.retest s) := by
    unfold Kernel.todo
    rw [Kernel.setRest_rest, Kernel.setRest_current, Function.update_self]
    rfl
  have hself := (h.current_notMem hrun).2
  refine (h₁.leave hrun .blocked _ _ (Function.update k.waiters s (k.waiters s ++ [k.current]))
    (h₁.ready_current hrun .blocked nofun) (fun s' => ?_) (h₁.all_current hrun .blocked nofun)
    (fun _ => .inl ⟨s, hhead⟩) nofun).congr ⟨rfl, rfl, rfl, rfl, rfl, rfl, rfl, rfl⟩
  rw [hhead]
  by_cases hs : s' = s
  · subst hs
    rw [Function.update_self]
    exact ⟨nodup_concat (h.waitersNodup s') (hself s'), fun t ht => mem_concat_of_ne ht,
      iff_of_true (List.mem_append_right _ List.mem_cons_self) ⟨rfl, rfl⟩⟩
  · rw [Function.update_of_ne hs]
    refine ⟨h.waitersNodup s', fun _ _ => Iff.rfl, iff_of_false (hself s') ?_⟩
    rintro ⟨-, heq⟩
    exact hs (Act.retest.inj (Option.some.inj heq)).symm

/-- The running thread makes way. -/
theorem Queues.yielded : Queues (yielded k) p := by
  have hself := h.current_notMem hrun
  have hwaiters := h.waiters_current hrun .ready (.inl nofun)
  have hall := h.all_current hrun .ready nofun
  unfold Synch.yielded
  split
  next hidle =>
    refine (h.leave hrun .ready (k.readyList ++ [k.current]) _ _
      ⟨nodup_concat h.readyNodup hself.1, fun t ht => mem_concat_of_ne ht, ?_⟩ hwaiters hall nofun
      nofun).congr ⟨rfl, rfl, rfl, rfl, rfl, rfl, rfl, rfl⟩
    exact iff_of_true (List.mem_append_right _ List.mem_cons_self) ⟨rfl, hidle⟩
  next hidle =>
    refine (h.leave hrun .ready k.readyList _ _ ⟨h.readyNodup, fun _ _ => Iff.rfl, ?_⟩ hwaiters
      hall nofun nofun).congr ⟨rfl, rfl, rfl, rfl, rfl, rfl, rfl, rfl⟩
    exact iff_of_false hself.1 fun hno => hidle hno.2

/-- The idle thread blocks. -/
theorem Queues.idleBlocks (htodo : k.todo = .idleBlock :: acts) :
    Queues ((k.setRest k.current [.halt]).setStatus k.current (some .blocked)) p := by
  have hrest : k.rest k.current = .idleBlock :: acts := htodo
  obtain ⟨hp, hsome, hacts⟩ := h.idle.of_idleBlock hrest
  have h₁ : Queues (k.setRest k.current [.halt]) p := by
    refine h.setRest hrun (fun t => ?_) ?_ (fun v hv => ?_) fun hmem => ?_
    · rw [hrest, hacts]
      rfl
    · rw [hp]
      exact h.idle.setRest_self hsome (.inr (.inr rfl))
    · simp at hv
    · simp at hmem
  have htodo₁ : (k.setRest k.current [.halt]).todo = [.halt] := Function.update_self ..
  exact (h₁.leave hrun .blocked _ _ _ (h₁.ready_current hrun .blocked nofun)
    (h₁.waiters_current hrun .blocked (.inr htodo₁)) (h₁.all_current hrun .blocked nofun)
    (fun _ => .inr (hsome.trans (congrArg some hp.symm))) nofun).congr
    ⟨rfl, rfl, rfl, rfl, rfl, rfl, rfl, rfl⟩

/-- The running thread ends. -/
theorem Queues.ended (htodo : k.todo = .releaseLocks :: acts) : Queues (ended k) p := by
  have hrest : k.rest k.current = [.releaseLocks] := by
    refine h.exits k.current ?_
    rw [show k.rest k.current = _ from htodo]
    exact List.mem_cons_self
  have hne : k.current ≠ p := h.idle.ne htodo (by simp [Act.OfIdle]) (by simp)
  have h₁ : Queues (k.setRest k.current []) p := by
    refine h.detour hrun hne (fun t => ?_) nofun nofun
    rw [hrest]
    rfl
  refine (h₁.leave hrun .dying _ (k.allList.erase k.current) _
    (h₁.ready_current hrun .dying nofun) (h₁.waiters_current hrun .dying (.inl nofun))
    ⟨h.allNodup.erase _, fun t ht => List.mem_erase_of_ne ht, ?_⟩ nofun
    (fun _ => Function.update_self ..)).congr ⟨rfl, rfl, rfl, rfl, rfl, rfl, rfl, rfl⟩
  exact iff_of_false (fun hmem => (h.allNodup.mem_erase_iff.mp hmem).1 rfl) fun hno => hno rfl

end

/-! ## Unblocking -/

/-- A blocked thread gets ready. The thread that unblocks it may have done with that. -/
theorem Queues.wake (h : Queues k p) (ht : k.status t = some .blocked)
    (hidle : k.idleThread ≠ some t) (waiters : Sema → List Ptr) (rest : Ptr → List Act)
    (hwaiters : ∀ s, (waiters s).Nodup ∧ ∀ u, u ∈ waiters s ↔ u ∈ k.waiters s ∧ u ≠ t)
    (hrest : ∀ u, k.status u ≠ some .running → rest u = k.rest u)
    (hsub : ∀ u, (rest u).Sublist (k.rest u))
    (hunblock : ∀ u v, .unblock v ∈ rest u ↔ .unblock v ∈ k.rest u ∧ v ≠ t)
    (hidle' : Idle { k with rest := rest } p)
    (hexits : ∀ u, .releaseLocks ∈ rest u → rest u = [.releaseLocks]) :
    Queues { k with
      status := Function.update k.status t (some .ready)
      readyList := k.readyList ++ [t]
      waiters := waiters
      rest := rest } p := by
  have hself : Function.update k.status t (some ThreadStatus.ready) t = some .ready :=
    Function.update_self ..
  have hother : ∀ u, u ≠ t → Function.update k.status t (some .ready) u = k.status u :=
    fun u hu => Function.update_of_ne hu ..
  have hnotready : t ∉ k.readyList := by
    intro hmem
    have hready := ((h.ready t).mp hmem).1
    rw [ht] at hready
    cases hready
  have hblocked : ∀ u, k.status u = some .blocked → rest u = k.rest u := by
    intro u hu
    refine hrest u ?_
    rw [hu]
    decide
  refine ⟨nodup_concat h.readyNodup hnotready, fun u => ?_, fun s => (hwaiters s).1,
    fun u s => ?_, fun u hu => ?_, fun u v hmem => ?_, fun u v w hv hw => ?_, fun u v => ?_, hexits,
    fun u hu => ?_, ⟨?_, hidle'.only⟩, h.allNodup, fun u => ?_, fun u hu => ?_, ?_,
    fun u v hmem => ?_⟩
  · dsimp only
    by_cases hu : u = t
    · subst hu
      rw [hself]
      exact iff_of_true (List.mem_append_right _ List.mem_cons_self) ⟨rfl, hidle⟩
    · rw [hother u hu, mem_concat_of_ne hu]
      exact h.ready u
  · dsimp only
    rw [(hwaiters s).2, h.waiting]
    by_cases hu : u = t
    · subst hu
      rw [hself]
      exact iff_of_false (fun hno => hno.2 rfl) fun hno => by cases hno.1
    · rw [hother u hu, and_iff_left hu]
      exact and_congr_right fun hst => by rw [hblocked u hst]
  · dsimp only at hu ⊢
    by_cases hut : u = t
    · subst hut
      rw [hself] at hu
      cases hu
    · rw [hother u hut] at hu
      rw [hblocked u hu]
      rcases h.blocked u hu with hhead | hidle | ⟨v, hv⟩
      · exact .inl hhead
      · exact .inr (.inl hidle)
      · exact .inr (.inr ⟨v, (hunblock v u).mpr ⟨hv, hut⟩⟩)
  · dsimp only at hmem ⊢
    obtain ⟨hmem, hut⟩ := (hunblock v u).mp hmem
    obtain ⟨hu, hnil⟩ := h.created u v hmem
    rw [hother u hut, hblocked u hu]
    exact ⟨hu, hnil⟩
  · exact h.creator u v w ((hunblock v u).mp hv).1 ((hunblock w u).mp hw).1
  · exact ((hsub v).count_le _).trans (h.once u v)
  · dsimp only at hu ⊢
    by_cases hut : u = t
    · subst hut
      rw [hself]
      decide
    · rw [hother u hut]
      refine h.alive u fun hnil => hu ?_
      exact List.sublist_nil.mp (hnil ▸ hsub u)
  · obtain ⟨hnone, hp, hcode⟩ | hsome := hidle'.code
    · refine .inl ⟨hnone, ?_, hcode⟩
      dsimp only
      by_cases hpt : p = t
      · rw [hpt, hself]
        decide
      · rw [hother p hpt]
        exact hp
    · exact .inr hsome
  · dsimp only
    rw [h.all]
    by_cases hu : u = t
    · subst hu
      rw [hself, ht]
      decide
    · rw [hother u hu]
  · dsimp only at hu ⊢
    by_cases hut : u = t
    · subst hut
      rw [hself] at hu
      cases hu
    · rw [hother u hut] at hu
      exact h.dying u hu
  · dsimp only
    by_cases hi : k.initialThread = t
    · rw [hi, hself]
      exact Option.some_ne_none _
    · rw [hother _ hi]
      exact h.initial
  · refine h.ownWaiter u v ?_
    rcases hmem with hmem | hmem
    · exact .inl ((hsub u).subset hmem)
    · exact .inr ((hsub u).subset hmem)

/-- A thread that sleeps is neither the idle thread nor one that is being created. -/
theorem Queues.of_mem_waiters (h : Queues k p) (ht : t ∈ k.waiters s) :
    k.status t = some .blocked ∧ k.idleThread ≠ some t ∧ ∀ u, .unblock t ∉ k.rest u := by
  obtain ⟨hblocked, hhead⟩ := (h.waiting t s).mp ht
  refine ⟨hblocked, fun hidle => ?_, fun u hmem => ?_⟩
  · obtain rfl := h.idle.eq hidle
    obtain ⟨hnone, -⟩ | ⟨-, ⟨started, hcode⟩ | hcode | hcode⟩ := h.idle.code
    · rw [hnone] at hidle
      cases hidle
    · rw [hcode] at hhead
      cases hhead
    · rw [hcode] at hhead
      cases hhead
    · rw [hcode] at hhead
      cases hhead
  · rw [(h.created t u hmem).2] at hhead
    cases hhead

/-- `sema_up` unblocks the first waiter. -/
theorem Queues.popWaiter (h : Queues k p) : Queues (popWaiter k s) p := by
  unfold Synch.popWaiter
  split
  next => exact h
  next t ts hw =>
    have hmem : t ∈ k.waiters s := by
      rw [hw]
      exact List.mem_cons_self
    obtain ⟨ht, hidle, hnot⟩ := h.of_mem_waiters hmem
    have hnodup := h.waitersNodup s
    rw [hw, List.nodup_cons] at hnodup
    refine (h.wake ht hidle (Function.update k.waiters s ts) k.rest (fun s' => ?_)
      (fun _ _ => rfl) (fun _ => List.Sublist.refl _) (fun u v => ?_) h.idle h.exits).congr
      ⟨rfl, rfl, rfl, rfl, rfl, rfl, rfl, rfl⟩
    · by_cases hs : s' = s
      · subst hs
        rw [Function.update_self, hw]
        refine ⟨hnodup.2, fun u => ?_⟩
        rw [List.mem_cons]
        constructor
        · intro hu
          refine ⟨.inr hu, ?_⟩
          rintro rfl
          exact hnodup.1 hu
        · exact fun hu => hu.1.resolve_left hu.2
      · rw [Function.update_of_ne hs]
        refine ⟨h.waitersNodup s', fun u => (and_iff_left_of_imp fun hu => ?_).symm⟩
        rintro rfl
        -- a thread is going to test one semaphore
        have heq := ((h.waiting u s').mp hu).2.symm.trans ((h.waiting u s).mp hmem).2
        exact hs (Act.retest.inj (Option.some.inj heq))
    · refine (and_iff_left_of_imp fun hv => ?_).symm
      rintro rfl
      exact hnot u hv

/-- `thread_create` unblocks the new thread. -/
theorem Queues.unblock (h : Queues k p) (hrun : k.status u = some .running)
    (hrest : k.rest u = .unblock t :: acts) : Queues (wakeUp (k.setRest u acts) t) p := by
  have hmem : .unblock t ∈ k.rest u := by
    rw [hrest]
    exact List.mem_cons_self
  obtain ⟨ht, hnil⟩ := h.created t u hmem
  have hne : u ≠ p := h.idle.ne hrest (by simp [Act.OfIdle]) (by simp)
  have honce := h.once t u
  rw [hrest, List.count_cons_self] at honce
  have hnotin : .unblock t ∉ acts := List.count_eq_zero.mp (by omega)
  have hother : ∀ v, v ≠ u → Function.update k.rest u acts v = k.rest v :=
    fun v hv => Function.update_of_ne hv ..
  have hself : Function.update k.rest u acts u = acts := Function.update_self ..
  refine (h.wake ht ?_ k.waiters (Function.update k.rest u acts) (fun s => ?_) (fun v hv => ?_)
    (fun v => ?_) (fun v w => ?_) ?_ fun v => ?_).congr ⟨rfl, rfl, rfl, rfl, rfl, rfl, rfl, rfl⟩
  · intro hidle
    obtain rfl := h.idle.eq hidle
    exact h.idle.rest_ne_nil hnil
  · refine ⟨h.waitersNodup s, fun v => (and_iff_left_of_imp fun hv => ?_).symm⟩
    rintro rfl
    exact (h.of_mem_waiters hv).2.2 u hmem
  · refine hother v ?_
    rintro rfl
    exact hv hrun
  · by_cases hv : v = u
    · subst hv
      rw [hself, hrest]
      exact List.sublist_cons_self _ _
    · rw [hother v hv]
  · by_cases hv : v = u
    · subst hv
      rw [hself, hrest, List.mem_cons]
      constructor
      · intro hw
        refine ⟨.inr hw, ?_⟩
        rintro rfl
        exact hnotin hw
      · rintro ⟨heq | hw, hne⟩
        · exact absurd (Act.unblock.inj heq) hne
        · exact hw
    · rw [hother v hv]
      refine (and_iff_left_of_imp fun hw => ?_).symm
      rintro rfl
      exact hv (h.creator w v u hw hmem)
  · refine h.idle.setRest hne fun a ha => .inl ?_
    rw [hrest]
    exact List.mem_cons_of_mem _ ha
  · by_cases hv : v = u
    · subst hv
      rw [hself]
      exact fun hexit => absurd hexit (h.exits_notMem hrest)
    · rw [hother v hv]
      exact h.exits v

/-! ## Switching -/

/-- What the next thread has been. -/
theorem Queues.of_next (h : Queues k p) (hn : k.next = some n) :
    (∀ t, t ∈ k.readyList.tail ↔ t ∈ k.readyList ∧ t ≠ n) ∧ (∀ s, n ∉ k.waiters s) ∧
      (∀ u, .unblock n ∉ k.rest u) ∧ k.status n ≠ some .dying ∧
      (k.status n = some .ready ∨ k.idleThread = some n) := by
  unfold Kernel.next at hn
  cases hready : k.readyList with
  | nil =>
      rw [hready] at hn
      have hp := h.idle.eq hn
      refine ⟨fun t => by simp, fun s hmem => (h.of_mem_waiters hmem).2.1 hn, fun u hmem => ?_,
        (h.alive n ?_).2, .inr hn⟩
      · refine h.idle.rest_ne_nil ?_
        rw [← hp]
        exact (h.created n u hmem).2
      · rw [hp]
        exact h.idle.rest_ne_nil
  | cons m ready =>
      rw [hready] at hn
      obtain rfl : m = n := Option.some.inj hn
      have hnodup := h.readyNodup
      rw [hready, List.nodup_cons] at hnodup
      have hst : k.status m = some .ready := by
        refine ((h.ready m).mp ?_).1
        rw [hready]
        exact List.mem_cons_self
      refine ⟨fun t => ?_, fun s hmem => ?_, fun u hmem => ?_, ?_, .inl hst⟩
      · rw [List.tail_cons, List.mem_cons]
        constructor
        · intro ht
          refine ⟨.inr ht, ?_⟩
          rintro rfl
          exact hnodup.1 ht
        · exact fun ht => ht.1.resolve_left ht.2
      · have hblocked := (h.of_mem_waiters hmem).1
        rw [hst] at hblocked
        cases hblocked
      · have hblocked := (h.created m u hmem).1
        rw [hst] at hblocked
        cases hblocked
      · rw [hst]
        decide

/-- Once the running thread has another status, the next thread runs. -/
theorem Queues.switchTo (h : Queues k p) (hno : ∀ t, k.status t ≠ some .running)
    (hn : k.next = some n) (hlive : k.status n ≠ none) :
    Queues (switchTo k n) p ∧ Running (switchTo k n) := by
  obtain ⟨htail, hwaiters, hunblock, hdying, hwas⟩ := h.of_next hn
  have hself : (Synch.switchTo k n).status n = some .running := if_pos rfl
  have hkeep : ∀ t, t ≠ n → k.status t ≠ some .dying →
      (Synch.switchTo k n).status t = k.status t := by
    intro t ht hd
    exact (if_neg ht).trans (if_neg fun hno => hd hno.2.1)
  -- the only other thing that happens is that the page of a dying thread is freed
  have hiff : ∀ t st, t ≠ n → st ≠ .dying →
      ((Synch.switchTo k n).status t = some st ↔ k.status t = some st) := by
    intro t st ht hst
    by_cases hd : k.status t = some .dying
    · have hne : k.status t ≠ some st := by
        rw [hd]
        exact fun heq => hst (Option.some.inj heq).symm
      refine iff_of_false (fun heq => hne ?_) hne
      rw [switchTo_status] at heq
      dsimp only at heq
      rw [if_neg ht] at heq
      split at heq
      next => cases heq
      next => exact heq
    · rw [hkeep t ht hd]
  refine ⟨⟨h.readyNodup.sublist (List.tail_sublist _), fun t => ?_, h.waitersNodup, fun t s => ?_,
    fun t ht => ?_, fun t u hmem => ?_, h.creator, h.once, h.exits, fun t ht => ?_,
    ⟨?_, h.idle.only⟩, h.allNodup, fun t => ?_, fun t ht => ?_, ?_, h.ownWaiter⟩, fun t => ?_⟩
  · rw [switchTo_readyList, switchTo_idleThread, htail]
    by_cases ht : t = n
    · subst ht
      rw [hself]
      exact iff_of_false (fun hno => hno.2 rfl) fun hno => by cases hno.1
    · rw [hiff t .ready ht nofun, and_iff_left ht]
      exact h.ready t
  · rw [switchTo_waiters, switchTo_rest]
    by_cases ht : t = n
    · subst ht
      rw [hself]
      exact iff_of_false (hwaiters s) fun hno => by cases hno.1
    · rw [hiff t .blocked ht nofun]
      exact h.waiting t s
  · have htn : t ≠ n := by
      rintro rfl
      rw [hself] at ht
      cases ht
    exact h.blocked t ((hiff t .blocked htn nofun).mp ht)
  · have htn : t ≠ n := by
      rintro rfl
      exact hunblock u hmem
    obtain ⟨ht, hnil⟩ := h.created t u hmem
    exact ⟨(hiff t .blocked htn nofun).mpr ht, hnil⟩
  · by_cases htn : t = n
    · subst htn
      rw [hself]
      decide
    · have hlive := h.alive t ht
      rw [hkeep t htn hlive.2]
      exact hlive
  · obtain ⟨hnone, hp, hcode⟩ | hsome := h.idle.code
    · refine .inl ⟨hnone, ?_, hcode⟩
      by_cases hpn : p = n
      · rw [hpn, hself]
        decide
      · rw [ne_eq, hiff p .blocked hpn nofun]
        exact hp
    · exact .inr hsome
  · rw [switchTo_allList, h.all]
    by_cases ht : t = n
    · subst ht
      rw [hself]
      exact iff_of_true ⟨hlive, hdying⟩ ⟨by decide, by decide⟩
    · by_cases hd : k.status t = some .dying
      · refine iff_of_false (fun hno => hno.2 hd) fun hno => ?_
        rw [switchTo_status] at hno
        dsimp only at hno
        rw [if_neg ht] at hno
        split at hno
        next => exact hno.1 rfl
        next => exact hno.2 hd
      · rw [hkeep t ht hd]
  · rw [switchTo_status] at ht
    dsimp only at ht
    split at ht
    next => cases ht
    next =>
      split at ht
      next => cases ht
      next hnot =>
        rcases h.dying t ht with hi | hc
        · exact .inl hi
        · left
          by_contra hi
          exact hnot ⟨hc, ht, hi⟩
  · rw [switchTo_initialThread, switchTo_status]
    dsimp only
    split
    next => exact Option.some_ne_none _
    next =>
      split
      next hfree => exact absurd rfl hfree.2.2
      next => exact h.initial
  · by_cases ht : t = n
    · subst ht
      exact iff_of_true hself rfl
    · refine iff_of_false (fun hrun => ?_) ht
      rw [hiff t .running ht nofun] at hrun
      exact hno t hrun

/-- There is a next thread. -/
theorem Queues.next_exists (h : Queues k p) (hno : ∀ t, k.status t ≠ some .running) :
    ∃ n, k.next = some n ∧ k.status n ≠ none := by
  unfold Kernel.next
  cases hready : k.readyList with
  | cons n ready =>
      refine ⟨n, rfl, ?_⟩
      have hmem : n ∈ k.readyList := by
        rw [hready]
        exact List.mem_cons_self
      rw [((h.ready n).mp hmem).1]
      exact Option.some_ne_none _
  | nil =>
      have hp := h.alive p h.idle.rest_ne_nil
      obtain ⟨hnone, hnot, -⟩ | ⟨hsome, -⟩ := h.idle.code
      · -- the idle thread has not registered: it would be ready
        have hmem : p ∈ k.readyList := by
          rw [h.ready, hnone]
          refine ⟨?_, nofun⟩
          cases hst : k.status p with
          | none => exact absurd hst hp.1
          | some st =>
              cases st with
              | running => exact absurd hst (hno p)
              | ready => rfl
              | blocked => exact absurd hst hnot
              | dying => exact absurd hst hp.2
        rw [hready] at hmem
        cases hmem
      · exact ⟨p, hsome, hp.1⟩

end Pintos.Synch
