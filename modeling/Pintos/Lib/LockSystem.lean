import Mathlib.Data.Fintype.Basic
import Mathlib.Data.Finset.Filter
import Mathlib.Logic.Function.Basic
import Mathlib.Logic.Relation
import Pintos.Lib.LockCode
import Pintos.Lib.Run

/-! # Threads that share locks

Any number of threads, each with the lock operations it has left, and the holder
of each lock. A step lets one thread begin an activity or execute its next
operation. A lock is acquired when it is free; a thread whose next operation
acquires a lock that another one holds waits for it.

Two results exclude deadlocks: a wait cycle contradicts a rank of the locks in
which every thread wants only locks above those it holds, and two threads that
nest two locks in opposite order stay apart as long as neither starts while the
other is at it.
-/

namespace Sync

universe u v w x

/-- The holder of each lock, and what each thread has left to do. -/
structure State (T : Type u) (L : Type v) (M : Type w) where
  holder : L → Option T
  rest : T → List (Op L M)

/-- A thread begins an activity, or executes its next operation. -/
inductive Label (T : Type u) (A : Type x) where
  | call (t : T) (a : A)
  | run (t : T)
deriving DecidableEq

section

variable {T : Type u} {L : Type v} {M : Type w} {A : Type x} [DecidableEq L] {s s' : State T L M}
  {t u : T} {l l₁ l₂ : L} {op : Op L M} {ops : List (Op L M)}

/-- The holders after an operation of thread `t`. -/
def Op.holders (t : T) : Op L M → (L → Option T) → (L → Option T)
  | .acquire l, holder => Function.update holder l (some t)
  | .release l, holder => Function.update holder l none
  | .reach _, holder => holder
  | .stop, holder => holder

/-- Thread `t` can execute the operation. -/
@[reducible] def Op.Enabled (holder : L → Option T) (t : T) : Op L M → Prop
  | .acquire l => holder l = none
  | .release l => holder l = some t
  | .reach _ => True
  | .stop => False

/-- What another thread holds after an operation it held before it. -/
theorem holder_of_ne (hu : u ≠ t) (h : op.holders t s.holder l = some u) : s.holder l = some u := by
  have hut : some t ≠ some u := fun heq => hu (Option.some.inj heq).symm
  cases op with
  | acquire l' =>
      have hl : l ≠ l' := by
        rintro rfl
        rw [show Op.holders t (.acquire l : Op L M) s.holder l = some t from
          Function.update_self ..] at h
        exact hut h
      exact (Function.update_of_ne hl ..).symm.trans h
  | release l' =>
      have hl : l ≠ l' := by
        rintro rfl
        rw [show Op.holders t (.release l : Op L M) s.holder l = none from
          Function.update_self ..] at h
        cases h
      exact (Function.update_of_ne hl ..).symm.trans h
  | reach _ => exact h
  | stop => exact h

/-- What another thread held before an operation it holds after it. -/
theorem holder_step (hu : u ≠ t) (hen : op.Enabled s.holder t) (h : s.holder l = some u) :
    op.holders t s.holder l = some u := by
  cases op with
  | acquire l' =>
      have hfree : s.holder l' = none := hen
      have hl : l ≠ l' := by
        rintro rfl
        rw [hfree] at h
        cases h
      exact (Function.update_of_ne hl ..).trans h
  | release l' =>
      have hheld : s.holder l' = some t := hen
      have hl : l ≠ l' := by
        rintro rfl
        rw [hheld] at h
        exact hu (Option.some.inj h).symm
      exact (Function.update_of_ne hl ..).trans h
  | reach _ => exact h
  | stop => exact hen.elim

/-! ## Steps -/

variable [DecidableEq T]

instance (holder : L → Option T) (t : T) (op : Op L M) : Decidable (op.Enabled holder t) :=
  match op with
  | .acquire l => inferInstanceAs (Decidable (holder l = none))
  | .release l => inferInstanceAs (Decidable (holder l = some t))
  | .reach _ => inferInstanceAs (Decidable True)
  | .stop => inferInstanceAs (Decidable False)

omit [DecidableEq L] [DecidableEq T] in
/-- All locks are free and no thread does anything. -/
def init : State T L M where
  holder := fun _ => none
  rest := fun _ => []

/-- Thread `t` has `ops` to do. -/
def State.begin (s : State T L M) (t : T) (ops : List (Op L M)) : State T L M :=
  { s with rest := Function.update s.rest t ops }

/-- Thread `t` executes `op` and has `ops` left. -/
def State.exec (s : State T L M) (t : T) (op : Op L M) (ops : List (Op L M)) : State T L M where
  holder := op.holders t s.holder
  rest := Function.update s.rest t ops

/-- The state after a label, if it can occur. -/
def next (code : A → List (Op L M)) (s : State T L M) :
    Label T A → Except String (State T L M)
  | .call t a =>
      match s.rest t with
      | [] => .ok (s.begin t (code a))
      | _ :: _ => .error "busy"
  | .run t =>
      match s.rest t with
      | [] => .error "idle"
      | op :: ops =>
          if op.Enabled s.holder t then .ok (s.exec t op ops) else .error "blocked"

/-- The step relation for activities with given code. -/
def Step (code : A → List (Op L M)) (s : State T L M) (a : Label T A) (s' : State T L M) : Prop :=
  next code s a = .ok s'

variable {code : A → List (Op L M)} {a : Label T A}

/-- What a step can do. -/
theorem step_cases (h : Step code s a s') :
    (∃ t x, a = .call t x ∧ s.rest t = [] ∧ s' = s.begin t (code x)) ∨
    ∃ t op ops, a = .run t ∧ s.rest t = op :: ops ∧ op.Enabled s.holder t ∧
      s' = s.exec t op ops := by
  unfold Step next at h
  cases a with
  | call t x =>
      left
      dsimp only at h
      split at h
      next hrest =>
        cases h
        exact ⟨t, x, rfl, hrest, rfl⟩
      next => cases h
  | run t =>
      right
      dsimp only at h
      split at h
      next => cases h
      next op ops hrest =>
        split at h
        next hen =>
          cases h
          exact ⟨t, op, ops, rfl, hrest, hen, rfl⟩
        next => cases h

/-- A thread that does nothing can begin. -/
theorem step_call (hrest : s.rest t = []) (x : A) :
    Step code s (.call t x) (s.begin t (code x)) := by
  unfold Step next
  dsimp only
  rw [hrest]

/-- A thread can execute its next operation, if that is enabled. -/
theorem step_run (hrest : s.rest t = op :: ops) (hen : op.Enabled s.holder t) :
    Step code s (.run t) (s.exec t op ops) := by
  unfold Step next
  dsimp only
  rw [hrest]
  exact if_pos hen

omit [DecidableEq L] in
@[simp] theorem begin_holder : (s.begin t ops).holder = s.holder := rfl

omit [DecidableEq L] in
@[simp] theorem begin_rest_self : (s.begin t ops).rest t = ops := Function.update_self ..

omit [DecidableEq L] in
@[simp] theorem begin_rest_of_ne (hu : u ≠ t) : (s.begin t ops).rest u = s.rest u :=
  Function.update_of_ne hu ..

@[simp] theorem exec_holder : (s.exec t op ops).holder = op.holders t s.holder := rfl

@[simp] theorem exec_rest_self : (s.exec t op ops).rest t = ops := Function.update_self ..

@[simp] theorem exec_rest_of_ne (hu : u ≠ t) : (s.exec t op ops).rest u = s.rest u :=
  Function.update_of_ne hu ..

/-! ## The locks of a thread -/

section

variable [Fintype L]

/-- The locks that a thread holds. -/
def State.heldBy (s : State T L M) (t : T) : Finset L := {l | s.holder l = some t}

omit [DecidableEq L] in
theorem mem_heldBy : l ∈ s.heldBy t ↔ s.holder l = some t := by
  unfold State.heldBy
  rw [Finset.mem_filter]
  exact and_iff_right (Finset.mem_univ l)

omit [DecidableEq L] in
theorem heldBy_init : (init : State T L M).heldBy t = ∅ := by
  rw [Finset.eq_empty_iff_forall_notMem]
  intro l hl
  cases mem_heldBy.mp hl

/-- The locks of the thread that executes an operation. -/
theorem heldBy_exec_self (hen : op.Enabled s.holder t) :
    (s.exec t op ops).heldBy t = op.after (s.heldBy t) := by
  ext m
  rw [mem_heldBy]
  cases op with
  | acquire l =>
      show Function.update s.holder l (some t) m = some t ↔ m ∈ insert l (s.heldBy t)
      rw [Finset.mem_insert, mem_heldBy]
      by_cases hm : m = l
      · rw [hm, Function.update_self]
        simp
      · rw [Function.update_of_ne hm]
        simp [hm]
  | release l =>
      show Function.update s.holder l none m = some t ↔ m ∈ (s.heldBy t).erase l
      rw [Finset.mem_erase, mem_heldBy]
      by_cases hm : m = l
      · rw [hm, Function.update_self]
        simp
      · rw [Function.update_of_ne hm]
        simp [hm]
  | reach _ => exact mem_heldBy.symm
  | stop => exact hen.elim

/-- The locks of the other threads. -/
theorem heldBy_exec_of_ne (hen : op.Enabled s.holder t) (hne : u ≠ t) :
    (s.exec t op ops).heldBy u = s.heldBy u := by
  ext l
  rw [mem_heldBy, mem_heldBy]
  constructor
  · exact holder_of_ne hne
  · exact holder_step hne hen

omit [DecidableEq L] in
/-- A thread that can execute an operation gets past it. -/
theorem proceeds_of_enabled (hen : op.Enabled s.holder t) : op.Proceeds (s.heldBy t) := by
  cases op with
  | acquire l =>
      intro hl
      have hfree : s.holder l = none := hen
      rw [mem_heldBy, hfree] at hl
      cases hl
  | release l => exact mem_heldBy.mpr hen
  | reach _ => trivial
  | stop => exact hen

/-- Every thread will meet the demands and give its locks back. -/
def State.Obeys (d : Discipline L M) (s : State T L M) : Prop :=
  ∀ t, d.wp (s.rest t) (· = ∅) (s.heldBy t)

variable {d : Discipline L M}

/-- What comes next meets the demands. -/
theorem State.Obeys.demands (h : s.Obeys d) (hrest : s.rest t = op :: ops) :
    d.demands (s.heldBy t) op := by
  have ht := h t
  rw [hrest] at ht
  exact ht.1

/-- A thread without operations left holds nothing. -/
theorem State.Obeys.idle (h : s.Obeys d) (hrest : s.rest t = []) : s.heldBy t = ∅ := by
  have ht := h t
  rw [hrest] at ht
  exact ht

theorem obeys_init : (init : State T L M).Obeys d := fun _ => heldBy_init

/-- A step keeps the discipline, if activities obey it and what is assumed about
the operation holds. -/
theorem State.Obeys.step (h : s.Obeys d) (hstep : Step code s a s')
    (hcall : ∀ t x, a = .call t x → d.wp (code x) (· = ∅) ∅)
    (hrun : ∀ t op ops, a = .run t → s.rest t = op :: ops → op.Enabled s.holder t →
      d.assumes (s.heldBy t) op) : s'.Obeys d := by
  intro u
  obtain ⟨t, x, rfl, hrest, rfl⟩ | ⟨t, op, ops, rfl, hrest, hen, rfl⟩ := step_cases hstep
  · by_cases hu : u = t
    · subst hu
      have hnone : (s.begin u (code x)).heldBy u = ∅ := h.idle hrest
      rw [begin_rest_self, hnone]
      exact hcall u x rfl
    · rw [begin_rest_of_ne hu]
      exact h u
  · by_cases hu : u = t
    · subst hu
      rw [exec_rest_self, heldBy_exec_self hen]
      have hwp := h u
      rw [hrest] at hwp
      exact hwp.2 (hrun u op ops rfl hrest hen)
    · rw [exec_rest_of_ne hu, heldBy_exec_of_ne hen hu]
      exact h u

end

/-! ## Waiting -/

section

omit [DecidableEq L] [DecidableEq T]

/-- The next operation of `t` acquires `l`. -/
def State.Wants (s : State T L M) (t : T) (l : L) : Prop := ∃ ops, s.rest t = .acquire l :: ops

/-- Thread `t` acquires a lock that it holds. -/
def State.SelfAcquires (s : State T L M) (t : T) : Prop := ∃ l, s.Wants t l ∧ s.holder l = some t

/-- Thread `t` waits for a lock that `u` holds. -/
def State.WaitsFor (s : State T L M) (t u : T) : Prop := ∃ l, s.Wants t l ∧ s.holder l = some u

/-- Thread `t` is on a cycle of threads each of which waits for the next. -/
def State.WaitCycle (s : State T L M) (t : T) : Prop := Relation.TransGen s.WaitsFor t t

/-- A thread wants one lock at a time. -/
theorem State.Wants.unique (h₁ : s.Wants t l₁) (h₂ : s.Wants t l₂) : l₁ = l₂ := by
  obtain ⟨ops₁, h₁⟩ := h₁
  obtain ⟨ops₂, h₂⟩ := h₂
  rw [h₁] at h₂
  injection h₂ with hop
  injection hop

/-- Along the waiting threads the rank of the locks does not fall. -/
theorem rank_le_of_waits {rank : L → ℕ}
    (hrank : ∀ t l l', s.holder l = some t → s.Wants t l' → rank l < rank l')
    (h : Relation.TransGen s.WaitsFor t u) :
    ∃ l l', s.Wants t l ∧ s.holder l' = some u ∧ rank l ≤ rank l' := by
  induction h with
  | single hw =>
      obtain ⟨l, hwants, hheld⟩ := hw
      exact ⟨l, l, hwants, hheld, le_rfl⟩
  | tail _ hw ih =>
      obtain ⟨l, l', hwants, hheld, hle⟩ := ih
      obtain ⟨l₂, hwants₂, hheld₂⟩ := hw
      have hlt := hrank _ l' l₂ hheld hwants₂
      exact ⟨l, l₂, hwants, hheld₂, by omega⟩

/-- There is no wait cycle if the locks have a rank such that each thread wants
only locks above those it holds. -/
theorem no_wait_cycle (rank : L → ℕ)
    (hrank : ∀ t l l', s.holder l = some t → s.Wants t l' → rank l < rank l') :
    ¬ s.WaitCycle t := by
  intro hcycle
  obtain ⟨l, l', hwants, hheld, hle⟩ := rank_le_of_waits hrank hcycle
  have hlt := hrank t l' l hheld hwants
  omega

end

/-! ## Opposite nestings -/

omit [DecidableEq T] in
/-- The operations acquire `l₂` before they release `l₁`. -/
def nests (l₁ l₂ : L) : List (Op L M) → Bool
  | [] => false
  | .acquire l :: ops => l = l₂ || nests l₁ l₂ ops
  | .release l :: ops => l ≠ l₁ && nests l₁ l₂ ops
  | .reach _ :: ops => nests l₁ l₂ ops
  | .stop :: _ => false

/-- Thread `t` holds `l₁` and is going to acquire `l₂` before it releases it. -/
def State.Nesting (s : State T L M) (t : T) (l₁ l₂ : L) : Prop :=
  s.holder l₁ = some t ∧ nests l₁ l₂ (s.rest t) = true

/-- Two threads nest two locks in opposite order. -/
def State.Crossed (s : State T L M) (t u : T) (l₁ l₂ : L) : Prop :=
  t ≠ u ∧ s.Nesting t l₁ l₂ ∧ s.Nesting u l₂ l₁

/-- A thread that nests two locks after a step has done so before it, unless it has
just acquired the outer one. -/
theorem nesting_of_step (hstep : Step code s a s')
    (hidle : ∀ t, s.rest t = [] → ∀ l, s.holder l ≠ some t) (h : s'.Nesting u l₁ l₂) :
    s.Nesting u l₁ l₂ ∨
      ∃ ops, a = .run u ∧ s.rest u = .acquire l₁ :: ops ∧ nests l₁ l₂ ops = true := by
  obtain ⟨hheld, hnests⟩ := h
  obtain ⟨t, x, rfl, hrest, rfl⟩ | ⟨t, op, ops, rfl, hrest, hen, rfl⟩ := step_cases hstep
  · left
    by_cases hu : u = t
    · subst hu
      exact absurd hheld (hidle u hrest l₁)
    · rw [begin_rest_of_ne hu] at hnests
      exact ⟨hheld, hnests⟩
  · by_cases hu : u = t
    · subst hu
      rw [exec_rest_self] at hnests
      rw [exec_holder] at hheld
      unfold State.Nesting
      rw [hrest]
      cases op with
      | acquire l =>
          -- only acquiring `l₁` makes the pair: it was held before any other step
          by_cases hl : l = l₁
          · subst hl
            exact .inr ⟨ops, rfl, rfl, hnests⟩
          · refine .inl ⟨(Function.update_of_ne (Ne.symm hl) ..).symm.trans hheld, ?_⟩
            unfold nests
            rw [hnests, Bool.or_true]
      | release l =>
          have hl : l ≠ l₁ := by
            rintro rfl
            rw [show Op.holders u (.release l : Op L M) s.holder l = none from
              Function.update_self ..] at hheld
            cases hheld
          refine .inl ⟨(Function.update_of_ne hl.symm ..).symm.trans hheld, ?_⟩
          unfold nests
          rw [hnests, Bool.and_true]
          exact decide_eq_true hl
      | reach _ => exact .inl ⟨hheld, hnests⟩
      | stop => exact hen.elim
    · left
      rw [exec_rest_of_ne hu] at hnests
      exact ⟨holder_of_ne hu hheld, hnests⟩

/-- Threads do not get crossed, if none begins to nest two locks while another one
nests them in the opposite order. -/
theorem not_crossed_step (hstep : Step code s a s')
    (hidle : ∀ t, s.rest t = [] → ∀ l, s.holder l ≠ some t)
    (hbegin₁ : ∀ t ops, a = .run t → s.rest t = .acquire l₁ :: ops → nests l₁ l₂ ops = true →
      ∀ u, u ≠ t → ¬ s.Nesting u l₂ l₁)
    (hbegin₂ : ∀ t ops, a = .run t → s.rest t = .acquire l₂ :: ops → nests l₂ l₁ ops = true →
      ∀ u, u ≠ t → ¬ s.Nesting u l₁ l₂)
    (h : ∀ t u, ¬ s.Crossed t u l₁ l₂) : ∀ t u, ¬ s'.Crossed t u l₁ l₂ := by
  rintro t u ⟨hne, ht, hu⟩
  rcases nesting_of_step hstep hidle ht with ht₀ | ⟨ops, rfl, hrest, hn⟩
  · rcases nesting_of_step hstep hidle hu with hu₀ | ⟨ops, rfl, hrest, hn⟩
    · exact h t u ⟨hne, ht₀, hu₀⟩
    · exact hbegin₂ u ops rfl hrest hn t hne ht₀
  · -- only one thread takes the step
    rcases nesting_of_step hstep hidle hu with hu₀ | ⟨_, heq, _⟩
    · exact hbegin₁ t ops rfl hrest hn u hne.symm hu₀
    · cases heq
      exact hne rfl

/-- A thread keeps nesting two locks while another thread has the inner one. -/
theorem State.Nesting.step (h : s.Nesting t l₁ l₂) (hu : s.holder l₂ = some u)
    (hstep : Step code s a s') : s'.Nesting t l₁ l₂ := by
  obtain ⟨hheld, hnests⟩ := h
  obtain ⟨v, x, rfl, hrest, rfl⟩ | ⟨v, op, ops, rfl, hrest, hen, rfl⟩ := step_cases hstep
  · have hv : t ≠ v := by
      rintro rfl
      rw [hrest] at hnests
      cases hnests
    refine ⟨hheld, ?_⟩
    rw [begin_rest_of_ne hv]
    exact hnests
  · by_cases hv : t = v
    · subst hv
      rw [hrest] at hnests
      unfold State.Nesting
      rw [exec_rest_self, exec_holder]
      cases op with
      | acquire l =>
          -- what is acquired is free, so it is neither of the two
          have hfree : s.holder l = none := hen
          have hl₁ : l₁ ≠ l := by
            rintro rfl
            rw [hfree] at hheld
            cases hheld
          have hl₂ : l ≠ l₂ := by
            rintro rfl
            rw [hfree] at hu
            cases hu
          unfold nests at hnests
          rw [decide_eq_false hl₂, Bool.false_or] at hnests
          exact ⟨(Function.update_of_ne hl₁ ..).trans hheld, hnests⟩
      | release l =>
          unfold nests at hnests
          rw [Bool.and_eq_true] at hnests
          -- `l₁` is not released before `l₂` is acquired
          have hl : l ≠ l₁ := of_decide_eq_true hnests.1
          exact ⟨(Function.update_of_ne hl.symm ..).trans hheld, hnests.2⟩
      | reach _ => exact ⟨hheld, hnests⟩
      | stop => exact hen.elim
    · refine ⟨holder_step hv hen hheld, ?_⟩
      rw [exec_rest_of_ne hv]
      exact hnests

/-- Threads that are crossed remain so: neither gets on any more. -/
theorem State.Crossed.step (h : s.Crossed t u l₁ l₂) (hstep : Step code s a s') :
    s'.Crossed t u l₁ l₂ :=
  ⟨h.1, h.2.1.step h.2.2.1 hstep, h.2.2.step h.2.1.1 hstep⟩

end

end Sync
