import Mathlib.Tactic.SplitIfs
import Pintos.Synch.Elem

/-! # Locks

`lock_acquire` and `lock_release` do several things to a lock, and an interrupt
can come between any two of them: the value of the semaphore, the holder and the
list of the thread say different things about the lock then. `Phase` is what they
say; every function takes a lock through the phases in one order, whatever the
other threads do, and so at most one thread has it.
-/

namespace Pintos.Synch

open Threads (ThreadStatus)

variable {k k' : Kernel} {p t u n : Ptr} {s : Sema} {a : Act} {acts r : List Act} {l l' c : Ptr}
  {e : Event}

/-- The thread that has downed the semaphore of a lock last, if nobody has upped it since. -/
def lockOwner (l : Ptr) : List Event → Option Ptr
  | [] => none
  | .down t s :: es => if s = .ofLock l then some t else lockOwner l es
  | .up s :: es => if s = .ofLock l then none else lockOwner l es
  | _ :: es => lockOwner l es

def Kernel.owner (k : Kernel) (l : Ptr) : Option Ptr := lockOwner l k.hist

/-- What the semaphore, the holder and the list of a thread say about a lock:

* `out`: the thread does not have it;
* `taken`: it has downed the semaphore, or is going to up it, and nothing else;
* `named`: it is the holder as well;
* `held`: the lock is also in its list, as it is between `lock_acquire` and `lock_release`;
* `unnamed`: it is not the holder any more. -/
inductive Phase where
  | out
  | taken
  | named
  | held
  | unnamed
deriving DecidableEq, Repr

/-- Thread `t` has the lock in this phase. -/
structure InPhase (k : Kernel) (t l : Ptr) (ph : Phase) : Prop where
  owner : k.owner l = some t ↔ ph ≠ .out
  holder : k.holder l = some t ↔ ph = .named ∨ ph = .held
  listed : l ∈ k.lockList t ↔ ph = .held ∨ ph = .unnamed

/-- An act on a lock leads from one phase to another; it does not concern other locks. -/
def move (here : Bool) (source target ph : Phase) : Option Phase :=
  if here then if ph = source then some target else none else some ph

/-- The phase of lock `l` after an act, if the act fits the phase. -/
def Act.phase (l : Ptr) : Act → Phase → Option Phase
  | .down s => move (s = .ofLock l) .out .taken
  | .retest s => move (s = .ofLock l) .out .taken
  | .tryDown s => fun ph => if s = .ofLock l then none else some ph
  | .up s => move (s = .ofLock l) .taken .out
  | .checkFree l' => move (l' = l) .out .out
  | .setHolder l' => move (l' = l) .taken .named
  | .pushLock l' => move (l' = l) .named .held
  | .clearHolder l' => move (l' = l) .held .unnamed
  | .removeLock l' => move (l' = l) .unnamed .taken
  | .enqueueWaiter _ l' => move (l' = l) .held .held
  | .signal _ l' => move (l' = l) .held .held
  | .broadcast _ l' => move (l' = l) .held .held
  | .loadTid => move (tidLock = l) .held .held
  | .storeTid => move (tidLock = l) .held .held
  | .releaseLocks => fun ph => if ph = .out ∨ ph = .held then some .out else none
  | _ => some

/-- The acts fit the phase of lock `l`, and a function ends with the lock held or not. -/
def Fits (l : Ptr) : List Act → Phase → Prop
  | [], ph => ph = .out ∨ ph = .held
  | a :: acts, ph => ∃ ph', a.phase l ph = some ph' ∧ Fits l acts ph'

/-- The locks are used as the functions of `synch.c` use them. -/
structure LockUse (k : Kernel) : Prop where
  phase : ∀ t l, ∃ ph, InPhase k t l ph ∧ Fits l (k.rest t) ph
  value : ∀ l, k.value (.ofLock l) = if k.owner l = none then 1 else 0
  nodup : ∀ t, (k.lockList t).Nodup
  gone : ∀ t, t ∉ k.allList → k.lockList t = []

/-- The parts of the kernel that say who has a lock are the same. -/
structure SameLocks (k k' : Kernel) : Prop where
  owner : ∀ l, k'.owner l = k.owner l
  holder : k'.holder = k.holder
  lockList : k'.lockList = k.lockList
  value : ∀ l, k'.value (.ofLock l) = k.value (.ofLock l)

theorem InPhase.congr {ph : Phase} (h : InPhase k t l ph) (he : SameLocks k k') :
    InPhase k' t l ph := by
  refine ⟨?_, ?_, ?_⟩
  · rw [he.owner]
    exact h.owner
  · rw [he.holder]
    exact h.holder
  · rw [he.lockList]
    exact h.listed

/-- A step that does nothing to locks. -/
theorem LockUse.congr (h : LockUse k) (he : SameLocks k k')
    (hrest : ∀ t l ph, Fits l (k.rest t) ph → Fits l (k'.rest t) ph)
    (hall : ∀ t, t ∈ k.allList → t ∈ k'.allList ∨ k.lockList t = []) : LockUse k' := by
  refine ⟨fun t l => ?_, fun l => ?_, fun t => ?_, fun t ht => ?_⟩
  · obtain ⟨ph, hin, hfits⟩ := h.phase t l
    exact ⟨ph, hin.congr he, hrest t l ph hfits⟩
  · rw [he.value, he.owner]
    exact h.value l
  · rw [he.lockList]
    exact h.nodup t
  · rw [he.lockList]
    by_cases hmem : t ∈ k.allList
    · exact (hall t hmem).resolve_left ht
    · exact h.gone t hmem

/-! ## Who has a lock -/

theorem LockUse.owner_of_holder (h : LockUse k) (hl : k.holder l = some t) :
    k.owner l = some t := by
  obtain ⟨ph, hin, -⟩ := h.phase t l
  rw [hin.owner]
  rcases hin.holder.mp hl with rfl | rfl
  · decide
  · decide

theorem LockUse.owner_of_mem (h : LockUse k) (hl : l ∈ k.lockList t) : k.owner l = some t := by
  obtain ⟨ph, hin, -⟩ := h.phase t l
  rw [hin.owner]
  rcases hin.listed.mp hl with rfl | rfl
  · decide
  · decide

/-- What a thread is going to do says in which phase it has a lock. -/
theorem LockUse.head (h : LockUse k) (htodo : k.rest t = a :: acts) (l : Ptr) :
    ∃ ph ph', InPhase k t l ph ∧ a.phase l ph = some ph' ∧ Fits l acts ph' := by
  obtain ⟨ph, hin, hfits⟩ := h.phase t l
  rw [htodo] at hfits
  obtain ⟨ph', hph, hfits⟩ := hfits
  exact ⟨ph, ph', hin, hph, hfits⟩

theorem move_eq_some {here : Bool} {source target ph ph' : Phase}
    (h : move here source target ph = some ph') :
    (here = true ∧ ph = source ∧ ph' = target) ∨ (here = false ∧ ph' = ph) := by
  unfold move at h
  cases here with
  | true =>
      rw [if_pos rfl] at h
      split at h
      next hph => exact .inl ⟨rfl, hph, (Option.some.inj h).symm⟩
      next => cases h
  | false => exact .inr ⟨rfl, (Option.some.inj h).symm⟩

/-! ## One lock changes hands -/

/-- Thread `t` does something to lock `l`, and nothing to other locks and other threads. -/
structure OnlyLock (k k' : Kernel) (t l : Ptr) : Prop where
  owner : ∀ l', l' ≠ l → k'.owner l' = k.owner l'
  holder : ∀ l', l' ≠ l → k'.holder l' = k.holder l'
  value : ∀ l', l' ≠ l → k'.value (.ofLock l') = k.value (.ofLock l')
  listed : ∀ l', l' ≠ l → (l' ∈ k'.lockList t ↔ l' ∈ k.lockList t)
  others : ∀ u, u ≠ t → k'.lockList u = k.lockList u
  /-- Nobody else had the lock, or gets it. -/
  free : ∀ u, u ≠ t → (k'.owner l = some u ↔ k.owner l = some u) ∧
    (k'.holder l = some u ↔ k.holder l = some u)

/-- Thread `t` has something else to do, which fits the new phase of the lock. -/
theorem LockUse.transfer (h : LockUse k) (ho : OnlyLock k k' t l)
    (hother : ∀ l' ph, l' ≠ l → Fits l' (k.rest t) ph → Fits l' r ph)
    (hself : ∀ ph, InPhase k t l ph → Fits l (k.rest t) ph → ∃ ph', InPhase k' t l ph' ∧ Fits l r ph')
    (hrest : k'.rest = Function.update k.rest t r)
    (hvalue : k'.value (.ofLock l) = if k'.owner l = none then 1 else 0)
    (hnodup : (k'.lockList t).Nodup) (hall : k'.allList = k.allList) (hlive : t ∈ k.allList) :
    LockUse k' := by
  refine ⟨fun u l' => ?_, fun l' => ?_, fun u => ?_, fun u hu => ?_⟩
  · obtain ⟨ph, hin, hfits⟩ := h.phase u l'
    rw [hrest]
    by_cases hu : u = t
    · subst hu
      rw [Function.update_self]
      by_cases hl : l' = l
      · subst hl
        exact hself ph hin hfits
      · refine ⟨ph, ⟨?_, ?_, ?_⟩, hother l' ph hl hfits⟩
        · rw [ho.owner l' hl]
          exact hin.owner
        · rw [ho.holder l' hl]
          exact hin.holder
        · rw [ho.listed l' hl]
          exact hin.listed
    · rw [Function.update_of_ne hu]
      refine ⟨ph, ⟨?_, ?_, ?_⟩, hfits⟩
      · by_cases hl : l' = l
        · rw [hl, (ho.free u hu).1, ← hl]
          exact hin.owner
        · rw [ho.owner l' hl]
          exact hin.owner
      · by_cases hl : l' = l
        · rw [hl, (ho.free u hu).2, ← hl]
          exact hin.holder
        · rw [ho.holder l' hl]
          exact hin.holder
      · rw [ho.others u hu]
        exact hin.listed
  · by_cases hl : l' = l
    · subst hl
      exact hvalue
    · rw [ho.value l' hl, ho.owner l' hl]
      exact h.value l'
  · by_cases hu : u = t
    · subst hu
      exact hnodup
    · rw [ho.others u hu]
      exact h.nodup u
  · rw [hall] at hu
    have hut : u ≠ t := by
      rintro rfl
      exact hu hlive
    rw [ho.others u hut]
    exact h.gone u hu

/-- Thread `t` is done with an act on lock `l`. -/
theorem LockUse.change (h : LockUse k) (htodo : k.rest t = a :: acts) (ho : OnlyLock k k' t l)
    (ha : ∀ l' ph, l' ≠ l → a.phase l' ph = some ph)
    (hphase : ∀ ph ph', InPhase k t l ph → a.phase l ph = some ph' → InPhase k' t l ph')
    (hrest : k'.rest = Function.update k.rest t acts)
    (hvalue : k'.value (.ofLock l) = if k'.owner l = none then 1 else 0)
    (hnodup : (k'.lockList t).Nodup) (hall : k'.allList = k.allList) (hlive : t ∈ k.allList) :
    LockUse k' := by
  refine h.transfer ho (fun l' ph hl hfits => ?_) (fun ph hin hfits => ?_) hrest hvalue hnodup hall
    hlive
  · rw [htodo] at hfits
    obtain ⟨ph', hph, hfits⟩ := hfits
    rw [ha l' ph hl] at hph
    obtain rfl := Option.some.inj hph
    exact hfits
  · rw [htodo] at hfits
    obtain ⟨ph', hph, hfits⟩ := hfits
    exact ⟨ph', hphase ph ph' hin hph, hfits⟩

/-- The phase in which a thread has a lock that it is about to use. -/
theorem LockUse.source (h : LockUse k) (source target : Phase) (htodo : k.rest t = a :: acts)
    (ha : ∀ ph, a.phase l ph = move true source target ph) : InPhase k t l source := by
  obtain ⟨ph, ph', hin, hph, -⟩ := h.head htodo l
  rw [ha] at hph
  rcases move_eq_some hph with ⟨-, rfl, -⟩ | ⟨hno, -⟩
  · exact hin
  · cases hno

/-- What an act on lock `l` makes of the phase of its thread. -/
theorem phase_of_move {source target ph ph' : Phase}
    (ha : ∀ ph, a.phase l ph = move true source target ph) (hph : a.phase l ph = some ph')
    (hin : InPhase k t l ph) (hto : InPhase k t l source → InPhase k' t l target) :
    InPhase k' t l ph' := by
  rw [ha] at hph
  rcases move_eq_some hph with ⟨-, rfl, rfl⟩ | ⟨hno, -⟩
  · exact hto hin
  · cases hno

@[simp] theorem owner_down {es : List Event} :
    lockOwner l (.down t s :: es) = if s = .ofLock l then some t else lockOwner l es := rfl

@[simp] theorem owner_up {es : List Event} :
    lockOwner l (.up s :: es) = if s = .ofLock l then none else lockOwner l es := rfl

/-- A thread takes the free semaphore of a lock. -/
theorem LockUse.take (h : LockUse k) (htodo : k.rest k.current = a :: acts)
    (ha : a = .down (.ofLock l) ∨ a = .retest (.ofLock l)) (hv : k.value (.ofLock l) ≠ 0)
    (hlive : k.current ∈ k.allList) : LockUse (taken k (.ofLock l) acts) := by
  have hfree : k.owner l = none := by
    by_contra hno
    rw [h.value, if_neg hno] at hv
    exact hv rfl
  have howner : ∀ l', (taken k (.ofLock l) acts).owner l' =
      if l' = l then some k.current else k.owner l' := by
    intro l'
    show lockOwner l' (.down k.current (.ofLock l) :: k.hist) = _
    by_cases hl : l' = l
    · simp [hl]
    · simp [hl, Ne.symm hl, Kernel.owner]
  have hmove : ∀ ph, a.phase l ph = move true .out .taken ph := by
    rcases ha with rfl | rfl
    · simp [Act.phase]
    · simp [Act.phase]
  refine h.change (l := l) htodo ⟨fun l' hl => ?_, fun _ _ => rfl, fun l' hl => ?_, fun _ _ => Iff.rfl,
    fun _ _ => rfl, fun u hu => ⟨?_, Iff.rfl⟩⟩ (fun l' ph hl => ?_) (fun ph ph' hin hph => ?_) rfl
    ?_ (h.nodup _) rfl hlive
  · rw [howner, if_neg hl]
  · refine Function.update_of_ne ?_ ..
    simpa using hl
  · rw [howner, if_pos rfl, hfree]
    exact iff_of_false (fun heq => hu (Option.some.inj heq).symm) nofun
  · rcases ha with rfl | rfl
    · simp [Act.phase, move, Ne.symm hl]
    · simp [Act.phase, move, Ne.symm hl]
  · refine phase_of_move hmove hph hin fun hin => ⟨?_, ?_, ?_⟩
    · rw [howner, if_pos rfl]
      simp
    · show k.holder l = _ ↔ _
      rw [hin.holder]
      simp
    · show l ∈ k.lockList _ ↔ _
      rw [hin.listed]
      simp
  · rw [howner, if_pos rfl]
    show Function.update k.value (.ofLock l) (k.value (.ofLock l) - 1) (.ofLock l) = _
    rw [Function.update_self, h.value, hfree]
    rfl

/-- `lock->holder = thread_current ()`. -/
theorem LockUse.setHolder (h : LockUse k) (htodo : k.rest k.current = .setHolder l :: acts)
    (hlive : k.current ∈ k.allList) :
    LockUse ((k.setHolder l (some k.current)).setRest k.current acts) := by
  have hmove : ∀ ph, (Act.setHolder l).phase l ph = move true .taken .named ph := by
    simp [Act.phase]
  have hin := h.source _ _ htodo hmove
  have howner : k.owner l = some k.current := hin.owner.mpr nofun
  refine h.change (l := l) htodo ⟨fun _ _ => rfl, fun l' hl => Function.update_of_ne hl ..,
    fun _ _ => rfl, fun _ _ => Iff.rfl, fun _ _ => rfl, fun u hu => ⟨Iff.rfl, ?_⟩⟩
    (fun l' ph hl => ?_)
    (fun ph ph' hin hph => ?_) rfl (h.value l) (h.nodup _) rfl hlive
  · show Function.update k.holder l (some k.current) l = some u ↔ _
    rw [Function.update_self]
    refine iff_of_false (fun heq => hu (Option.some.inj heq).symm) fun heq => hu ?_
    exact Option.some.inj ((h.owner_of_holder heq).symm.trans howner)
  · simp [Act.phase, move, Ne.symm hl]
  · refine phase_of_move hmove hph hin fun hin => ⟨?_, ?_, ?_⟩
    · show k.owner l = _ ↔ _
      rw [hin.owner]
      simp
    · show Function.update k.holder l (some k.current) l = _ ↔ _
      rw [Function.update_self]
      simp
    · show l ∈ k.lockList _ ↔ _
      rw [hin.listed]
      simp

/-- `list_push_back (&thread_current ()->lock_list, &lock->lock_elem)`. -/
theorem LockUse.pushLock (h : LockUse k) (htodo : k.rest k.current = .pushLock l :: acts)
    (hlive : k.current ∈ k.allList) :
    LockUse ((k.setLockList k.current (k.lockList k.current ++ [l])).setRest k.current acts) := by
  have hmove : ∀ ph, (Act.pushLock l).phase l ph = move true .named .held ph := by
    simp [Act.phase]
  have hin := h.source _ _ htodo hmove
  have hself : Function.update k.lockList k.current (k.lockList k.current ++ [l]) k.current =
      k.lockList k.current ++ [l] := Function.update_self ..
  have hnot : l ∉ k.lockList k.current := by
    rw [hin.listed]
    simp
  refine h.change (l := l) htodo ⟨fun _ _ => rfl, fun _ _ => rfl, fun _ _ => rfl, fun l' hl => ?_,
    fun u hu => Function.update_of_ne hu .., fun _ _ => ⟨Iff.rfl, Iff.rfl⟩⟩ (fun l' ph hl => ?_)
    (fun ph ph' hin hph => ?_) rfl (h.value l) ?_ rfl hlive
  · show l' ∈ Function.update k.lockList k.current _ k.current ↔ _
    rw [hself]
    exact mem_concat_of_ne hl
  · simp [Act.phase, move, Ne.symm hl]
  · refine phase_of_move hmove hph hin fun hin => ⟨?_, ?_, ?_⟩
    · show k.owner l = _ ↔ _
      rw [hin.owner]
      simp
    · show k.holder l = _ ↔ _
      rw [hin.holder]
      simp
    · show l ∈ Function.update k.lockList k.current _ k.current ↔ _
      rw [hself]
      simp
  · show (Function.update k.lockList k.current _ k.current).Nodup
    rw [hself]
    exact nodup_concat (h.nodup _) hnot

/-- `lock->holder = NULL`. -/
theorem LockUse.clearHolder (h : LockUse k) (htodo : k.rest k.current = .clearHolder l :: acts)
    (hlive : k.current ∈ k.allList) :
    LockUse ((k.setHolder l none).setRest k.current acts) := by
  have hmove : ∀ ph, (Act.clearHolder l).phase l ph = move true .held .unnamed ph := by
    simp [Act.phase]
  have hin := h.source _ _ htodo hmove
  have hheld : k.holder l = some k.current := hin.holder.mpr (.inr rfl)
  refine h.change (l := l) htodo ⟨fun _ _ => rfl, fun l' hl => Function.update_of_ne hl ..,
    fun _ _ => rfl, fun _ _ => Iff.rfl, fun _ _ => rfl, fun u hu => ⟨Iff.rfl, ?_⟩⟩
    (fun l' ph hl => ?_)
    (fun ph ph' hin hph => ?_) rfl (h.value l) (h.nodup _) rfl hlive
  · show Function.update k.holder l none l = some u ↔ _
    rw [Function.update_self, hheld]
    exact iff_of_false nofun fun heq => hu (Option.some.inj heq).symm
  · simp [Act.phase, move, Ne.symm hl]
  · refine phase_of_move hmove hph hin fun hin => ⟨?_, ?_, ?_⟩
    · show k.owner l = _ ↔ _
      rw [hin.owner]
      simp
    · show Function.update k.holder l none l = _ ↔ _
      rw [Function.update_self]
      simp
    · show l ∈ k.lockList _ ↔ _
      rw [hin.listed]
      simp

/-- `list_remove (&lock->lock_elem)`. -/
theorem LockUse.removeLock (h : LockUse k) (htodo : k.rest k.current = .removeLock l :: acts)
    (hlive : k.current ∈ k.allList) :
    LockUse ((k.setRest k.current acts).setLockList k.current
      ((k.lockList k.current).erase l)) := by
  have hmove : ∀ ph, (Act.removeLock l).phase l ph = move true .unnamed .taken ph := by
    simp [Act.phase]
  have hself : Function.update k.lockList k.current ((k.lockList k.current).erase l) k.current =
      (k.lockList k.current).erase l := Function.update_self ..
  refine h.change (l := l) htodo ⟨fun _ _ => rfl, fun _ _ => rfl, fun _ _ => rfl, fun l' hl => ?_,
    fun u hu => Function.update_of_ne hu .., fun _ _ => ⟨Iff.rfl, Iff.rfl⟩⟩ (fun l' ph hl => ?_)
    (fun ph ph' hin hph => ?_) rfl (h.value l) ?_ rfl hlive
  · show l' ∈ Function.update k.lockList k.current _ k.current ↔ _
    rw [hself]
    exact List.mem_erase_of_ne hl
  · simp [Act.phase, move, Ne.symm hl]
  · refine phase_of_move hmove hph hin fun hin => ⟨?_, ?_, ?_⟩
    · show k.owner l = _ ↔ _
      rw [hin.owner]
      simp
    · show k.holder l = _ ↔ _
      rw [hin.holder]
      simp
    · show l ∈ Function.update k.lockList k.current _ k.current ↔ _
      rw [hself, (h.nodup _).mem_erase_iff]
      simp
  · show (Function.update k.lockList k.current _ k.current).Nodup
    rw [hself]
    exact (h.nodup _).erase _

theorem sameLocks_popWaiter : SameLocks k (popWaiter k s) := by
  unfold popWaiter
  split
  next => exact ⟨fun _ => rfl, rfl, rfl, fun _ => rfl⟩
  next => exact ⟨fun _ => rfl, rfl, rfl, fun _ => rfl⟩

theorem raised_owner : (raised k s).owner l = if s = .ofLock l then none else k.owner l := by
  show lockOwner l (.up s :: (popWaiter k s).hist) = _
  rw [owner_up]
  exact ite_congr rfl (fun _ => rfl) fun _ => sameLocks_popWaiter.owner l

/-- Giving back the semaphore of a lock that the thread does not hold any more. -/
theorem LockUse.raise (h : LockUse k) {k₁ : Kernel}
    (howner : ∀ l', k₁.owner l' = k.owner l') (hvalue : k₁.value = k.value)
    (hhave : k.owner l = some t) (hholder : ∀ l', l' ≠ l → k₁.holder l' = k.holder l')
    (hlisted : ∀ l', l' ≠ l → (l' ∈ k₁.lockList t ↔ l' ∈ k.lockList t))
    (hothers : ∀ u, u ≠ t → k₁.lockList u = k.lockList u)
    (hfree : k₁.holder l ≠ some t ∧ l ∉ k₁.lockList t)
    (hnobody : ∀ u, u ≠ t → (k₁.holder l = some u ↔ k.holder l = some u))
    (hother : ∀ l' ph, l' ≠ l → Fits l' (k.rest t) ph → Fits l' r ph)
    (hself : ∀ ph, InPhase k t l ph → Fits l (k.rest t) ph → Fits l r .out)
    (hrest : k₁.rest = Function.update k.rest t r) (hnodup : (k₁.lockList t).Nodup)
    (hall : k₁.allList = k.allList) (hlive : t ∈ k.allList) :
    LockUse (raised k₁ (.ofLock l)) := by
  have hsame := sameLocks_popWaiter (k := k₁) (s := .ofLock l)
  have hgone : (raised k₁ (.ofLock l)).owner l = none := by
    rw [raised_owner, if_pos rfl]
  have hholder' : (raised k₁ (.ofLock l)).holder = k₁.holder := hsame.holder
  have hlist' : (raised k₁ (.ofLock l)).lockList = k₁.lockList := hsame.lockList
  refine h.transfer ⟨fun l' hl => ?_, fun l' hl => ?_, fun l' hl => ?_, fun l' hl => ?_,
    fun u hu => ?_, fun u hu => ⟨?_, ?_⟩⟩ hother
    (fun ph hin hfits => ⟨.out, ⟨?_, ?_, ?_⟩, hself ph hin hfits⟩) ?_ ?_ ?_ ?_ hlive
  · rw [raised_owner, if_neg (by simpa using Ne.symm hl)]
    exact howner l'
  · rw [hholder']
    exact hholder l' hl
  · rw [raised_value, hvalue]
    refine Function.update_of_ne ?_ ..
    simpa using hl
  · rw [hlist']
    exact hlisted l' hl
  · rw [hlist']
    exact hothers u hu
  · rw [hgone, hhave]
    exact iff_of_false nofun fun heq => hu (Option.some.inj heq).symm
  · rw [hholder']
    exact hnobody u hu
  · rw [hgone]
    simp
  · rw [hholder']
    exact iff_of_false hfree.1 (by simp)
  · rw [hlist']
    exact iff_of_false hfree.2 (by simp)
  · exact popWaiter_rest.trans hrest
  · rw [hgone, raised_value, Function.update_self, hvalue, h.value, hhave]
    rfl
  · rw [hlist']
    exact hnodup
  · exact popWaiter_allList.trans hall

/-- `sema_up (&lock->semaphore)`, in `lock_release`. -/
theorem LockUse.up (h : LockUse k) (htodo : k.rest k.current = .up (.ofLock l) :: acts)
    (hlive : k.current ∈ k.allList) :
    LockUse (raised (k.setRest k.current acts) (.ofLock l)) := by
  have hmove : ∀ ph, (Act.up (.ofLock l)).phase l ph = move true .taken .out ph := by
    simp [Act.phase]
  have hin := h.source _ _ htodo hmove
  refine h.raise (fun _ => rfl) rfl (hin.owner.mpr nofun) (fun _ _ => rfl) (fun _ _ => Iff.rfl)
    (fun _ _ => rfl) ⟨?_, ?_⟩ (fun _ _ => Iff.rfl) (fun l' ph hl hfits => ?_)
    (fun ph _ hfits => ?_) rfl (h.nodup _) rfl hlive
  · show k.holder l ≠ _
    rw [ne_eq, hin.holder]
    simp
  · show l ∉ k.lockList _
    rw [hin.listed]
    simp
  · rw [htodo] at hfits
    obtain ⟨ph', hph, hfits⟩ := hfits
    rw [show (Act.up (.ofLock l)).phase l' ph = some ph by simp [Act.phase, move, Ne.symm hl]] at hph
    obtain rfl := Option.some.inj hph
    exact hfits
  · rw [htodo] at hfits
    obtain ⟨ph', hph, hfits⟩ := hfits
    rw [hmove] at hph
    rcases move_eq_some hph with ⟨-, -, rfl⟩ | ⟨hno, -⟩
    · exact hfits
    · cases hno

/-- A round of the loop of `release_locks`. -/
theorem LockUse.releaseLock (h : LockUse k) (htodo : k.rest k.current = .releaseLocks :: acts)
    (hl : k.holder l = some k.current) (hlive : k.current ∈ k.allList) :
    LockUse (raised (unlisted k l) (.ofLock l)) := by
  have hself : (unlisted k l).lockList k.current = (k.lockList k.current).erase l :=
    Function.update_self ..
  refine h.raise (t := k.current) (r := .releaseLocks :: acts) (fun _ => rfl) rfl
    (h.owner_of_holder hl) (fun l' hl' => Function.update_of_ne hl' ..) (fun l' hl' => ?_)
    (fun u hu => Function.update_of_ne hu ..) ⟨?_, ?_⟩ (fun u hu => ?_) (fun l' ph _ hfits => ?_)
    (fun ph _ hfits => ?_) ?_ ?_ rfl hlive
  · rw [hself]
    exact List.mem_erase_of_ne hl'
  · show Function.update k.holder l none l ≠ _
    rw [Function.update_self]
    exact nofun
  · rw [hself, (h.nodup _).mem_erase_iff]
    exact fun hno => hno.1 rfl
  · show Function.update k.holder l none l = some u ↔ _
    rw [Function.update_self, hl]
    exact iff_of_false nofun fun heq => hu (Option.some.inj heq).symm
  · rw [htodo] at hfits
    exact hfits
  · rw [htodo] at hfits
    obtain ⟨ph', hph, hfits⟩ := hfits
    refine ⟨ph', ?_, hfits⟩
    unfold Act.phase at hph
    dsimp only at hph
    split at hph
    next => exact hph
    next => cases hph
  · show k.rest = _
    rw [← htodo, Function.update_eq_self]
  · rw [hself]
    exact (h.nodup _).erase _

/-! ## Steps that do nothing to locks -/

/-- The running thread has something else to do, and does nothing to locks. -/
theorem LockUse.setRest (h : LockUse k) (he : SameLocks k k')
    (hrest : k'.rest = Function.update k.rest k.current r)
    (hfits : ∀ l ph, InPhase k k.current l ph → Fits l k.todo ph → Fits l r ph)
    (hall : k'.allList = k.allList) : LockUse k' := by
  refine ⟨fun t l => ?_, fun l => ?_, fun t => ?_, fun t ht => ?_⟩
  · obtain ⟨ph, hin, hold⟩ := h.phase t l
    refine ⟨ph, hin.congr he, ?_⟩
    rw [hrest]
    by_cases ht : t = k.current
    · subst ht
      rw [Function.update_self]
      exact hfits l ph hin hold
    · rw [Function.update_of_ne ht]
      exact hold
  · rw [he.value, he.owner]
    exact h.value l
  · rw [he.lockList]
    exact h.nodup t
  · rw [hall] at ht
    rw [he.lockList]
    exact h.gone t ht

/-- The same for a thread that is done with an act. -/
theorem LockUse.advance (h : LockUse k) (htodo : k.todo = a :: acts)
    (ha : ∀ l ph ph', a.phase l ph = some ph' → ph' = ph) (he : SameLocks k k')
    (hrest : k'.rest = Function.update k.rest k.current acts) (hall : k'.allList = k.allList) :
    LockUse k' := by
  refine h.setRest he hrest (fun l ph _ hfits => ?_) hall
  rw [htodo] at hfits
  obtain ⟨ph', hph, hfits⟩ := hfits
  rwa [ha l ph ph' hph] at hfits

theorem move_idem {here : Bool} {source ph ph' : Phase} (h : move here source source ph = some ph') :
    ph' = ph := by
  rcases move_eq_some h with ⟨-, h₁, h₂⟩ | ⟨-, h₂⟩
  · exact h₂.trans h₁.symm
  · exact h₂

theorem sameLocks_switchTo : SameLocks k (switchTo k n) := by
  refine ⟨fun l => ?_, rfl, rfl, fun _ => rfl⟩
  show lockOwner l (k.readyList.head?.elim .idle .dispatch :: k.hist) = lockOwner l k.hist
  cases k.readyList with
  | nil => rfl
  | cons m ready => rfl

theorem LockUse.scheduled (h : LockUse k) (hs : schedule k = .ok k') : LockUse k' := by
  obtain ⟨-, n, -, -, rfl⟩ := schedule_iff.mp hs
  exact h.congr sameLocks_switchTo (fun _ _ _ hfits => hfits) fun _ hmem => .inl hmem

/-- An act of a semaphore that is not part of a lock. -/
theorem phase_of_other (hs : ∀ l, s ≠ .ofLock l)
    (ha : a = .down s ∨ a = .retest s ∨ a = .tryDown s ∨ a = .up s) (l : Ptr) (ph : Phase) :
    a.phase l ph = some ph := by
  rcases ha with rfl | rfl | rfl | rfl
  · simp [Act.phase, move, hs l]
  · simp [Act.phase, move, hs l]
  · simp [Act.phase, hs l]
  · simp [Act.phase, move, hs l]

theorem sameLocks_taken (hs : ∀ l, s ≠ .ofLock l) : SameLocks k (taken k s acts) := by
  refine ⟨fun l => ?_, rfl, rfl, fun l => Function.update_of_ne (hs l).symm ..⟩
  show lockOwner l (.down k.current s :: k.hist) = _
  rw [owner_down, if_neg (hs l)]
  rfl

theorem sameLocks_raised (hs : ∀ l, s ≠ .ofLock l) : SameLocks k (raised k s) := by
  refine ⟨fun l => ?_, sameLocks_popWaiter.holder, sameLocks_popWaiter.lockList, fun l => ?_⟩
  · rw [raised_owner, if_neg (hs l)]
  · rw [raised_value]
    exact Function.update_of_ne (hs l).symm ..

/-- A thread other than one with locks ends. -/
theorem LockUse.ended (h : LockUse k) (htodo : k.todo = .releaseLocks :: acts)
    (hl : k.lockList k.current = []) : LockUse (ended k) := by
  refine ⟨fun t l => ?_, h.value, h.nodup, fun t ht => ?_⟩
  · obtain ⟨ph, hin, hfits⟩ := h.phase t l
    refine ⟨ph, hin.congr ⟨fun _ => rfl, rfl, rfl, fun _ => rfl⟩, ?_⟩
    show Fits l (Function.update k.rest k.current [] t) ph
    by_cases ht : t = k.current
    · subst ht
      rw [Function.update_self]
      rw [show k.rest k.current = _ from htodo] at hfits
      obtain ⟨ph', hph, -⟩ := hfits
      unfold Act.phase at hph
      dsimp only at hph
      split at hph
      next hcase => exact hcase
      next => cases hph
    · rw [Function.update_of_ne ht]
      exact hfits
  · have ht' : t ∉ k.allList.erase k.current := ht
    by_cases htc : t = k.current
    · rw [htc]
      exact hl
    · rw [List.mem_erase_of_ne htc] at ht'
      exact h.gone t ht'

/-! ## The functions -/

variable {ph : Phase}

theorem fits_lockAcquire : Fits l (lockAcquire l' ++ acts) ph ↔
    if l' = l then ph = .out ∧ Fits l acts .held else Fits l acts ph := by
  by_cases hl : l' = l
  · by_cases hph : ph = .out
    · simp [lockAcquire, Fits, Act.phase, move, hl, hph]
    · simp [lockAcquire, Fits, Act.phase, move, hl, hph]
  · simp [lockAcquire, Fits, Act.phase, move, hl]

theorem fits_lockRelease : Fits l (lockRelease l' ++ acts) ph ↔
    if l' = l then ph = .held ∧ Fits l acts .out else Fits l acts ph := by
  by_cases hl : l' = l
  · by_cases hph : ph = .held
    · simp [lockRelease, Fits, Act.phase, move, hl, hph]
    · simp [lockRelease, Fits, Act.phase, move, hl, hph]
  · simp [lockRelease, Fits, Act.phase, move, hl]

/-- An act that needs a lock, and leaves it as it is. -/
theorem fits_cons_idem (source : Phase) (here : Bool)
    (ha : ∀ ph, a.phase l ph = move here source source ph) :
    Fits l (a :: acts) ph ↔ (here = true → ph = source) ∧ Fits l acts ph := by
  constructor
  · rintro ⟨ph', hph, hfits⟩
    rw [ha] at hph
    obtain rfl := move_idem hph
    refine ⟨fun hhere => ?_, hfits⟩
    rcases move_eq_some hph with ⟨-, heq, -⟩ | ⟨hno, -⟩
    · exact heq
    · rw [hhere] at hno
      cases hno
  · rintro ⟨hhere, hfits⟩
    refine ⟨ph, ?_, hfits⟩
    rw [ha]
    cases here with
    | true =>
        rw [hhere rfl]
        simp [move]
    | false => rfl

theorem fits_nil : Fits l [] ph ↔ ph = .out ∨ ph = .held := Iff.rfl

/-- `cond_wait` gives the lock back and gets it again. -/
theorem fits_condWait : Fits l (condWait t c l') ph ↔
    if l' = l then ph = .held else ph = .out ∨ ph = .held := by
  have hcode : condWait t c l' = .enqueueWaiter c l' :: (lockRelease l' ++
      (.down (.ofWaiter t) :: (lockAcquire l' ++ []))) := by
    simp [condWait]
  have hdown : ∀ {ph : Phase}, Fits l (.down (.ofWaiter t) :: (lockAcquire l' ++ [])) ph ↔
      Fits l (lockAcquire l' ++ []) ph := by
    intro ph
    rw [fits_cons_idem ph false (by simp [Act.phase, move])]
    simp
  rw [hcode, fits_cons_idem _ _ (fun _ => rfl), fits_lockRelease, hdown, hdown, fits_lockAcquire,
    fits_lockAcquire]
  by_cases hl : l' = l
  · simp [hl, fits_nil]
  · simp [hl, fits_nil]

/-- `thread_create` uses the `tid_lock`. -/
theorem fits_threadCreate : Fits l (threadCreate t) ph ↔
    if tidLock = l then ph = .out else ph = .out ∨ ph = .held := by
  have hcode : threadCreate t = lockAcquire tidLock ++ (.loadTid :: .storeTid ::
      (lockRelease tidLock ++ [.setTid t, .unblock t])) := by
    simp [threadCreate, allocateTid]
  have hlast : ∀ ph, Fits l [.setTid t, .unblock t] ph ↔ ph = .out ∨ ph = .held := by
    intro ph
    rw [fits_cons_idem ph false (by simp [Act.phase, move]),
      fits_cons_idem ph false (by simp [Act.phase, move]), fits_nil]
    simp
  rw [hcode, fits_lockAcquire, fits_cons_idem _ _ (fun _ => rfl), fits_cons_idem _ _ (fun _ => rfl),
    fits_cons_idem _ _ (fun _ => rfl), fits_cons_idem _ _ (fun _ => rfl), fits_lockRelease,
    fits_lockRelease]
  by_cases hl : tidLock = l
  · simp [hl, hlast]
  · simp [hl, hlast]

/-- Every function is called with the locks in the phases that it expects. -/
theorem Call.fits {c : Call} (hc : c.Allowed k) (hin : InPhase k k.current l ph)
    (hph : ph = .out ∨ ph = .held) : Fits l (c.code t) ph := by
  have hplain : ∀ {a : Act}, (∀ ph, a.phase l ph = some ph) → Fits l [a] ph := by
    intro a ha
    exact ⟨ph, ha ph, hph⟩
  -- a lock that is needed is held, one that is acquired is not
  have hneed : ∀ l', k.holder l' = some k.current → l' = l → ph = .held := by
    rintro l' hl' rfl
    rcases hin.holder.mp hl' with rfl | rfl
    · simp at hph
    · rfl
  have hfree : ∀ l', k.holder l' ≠ some k.current → l' = l → ph = .out := by
    rintro l' hl' rfl
    refine hph.resolve_right fun hheld => hl' ?_
    exact hin.holder.mpr (.inr hheld)
  cases c with
  | semaDown p => exact hplain (phase_of_other (by simp) (.inl rfl) l)
  | semaTryDown p => exact hplain (phase_of_other (by simp) (.inr (.inr (.inl rfl))) l)
  | semaUp p => exact hplain (phase_of_other (by simp) (.inr (.inr (.inr rfl))) l)
  | lockAcquire l' =>
      rw [show Call.code t (.lockAcquire l') = Synch.lockAcquire l' ++ [] from rfl,
        fits_lockAcquire]
      split
      next hl => exact ⟨hfree l' hc hl, .inr rfl⟩
      next => exact hph
  | lockRelease l' =>
      rw [show Call.code t (.lockRelease l') = Synch.lockRelease l' ++ [] from rfl,
        fits_lockRelease]
      split
      next hl => exact ⟨hneed l' hc hl, .inl rfl⟩
      next => exact hph
  | condWait c l' =>
      rw [show Call.code t (.condWait c l') = Synch.condWait t c l' from rfl, fits_condWait]
      split
      next hl => exact hneed l' hc hl
      next => exact hph
  | condSignal c l' =>
      refine (fits_cons_idem _ _ fun _ => rfl).mpr ⟨fun hl => hneed l' hc (of_decide_eq_true hl), hph⟩
  | condBroadcast c l' =>
      refine (fits_cons_idem _ _ fun _ => rfl).mpr ⟨fun hl => hneed l' hc (of_decide_eq_true hl), hph⟩
  | threadCreate t' =>
      rw [show Call.code t (.threadCreate t') = Synch.threadCreate t' from rfl, fits_threadCreate]
      split
      next hl => exact hfree tidLock hc.1 hl
      next => exact hph
  | threadYield => exact hplain fun _ => rfl
  | threadExit => exact ⟨.out, if_pos hph, .inl rfl⟩

/-! ## Steps -/

/-- An act keeps the locks in order. -/
theorem LockUse.exec (h : LockUse k) (hs : Settled k p) (htodo : k.todo = a :: acts)
    (he : Exec k acts a k') : LockUse k' := by
  have hlive : k.current ∈ k.allList := by
    rw [hs.queues.all, hs.current]
    decide
  have hrest : k.rest k.current = a :: acts := htodo
  cases he with
  | @sleep s _ _ ha hv hsched =>
      have hsame : SameLocks k (asleep k s acts) := ⟨fun _ => rfl, rfl, rfl, fun _ => rfl⟩
      refine (h.setRest hsame rfl (fun l ph _ hfits => ?_) rfl).scheduled hsched
      rw [htodo] at hfits
      rcases ha with rfl | rfl
      · exact hfits
      · exact hfits
  | @take s _ ha hv =>
      by_cases hl : ∃ l, s = .ofLock l
      · obtain ⟨l, rfl⟩ := hl
        exact h.take hrest ha hv hlive
      · have hs : ∀ l, s ≠ .ofLock l := fun l heq => hl ⟨l, heq⟩
        refine h.advance htodo (fun l ph ph' hph => ?_) (sameLocks_taken hs) rfl rfl
        have hor : a = .down s ∨ a = .retest s ∨ a = .tryDown s ∨ a = .up s := by
          rcases ha with rfl | rfl
          · exact .inl rfl
          · exact .inr (.inl rfl)
        rw [phase_of_other hs hor] at hph
        exact (Option.some.inj hph).symm
  | @tryTake s hv =>
      have hs : ∀ l, s ≠ .ofLock l := by
        rintro l rfl
        obtain ⟨ph, ph', -, hph, -⟩ := h.head hrest l
        simp [Act.phase] at hph
      refine h.advance htodo (fun l ph ph' hph => ?_) (sameLocks_taken hs) rfl rfl
      rw [phase_of_other hs (.inr (.inr (.inl rfl)))] at hph
      exact (Option.some.inj hph).symm
  | @tryFails s hv =>
      have hs : ∀ l, s ≠ .ofLock l := by
        rintro l rfl
        obtain ⟨ph, ph', -, hph, -⟩ := h.head hrest l
        simp [Act.phase] at hph
      refine h.advance htodo (fun l ph ph' hph => ?_) ⟨fun _ => rfl, rfl, rfl, fun _ => rfl⟩ rfl rfl
      rw [phase_of_other hs (.inr (.inr (.inl rfl)))] at hph
      exact (Option.some.inj hph).symm
  | @up s hw =>
      by_cases hl : ∃ l, s = .ofLock l
      · obtain ⟨l, rfl⟩ := hl
        exact h.up hrest hlive
      · have hs : ∀ l, s ≠ .ofLock l := fun l heq => hl ⟨l, heq⟩
        have h₁ : LockUse (k.setRest k.current acts) := by
          refine h.advance htodo (fun l ph ph' hph => ?_) ⟨fun _ => rfl, rfl, rfl, fun _ => rfl⟩ rfl
            rfl
          rw [phase_of_other hs (.inr (.inr (.inr rfl)))] at hph
          exact (Option.some.inj hph).symm
        exact h₁.congr (sameLocks_raised hs)
          (fun t l ph hfits => (popWaiter_rest (k := k.setRest k.current acts)).symm ▸ hfits)
          fun t ht => .inl ((popWaiter_allList (k := k.setRest k.current acts)).symm ▸ ht)
  | checkFree hl =>
      exact h.advance htodo (fun _ _ _ hph => move_idem hph) ⟨fun _ => rfl, rfl, rfl, fun _ => rfl⟩
        rfl rfl
  | setHolder => exact h.setHolder hrest hlive
  | pushLock => exact h.pushLock hrest hlive
  | clearHolder hl => exact h.clearHolder hrest hlive
  | removeLock hl => exact h.removeLock hrest hlive
  | enqueueWaiter hl =>
      refine h.advance htodo (fun _ _ _ hph => move_idem hph) ⟨fun _ => rfl, rfl, rfl, fun l => ?_⟩
        rfl rfl
      show Function.update k.value (.ofWaiter k.current) 0 (.ofLock l) = _
      exact Function.update_of_ne (show Sema.ofLock l ≠ .ofWaiter k.current from nofun) ..
  | signalNone hl hc =>
      exact h.advance htodo (fun _ _ _ hph => move_idem hph) ⟨fun _ => rfl, rfl, rfl, fun _ => rfl⟩
        rfl rfl
  | @signal c l t ts hl hc =>
      refine h.setRest ⟨fun _ => rfl, rfl, rfl, fun _ => rfl⟩ rfl (fun l ph _ hfits => ?_) rfl
      rw [htodo] at hfits
      exact ⟨ph, by simp [Act.phase, move], ((fits_cons_idem _ _ fun _ => rfl).mp hfits).2⟩
  | broadcastEnd hc =>
      exact h.advance htodo (fun _ _ _ hph => move_idem hph) ⟨fun _ => rfl, rfl, rfl, fun _ => rfl⟩
        rfl rfl
  | @broadcast c l hc =>
      refine h.setRest ⟨fun _ => rfl, rfl, rfl, fun _ => rfl⟩ rfl (fun l' ph _ hfits => ?_) rfl
      rw [htodo] at hfits
      exact (fits_cons_idem _ _ fun _ => rfl).mpr ⟨((fits_cons_idem _ _ fun _ => rfl).mp hfits).1, hfits⟩
  | loadTid =>
      exact h.advance htodo (fun _ _ _ hph => move_idem hph) ⟨fun _ => rfl, rfl, rfl, fun _ => rfl⟩
        rfl rfl
  | storeTid ht =>
      exact h.advance htodo (fun _ _ _ hph => move_idem hph) ⟨fun _ => rfl, rfl, rfl, fun _ => rfl⟩
        rfl rfl
  | setTid =>
      exact h.advance htodo (fun _ _ _ hph => (Option.some.inj hph).symm)
        ⟨fun _ => rfl, rfl, rfl, fun _ => rfl⟩ rfl rfl
  | unblock ht =>
      exact h.advance htodo (fun _ _ _ hph => (Option.some.inj hph).symm)
        ⟨fun _ => rfl, rfl, rfl, fun _ => rfl⟩ rfl rfl
  | yield hsched =>
      have hsame : SameLocks k (yielded (k.setRest k.current acts)) ∧
          (yielded (k.setRest k.current acts)).rest = Function.update k.rest k.current acts ∧
          (yielded (k.setRest k.current acts)).allList = k.allList := by
        unfold yielded
        split
        next => exact ⟨⟨fun _ => rfl, rfl, rfl, fun _ => rfl⟩, rfl, rfl⟩
        next => exact ⟨⟨fun _ => rfl, rfl, rfl, fun _ => rfl⟩, rfl, rfl⟩
      exact (h.advance htodo (fun _ _ _ hph => (Option.some.inj hph).symm) hsame.1 hsame.2.1
        hsame.2.2).scheduled hsched
  | finish hl hsched => exact (h.ended htodo hl).scheduled hsched
  | releaseLock hl hmem hw => exact h.releaseLock hrest hl hlive
  | setIdle =>
      exact h.advance htodo (fun _ _ _ hph => (Option.some.inj hph).symm)
        ⟨fun _ => rfl, rfl, rfl, fun _ => rfl⟩ rfl rfl
  | idleBlock hsched =>
      have hsame : SameLocks k ((k.setRest k.current [.halt]).setStatus k.current
          (some .blocked)) := ⟨fun _ => rfl, rfl, rfl, fun _ => rfl⟩
      refine (h.setRest hsame rfl (fun l ph _ hfits => ?_) rfl).scheduled hsched
      obtain ⟨-, -, rfl⟩ := hs.queues.idle.of_idleBlock hrest
      rw [htodo] at hfits
      exact hfits

theorem LockUse.leaveHalt (h : LockUse k) : LockUse (leaveHalt k) := by
  unfold Synch.leaveHalt
  split
  next htodo =>
    refine h.setRest ⟨fun _ => rfl, rfl, rfl, fun _ => rfl⟩ rfl (fun l ph _ hfits => ?_) rfl
    rw [htodo] at hfits
    exact hfits
  next => exact h

theorem LockUse.ticked (h : LockUse k) : LockUse (ticked k) := by
  have hsame : SameLocks k (Synch.ticked k) := by
    unfold Synch.ticked countTick
    split
    next => exact ⟨fun _ => rfl, rfl, rfl, fun _ => rfl⟩
    next =>
      split
      next => exact ⟨fun _ => rfl, rfl, rfl, fun _ => rfl⟩
      next => exact ⟨fun _ => rfl, rfl, rfl, fun _ => rfl⟩
  refine h.congr hsame (fun t l ph hfits => ?_) fun t ht => .inl ?_
  · rw [same_ticked.rest]
    exact hfits
  · rw [same_ticked.allList]
    exact ht

theorem LockUse.yielded (h : LockUse k) : LockUse (yielded k) := by
  unfold Synch.yielded
  split
  next =>
    exact h.congr ⟨fun _ => rfl, rfl, rfl, fun _ => rfl⟩ (fun _ _ _ hfits => hfits)
      fun _ ht => .inl ht
  next =>
    exact h.congr ⟨fun _ => rfl, rfl, rfl, fun _ => rfl⟩ (fun _ _ _ hfits => hfits)
      fun _ ht => .inl ht

/-- A function is called. -/
theorem LockUse.begin (h : LockUse k) (hs : Settled k p) {c : Call} (hc : c.Allowed k)
    (hidle : k.todo = []) : LockUse (begin k c) := by
  have hfits : ∀ l ph, InPhase k k.current l ph → Fits l k.todo ph →
      Fits l (c.code k.current) ph := by
    intro l ph hin hfits
    rw [hidle] at hfits
    exact Call.fits hc hin hfits
  cases c with
  | threadCreate t =>
      -- the page of the new thread has been without locks, and without anything to do
      have ht : k.status t = none := hc.2
      have hnot : t ∉ k.allList := by
        rw [hs.queues.all, ht]
        exact fun hno => hno.1 rfl
      have hlist : Function.update k.lockList t [] = k.lockList := by
        rw [← h.gone t hnot, Function.update_eq_self]
      have hnil : k.rest t = [] := by
        by_contra hrest
        exact (hs.queues.alive t hrest).1 ht
      have hrest : Function.update k.rest t [] = k.rest := by
        rw [← hnil, Function.update_eq_self]
      have h₁ : LockUse (initThread k t) := by
        refine h.congr ⟨fun _ => rfl, rfl, hlist, fun _ => rfl⟩ (fun u l ph hfits => ?_)
          fun u hu => .inl (List.mem_append_left _ hu)
        show Fits l (Function.update k.rest t [] u) ph
        rw [hrest]
        exact hfits
      refine h₁.setRest ⟨fun _ => rfl, rfl, rfl, fun _ => rfl⟩ rfl (fun l ph hin hold => ?_) rfl
      refine hfits l ph ⟨hin.owner, hin.holder, ?_⟩ ?_
      · rw [← hin.listed]
        show _ ↔ l ∈ Function.update k.lockList t [] k.current
        rw [hlist]
      · have hold' : Fits l (Function.update k.rest t [] k.current) ph := hold
        rw [hrest] at hold'
        exact hold'
  | _ => exact h.setRest ⟨fun _ => rfl, rfl, rfl, fun _ => rfl⟩ rfl hfits rfl

/-- A step keeps the locks in order. -/
theorem LockUse.step (h : LockUse k) (hs : Settled k p) {b : Label} (hstep : Step k b k') :
    LockUse k' := by
  obtain ⟨-, hhappens⟩ := step_cases hstep
  cases hhappens with
  | call hc hidle => exact h.begin hs hc hidle
  | exec htodo he => exact h.exec hs htodo he
  | tick hon ht => exact h.leaveHalt.ticked
  | slice hon ht hsched => exact h.leaveHalt.ticked.yielded.scheduled hsched
  | device hon hw =>
      have h₁ := h.leaveHalt
      exact h₁.congr (sameLocks_raised nofun) (fun t l ph hfits => popWaiter_rest.symm ▸ hfits)
        fun t ht => .inl (popWaiter_allList.symm ▸ ht)
  | setPagedir hidle =>
      exact h.congr ⟨fun _ => rfl, rfl, rfl, fun _ => rfl⟩ (fun _ _ _ hfits => hfits)
        fun _ ht => .inl ht

theorem lockUse_boot {listed : Bool} {main started : Ptr} {value : Ptr → ℕ} :
    LockUse (boot listed main p started value) := by
  refine ⟨fun t l => ⟨.out, ⟨?_, ?_, ?_⟩, ?_⟩, fun l => rfl, fun t => List.nodup_nil,
    fun t _ => rfl⟩
  · exact iff_of_false nofun (not_not.mpr rfl)
  · exact iff_of_false nofun (by simp)
  · exact iff_of_false List.not_mem_nil (by simp)
  · rw [boot_rest]
    split
    next => simp [idle, Fits, Act.phase, move]
    next =>
      split
      next => simp [Fits, Act.phase, move]
      next => exact .inl rfl

theorem Reachable.lockUse (h : Reachable k) : ∃ p, Settled k p ∧ LockUse k := by
  obtain ⟨k₀, ⟨listed, main, p, started, value, hne, rfl⟩, hreach⟩ := h
  refine ⟨p, hreach.invariant (P := fun k => Settled k p ∧ LockUse k)
    (fun _ _ _ hs hk => ⟨hk.1.step hs, hk.2.step hk.1 hs⟩) ⟨settled_boot hne, lockUse_boot⟩⟩

end Pintos.Synch
