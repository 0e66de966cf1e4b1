import Pintos.Locks.LockList
import Pintos.Locks.ReleaseLocks

/-! # `release_locks` without the waiters

`LockList` has the lists of locks and no others. What `release_locks` does there is what
it does with the waiters: the nodes of locks are some of the nodes, and `sema_up` changes
only others.
-/

namespace Pintos.ReleaseLocks

open Intrusive
open Vm (Tid Ptr deref)

variable {s s' s₁ : State} {P : ListName → Prop} {xs : ListName → List Elem} {ls rest : List Ptr}
  {l : Ptr}

/-! ## The nodes of locks -/

/-- The nodes of the lists of locks. -/
def lockNode : Node Tid Ptr → ListNode
  | .head t => .head (.lockList t)
  | .tail t => .tail (.lockList t)
  | .elem l => .elem (.lock l)

def asLockNode : ListNode → Option (Node Tid Ptr)
  | .head (.lockList t) => some (.head t)
  | .tail (.lockList t) => some (.tail t)
  | .elem (.lock l) => some (.elem l)
  | _ => none

/-- The state as `LockList` has it. -/
def State.locks (s : State) : LockList.State where
  holder := s.holder
  value := fun l => (s.value l).toNat
  links := s.links.restrict lockNode asLockNode

theorem isPartialInv_lockNode : Function.IsPartialInv lockNode asLockNode := by
  intro m n
  constructor
  · intro h
    cases n with
    | head name => cases name with
      | lockList t => exact congrArg lockNode (Option.some.inj h).symm
      | _ => cases h
    | tail name => cases name with
      | lockList t => exact congrArg lockNode (Option.some.inj h).symm
      | _ => cases h
    | elem e => cases e with
      | lock l => exact congrArg lockNode (Option.some.inj h).symm
      | _ => cases h
  · rintro rfl
    cases m with
    | _ => rfl

theorem lockNode_notMem {n : ListName} (hn : ∀ t, n ≠ .lockList t)
    (hxs : ∀ l, Elem.lock l ∉ xs n) (m : Node Tid Ptr) : lockNode m ∉ nodesOf xs n := by
  intro hmem
  cases m with
  | head t =>
      rcases mem_nodesOf.mp hmem with heq | ⟨e, -, hno⟩ | hno
      · exact hn t (Node.head.inj heq).symm
      · cases hno
      · cases hno
  | tail t =>
      rcases mem_nodesOf.mp hmem with hno | ⟨e, -, hno⟩ | heq
      · cases hno
      · cases hno
      · exact hn t (Node.tail.inj heq).symm
  | elem l =>
      rcases mem_nodesOf.mp hmem with hno | ⟨e, he, heq⟩ | hno
      · cases hno
      · exact hxs l (Node.elem.inj heq ▸ he)
      · cases hno

/-- The locks of a thread are in its list there, too. -/
theorem Holding.locks_isList (h : Holding s P xs ls) :
    IsList s.locks.links (LockList.lockList s.current) (ls.map .elem) := by
  have hlist := h.family.list _ h.lockList
  rw [h.locks] at hlist
  have hmap : (ls.map Elem.lock).map Node.elem = (ls.map Node.elem).map lockNode := by
    rw [List.map_map, List.map_map]
    rfl
  rw [hmap] at hlist
  exact IsList.restrict isPartialInv_lockNode hlist

/-! ## Rounds -/

/-- A round is one of the loop there. -/
theorem Holding.round_locks (h : Holding s P xs (l :: rest))
    (hready : ∀ m, Elem.lock m ∉ xs .readyList) (hvalue : (s.value l).toNat + 1 < 2 ^ 32)
    (hrelease : lockRelease s l = .ok s₁) :
    LockList.lockRelease s.locks s.current l = some s₁.locks ∧
      s₁.locks.unlink l = some s₁.locks := by
  obtain ⟨k₁, s₂, hremove, hrelease', hoff, hr⟩ := h.release
  obtain rfl := Except.ok.inj (hrelease'.symm.trans hrelease)
  have hfirst : IsList s.locks.links (LockList.lockList s.current)
      ([] ++ .elem l :: rest.map .elem) := h.locks_isList
  obtain ⟨k, hk, -, -, hagain⟩ := hfirst.remove
  -- the other nodes that change are not those of locks
  have hlinks : s₂.locks.links = k := by
    refine (restrict_of_sameOff hoff fun m hmem => ?_).trans
      (listRemove_restrict isPartialInv_lockNode hk hremove)
    rcases List.mem_append.mp hmem with hmem | hmem
    · refine lockNode_notMem (by simp) (fun m hm => ?_) m hmem
      obtain ⟨t, hno, -⟩ := h.blocked l List.mem_cons_self _ hm
      cases hno
    · exact lockNode_notMem (by simp) hready m hmem
  have hunlink : s₂.locks.unlink l = some s₂.locks := by
    unfold LockList.State.unlink
    rw [hlinks, hagain, Option.map_some, ← hlinks]
  refine ⟨?_, hunlink⟩
  have hheld : s.locks.holder l = some s.current := h.held l List.mem_cons_self
  unfold LockList.lockRelease LockList.State.unlink
  rw [if_pos hheld]
  dsimp only
  rw [hk, ← hlinks]
  have hholder : s₂.locks.holder = Function.update s.locks.holder l none :=
    funext fun m => (hr.holder m).trans (update_eq_ite s.holder (fun _ => none) m).symm
  have hval : s₂.locks.value = Function.update s.locks.value l (s.locks.value l + 1) := by
    funext m
    refine Eq.trans ?_ (update_eq_ite s.locks.value (fun m => s.locks.value m + 1) m).symm
    show (s₂.value m).toNat = if m ∈ [l] then (s.value m).toNat + 1 else (s.value m).toNat
    rw [hr.value]
    by_cases hm : m ∈ [l]
    · obtain rfl := List.mem_singleton.mp hm
      rw [if_pos hm, if_pos hm, UInt32.toNat_add]
      exact Nat.mod_eq_of_lt hvalue
    · rw [if_neg hm, if_neg hm]
  rw [← hholder]
  exact congrArg (fun v => some { s₂.locks with value := v }) hval.symm

theorem Holding.ready_released (h : Holding s P xs (l :: rest))
    (hready : ∀ m, Elem.lock m ∉ xs .readyList) (m : Ptr) :
    Elem.lock m ∉ releasedLists xs s.current [l] rest .readyList := by
  intro hmem
  rcases List.mem_append.mp hmem with hmem | hmem
  · exact hready m hmem
  · obtain ⟨l', hl', hwaits⟩ := mem_firstWaiters hmem
    obtain rfl := List.mem_singleton.mp hl'
    obtain ⟨t, hno, -⟩ := h.blocked l' List.mem_cons_self _ hwaits
    cases hno

theorem Holding.locks_first {e : Node Tid Ptr} (h : Holding s P xs ls)
    (he : s.links.next (.head (.lockList s.current)) = some (lockNode e)) :
    (ls.map Node.elem ++ [Node.tail s.current]).head? = some e := by
  have he' : s.locks.links.next (.head s.current) = some e := by
    show (s.links.next (.head (.lockList s.current))).bind asLockNode = some e
    rw [he]
    exact isPartialInv_lockNode.eq e
  exact h.locks_isList.segment.next_eq.symm.trans he'

/-- The loop is the one there. -/
theorem Holding.loop_locks {rounds : ℕ} {e : Node Tid Ptr} (h : Holding s P xs ls)
    (hready : ∀ m, Elem.lock m ∉ xs .readyList)
    (hvalue : ∀ l ∈ ls, (s.value l).toNat + 1 < 2 ^ 32)
    (he : s.links.next (.head (.lockList s.current)) = some (lockNode e))
    (hrun : releaseLoop s.current rounds (lockNode e) s = .ok s') :
    LockList.releaseLoop s.current rounds e s.locks = some s'.locks := by
  induction ls generalizing s xs e rounds with
  | nil =>
      obtain rfl := Option.some.inj (h.locks_first he)
      obtain _ | rounds := rounds
      · cases hrun
      obtain rfl := Except.ok.inj (releaseLoop_tail.symm.trans hrun)
      unfold LockList.releaseLoop
      exact if_pos rfl
  | cons l rest ih =>
      obtain rfl := Option.some.inj (h.locks_first he)
      obtain _ | rounds := rounds
      · cases hrun
      obtain ⟨s₁, hrelease, hunlink, hr⟩ := h.round
      obtain ⟨hrelease', hunlink'⟩ := h.round_locks hready (hvalue l List.mem_cons_self) hrelease
      obtain ⟨e', -, hnext'⟩ := h.locks_isList.segment.2.next
      obtain ⟨next, hnext, has⟩ := Option.bind_eq_some_iff.mp hnext'
      obtain rfl := (isPartialInv_lockNode e' next).mp has
      have hrest := (releaseLoop_lock hnext hrelease hunlink).symm.trans hrun
      rw [← hr.current] at hrest
      have hloop := ih (hr.holding h) (h.ready_released hready) (fun m hm => ?_)
        (hr.next_first h hnext) hrest
      · rw [hr.current] at hloop
        unfold LockList.releaseLoop
        rw [if_neg (by simp [LockList.lockList, listOf])]
        show (s.locks.links.next (.elem l) >>= _) = _
        rw [hnext']
        show (LockList.lockRelease s.locks s.current l >>= _) = _
        rw [hrelease']
        show (s₁.locks.unlink l >>= _) = _
        rw [hunlink']
        exact hloop
      · have hl : m ∉ [l] := by
          intro hmem
          obtain rfl := List.mem_singleton.mp hmem
          exact (List.nodup_cons.mp h.nodup).1 hm
        rw [hr.value, if_neg hl]
        exact hvalue m (List.mem_cons_of_mem l hm)

/-- The model without waiters releases the same locks. -/
theorem release_locks_refines {rounds : ℕ} (h : Holding s P xs ls)
    (hready : ∀ m, Elem.lock m ∉ xs .readyList)
    (hvalue : ∀ l ∈ ls, (s.value l).toNat + 1 < 2 ^ 32)
    (hrun : releaseLocks rounds s = .ok s') :
    LockList.releaseLocks rounds s.locks s.current = some s'.locks := by
  obtain ⟨e, -, he'⟩ := h.locks_isList.segment.next
  obtain ⟨x, he, has⟩ := Option.bind_eq_some_iff.mp he'
  obtain rfl := (isPartialInv_lockNode e x).mp has
  have hloop : releaseLoop s.current rounds (lockNode e) s = .ok s' := by
    unfold releaseLocks at hrun
    rw [threadCurrent_ok h.running] at hrun
    have hbegin : (deref (s.links.next (.head (.lockList s.current))) >>= fun e =>
        releaseLoop s.current rounds e s) = .ok s' := hrun
    have hfirst : s.links.next (.head (.lockList s.current)) = some (lockNode e) := he
    rw [hfirst] at hbegin
    exact hbegin
  unfold LockList.releaseLocks
  rw [he']
  exact h.loop_locks hready hvalue he hloop

end Pintos.ReleaseLocks
