import Pintos.Synch.Exclusion

/-! # Thread identifiers

`allocate_tid` reads `next_tid`, and increments it, between the acquisition and
the release of `tid_lock`; the new thread gets its `tid` later, and other threads
can be in `thread_create` at the same time. No two threads get the same one.
-/

namespace Pintos.Synch

open Threads (ThreadStatus)

variable {k k' : Kernel} {p t u v : Ptr} {s : Sema} {a : Act} {acts r : List Act} {e : Event}
  {n : ℕ}

/-- How far a thread is in `thread_create`: it has read `next_tid` (`loaded`), it has
incremented it (`drawn`), it has set the member `tid` of the new thread (`named`). -/
inductive Stage where
  | out
  | loaded
  | drawn
  | named (t : Ptr)
deriving DecidableEq, Repr

/-- The stage after an act, if the act fits the stage. -/
def Act.stage : Act → Stage → Option Stage
  | .loadTid, st => if st = .out then some .loaded else none
  | .storeTid, st => if st = .loaded then some .drawn else none
  | .setTid t, st => if st = .drawn then some (.named t) else none
  | .unblock t, st => if st = .named t then some .out else none
  | _, st => if st = .out ∨ st = .drawn then some st else none

/-- The acts lead from the stage to the end of the function. -/
def Finishes : List Act → Stage → Prop
  | [], st => st = .out
  | a :: acts, st => ∃ st', a.stage st = some st' ∧ Finishes acts st'

/-- The `tid` that an event gives to a thread. -/
def Event.tid : Event → Option ℕ
  | .named _ n => some n
  | _ => none

/-- The identifiers given so far. -/
def Kernel.tids (k : Kernel) : List ℕ := k.hist.filterMap Event.tid

/-- What a stage says about the local variable `tid` in `allocate_tid`. -/
def Draws (k : Kernel) (t : Ptr) : Stage → Prop
  | .loaded => k.newTid t = k.nextTid
  | .drawn => k.newTid t < k.nextTid ∧ 0 < k.newTid t ∧ k.newTid t ∉ k.tids
  | _ => True

/-- The identifiers are given one after the other. -/
structure Tids (k : Kernel) : Prop where
  stage : ∀ t, ∃ st, Finishes (k.rest t) st ∧ Draws k t st
  drawn : ∀ t u, Finishes (k.rest t) .drawn → Finishes (k.rest u) .drawn →
    k.newTid t = k.newTid u → t = u
  positive : 0 < k.nextTid
  bound : ∀ n ∈ k.tids, n < k.nextTid
  nodup : k.tids.Nodup
  given : ∀ t, k.tid t ≠ 0 → .named t (k.tid t) ∈ k.hist
  unnamed : ∀ t ∈ k.allList, k.tid t = 0 → ∃ u, .setTid t ∈ k.rest u

/-! ## Stages -/

theorem Finishes.unique {st st' : Stage} (h : Finishes acts st) (h' : Finishes acts st') :
    st = st' := by
  induction acts generalizing st st' with
  | nil => exact h.trans h'.symm
  | cons a acts ih =>
      obtain ⟨st₁, h₁, hacts⟩ := h
      obtain ⟨st₂, h₂, hacts'⟩ := h'
      obtain rfl := ih hacts hacts'
      have hkeep : ∀ x y : Stage, (if x = .out ∨ x = .drawn then some x else none) = some y →
          x = y := by
        intro x y hxy
        split at hxy
        next => exact Option.some.inj hxy
        next => cases hxy
      have hfrom : ∀ x y z w : Stage, (if x = y then some z else none) = some w → x = y := by
        intro x y z w hxy
        split at hxy
        next hx => exact hx
        next => cases hxy
      cases a with
      | loadTid => exact (hfrom _ _ _ _ h₁).trans (hfrom _ _ _ _ h₂).symm
      | storeTid => exact (hfrom _ _ _ _ h₁).trans (hfrom _ _ _ _ h₂).symm
      | setTid t => exact (hfrom _ _ _ _ h₁).trans (hfrom _ _ _ _ h₂).symm
      | unblock t => exact (hfrom _ _ _ _ h₁).trans (hfrom _ _ _ _ h₂).symm
      | _ => exact (hkeep _ _ h₁).trans (hkeep _ _ h₂).symm

/-- A thread that is going to set the `tid` of a new thread is also going to unblock it. -/
theorem Finishes.unblocks {st : Stage} (h : Finishes acts st) (hmem : .setTid t ∈ acts) :
    .unblock t ∈ acts := by
  induction acts generalizing st with
  | nil => cases hmem
  | cons a acts ih =>
      obtain ⟨st', hst, hacts⟩ := h
      rcases List.mem_cons.mp hmem with rfl | hmem
      · dsimp only [Act.stage] at hst
        split at hst
        next =>
          obtain rfl := Option.some.inj hst
          cases acts with
          | nil => cases hacts
          | cons b acts =>
              obtain ⟨st'', hb, -⟩ := hacts
              cases b with
              | unblock u =>
                  dsimp only [Act.stage] at hb
                  split at hb
                  next heq =>
                    obtain rfl := Stage.named.inj heq
                    exact List.mem_cons_of_mem _ List.mem_cons_self
                  next => cases hb
              | _ => cases hb
        next => cases hst
      · exact List.mem_cons_of_mem _ (ih hacts hmem)

/-- A thread that has read `next_tid` is going to increment it. -/
theorem Finishes.loaded (h : Finishes acts .loaded) : ∃ r, acts = .storeTid :: r := by
  cases acts with
  | nil => cases h
  | cons a acts =>
      obtain ⟨st', hst, -⟩ := h
      cases a with
      | storeTid => exact ⟨acts, rfl⟩
      | _ => cases hst

/-- The other acts come before or behind those of `allocate_tid`. -/
theorem stage_same {st st' : Stage}
    (h : (if st = .out ∨ st = .drawn then some st else none) = some st') :
    (st = .out ∨ st = .drawn) ∧ st = st' := by
  split at h
  next hor => exact ⟨hor, Option.some.inj h⟩
  next => cases h

/-- The stage that an act demands. -/
theorem stage_source {st st' x y : Stage} (h : (if st = x then some y else none) = some st') :
    st = x ∧ st' = y := by
  split at h
  next hst => exact ⟨hst, (Option.some.inj h).symm⟩
  next => cases h

/-! ## What the acts do -/

/-- Identifiers are neither drawn nor given; a thread may be done with `thread_create`. -/
theorem Tids.congr (h : Tids k) (hnew : k'.newTid = k.newTid) (hnext : k'.nextTid = k.nextTid)
    (htid : k'.tid = k.tid) (htids : k'.tids = k.tids) (hhist : k.hist ⊆ k'.hist)
    (hall : k'.allList ⊆ k.allList)
    (hcode : ∀ t st, Finishes (k.rest t) st →
      Finishes (k'.rest t) st ∨ Finishes (k'.rest t) .out)
    (hset : ∀ t u, .setTid t ∈ k.rest u → .setTid t ∈ k'.rest u) : Tids k' := by
  refine ⟨fun t => ?_, fun t u ht hu heq => ?_, ?_, fun n hn => ?_, ?_, fun t ht => ?_,
    fun t ht hzero => ?_⟩
  · obtain ⟨st, hfin, hdraws⟩ := h.stage t
    rcases hcode t st hfin with hfin' | hout
    · refine ⟨st, hfin', ?_⟩
      cases st with
      | loaded =>
          show k'.newTid t = k'.nextTid
          rw [hnew, hnext]
          exact hdraws
      | drawn =>
          show k'.newTid t < k'.nextTid ∧ 0 < k'.newTid t ∧ k'.newTid t ∉ k'.tids
          rw [hnew, hnext, htids]
          exact hdraws
      | _ => trivial
    · exact ⟨.out, hout, trivial⟩
  · have hdrawn : ∀ t, Finishes (k'.rest t) .drawn → Finishes (k.rest t) .drawn := by
      intro t ht
      obtain ⟨st, hfin, -⟩ := h.stage t
      rcases hcode t st hfin with hfin' | hout
      · exact hfin'.unique ht ▸ hfin
      · exact nomatch hout.unique ht
    rw [hnew] at heq
    exact h.drawn t u (hdrawn t ht) (hdrawn u hu) heq
  · rw [hnext]
    exact h.positive
  · rw [htids] at hn
    rw [hnext]
    exact h.bound n hn
  · rw [htids]
    exact h.nodup
  · rw [htid] at ht ⊢
    exact hhist (h.given t ht)
  · rw [htid] at hzero
    obtain ⟨u, hu⟩ := h.unnamed t (hall ht) hzero
    exact ⟨u, hset t u hu⟩

/-- The same with the acts of all threads as they were. -/
theorem Tids.same (h : Tids k) (hnew : k'.newTid = k.newTid) (hnext : k'.nextTid = k.nextTid)
    (htid : k'.tid = k.tid) (htids : k'.tids = k.tids) (hhist : k.hist ⊆ k'.hist)
    (hall : k'.allList ⊆ k.allList) (hrest : k'.rest = k.rest) : Tids k' := by
  refine h.congr hnew hnext htid htids hhist hall (fun t st hfin => .inl ?_) fun t u hmem => ?_
  · rw [hrest]
    exact hfin
  · rw [hrest]
    exact hmem

/-- The running thread gets something else to do. -/
theorem Tids.setRest (h : Tids k)
    (hcode : ∀ st, Finishes k.todo st → Finishes r st ∨ Finishes r .out)
    (hset : ∀ t, .setTid t ∈ k.todo → .setTid t ∈ r) : Tids (k.setRest k.current r) := by
  refine h.congr rfl rfl rfl rfl (List.Subset.refl _) (List.Subset.refl _) (fun t st hfin => ?_)
    fun t u hmem => ?_
  · show Finishes (Function.update k.rest k.current r t) st ∨
      Finishes (Function.update k.rest k.current r t) .out
    by_cases ht : t = k.current
    · subst ht
      rw [Function.update_self]
      exact hcode st hfin
    · rw [Function.update_of_ne ht]
      exact .inl hfin
  · show _ ∈ Function.update k.rest k.current r u
    by_cases hu : u = k.current
    · subst hu
      rw [Function.update_self]
      exact hset t hmem
    · rw [Function.update_of_ne hu]
      exact hmem

theorem mem_acts_of_ne {b : Act} (htodo : k.todo = a :: acts) (hb : b ≠ a) (hmem : b ∈ k.todo) :
    b ∈ acts := by
  rw [htodo] at hmem
  exact (List.mem_cons.mp hmem).resolve_left hb

/-- The running thread is done with an act that is not one of `allocate_tid`. -/
theorem Tids.advance (h : Tids k) (htodo : k.todo = a :: acts)
    (hplain : ∀ st st', a.stage st = some st' → (st = .out ∨ st = .drawn) ∧ st = st')
    (ha : ∀ t, .setTid t ≠ a) :
    Tids (k.setRest k.current acts) := by
  refine h.setRest (fun st hfin => ?_) fun t hmem => mem_acts_of_ne htodo (ha t) hmem
  rw [htodo] at hfin
  obtain ⟨st', hst, hacts⟩ := hfin
  rw [(hplain st st' hst).2]
  exact .inl hacts

/-- The stage of the running thread. -/
theorem Tids.head (h : Tids k) (htodo : k.todo = a :: acts) :
    ∃ st st', Finishes (k.rest k.current) st ∧ Draws k k.current st ∧ a.stage st = some st' ∧
      Finishes acts st' := by
  obtain ⟨st, hfin, hdraws⟩ := h.stage k.current
  have hfin' := hfin
  rw [show k.rest k.current = _ from htodo] at hfin'
  obtain ⟨st', hst, hacts⟩ := hfin'
  exact ⟨st, st', hfin, hdraws, hst, hacts⟩

/-- The running thread keeps what it has to set. -/
theorem setTid_update (htodo : k.todo = a :: acts) (ha : .setTid t ≠ a)
    (hmem : .setTid t ∈ k.rest u) : .setTid t ∈ Function.update k.rest k.current acts u := by
  by_cases hu : u = k.current
  · subst hu
    rw [Function.update_self]
    exact mem_acts_of_ne htodo ha hmem
  · rw [Function.update_of_ne hu]
    exact hmem

/-- The other threads keep their stage. -/
theorem drawn_update (hcur : ¬ Finishes acts .drawn)
    (h : Finishes (Function.update k.rest k.current acts t) .drawn) :
    t ≠ k.current ∧ Finishes (k.rest t) .drawn := by
  by_cases htc : t = k.current
  · subst htc
    rw [Function.update_self] at h
    exact absurd h hcur
  · rw [Function.update_of_ne htc] at h
    exact ⟨htc, h⟩

/-- `next_tid` is read. -/
theorem Tids.loadTid (h : Tids k) (htodo : k.todo = .loadTid :: acts) :
    Tids ({ k with newTid := Function.update k.newTid k.current k.nextTid }.setRest
      k.current acts) := by
  obtain ⟨st, st', hfin, -, hst, hacts⟩ := h.head htodo
  obtain ⟨rfl, rfl⟩ := stage_source hst
  have hcur : ¬ Finishes acts .drawn := fun hdrawn => nomatch hacts.unique hdrawn
  have hnew : ∀ t, t ≠ k.current →
      Function.update k.newTid k.current k.nextTid t = k.newTid t :=
    fun t ht => Function.update_of_ne ht ..
  refine ⟨fun t => ?_, fun t u ht hu heq => ?_, h.positive, h.bound, h.nodup, h.given,
    fun t ht hzero => ?_⟩
  · show ∃ st, Finishes (Function.update k.rest k.current acts t) st ∧ _
    by_cases ht : t = k.current
    · subst ht
      rw [Function.update_self]
      exact ⟨.loaded, hacts, Function.update_self ..⟩
    · obtain ⟨st, hfin, hdraws⟩ := h.stage t
      rw [Function.update_of_ne ht]
      refine ⟨st, hfin, ?_⟩
      cases st with
      | loaded => exact (hnew t ht).trans hdraws
      | drawn =>
          show Function.update k.newTid _ _ t < _ ∧ 0 < Function.update k.newTid _ _ t ∧
            Function.update k.newTid _ _ t ∉ _
          rw [hnew t ht]
          exact hdraws
      | _ => trivial
  · obtain ⟨htc, ht⟩ := drawn_update hcur ht
    obtain ⟨huc, hu⟩ := drawn_update hcur hu
    have heq' : Function.update k.newTid k.current k.nextTid t =
        Function.update k.newTid k.current k.nextTid u := heq
    rw [hnew t htc, hnew u huc] at heq'
    exact h.drawn t u ht hu heq'
  · obtain ⟨u, hu⟩ := h.unnamed t ht hzero
    exact ⟨u, setTid_update htodo nofun hu⟩

/-- `next_tid` is incremented: no other thread has read it. -/
theorem Tids.storeTid (h : Tids k) (hu : LockUse k) (htodo : k.todo = .storeTid :: acts) :
    Tids ({ k with nextTid := k.newTid k.current + 1 }.setRest k.current acts) := by
  obtain ⟨st, st', hfin, hdraws, hst, hacts⟩ := h.head htodo
  obtain ⟨rfl, rfl⟩ := stage_source hst
  have hload : k.newTid k.current = k.nextTid := hdraws
  have hlt : ∀ t, Finishes (k.rest t) .drawn → k.newTid t < k.nextTid := by
    intro t ht
    obtain ⟨st, hfin, hdraws⟩ := h.stage t
    obtain rfl := hfin.unique ht
    exact hdraws.1
  refine ⟨fun t => ?_, fun t u ht hu heq => ?_, Nat.succ_pos _, fun n hn => ?_, h.nodup, h.given,
    fun t ht hzero => ?_⟩
  · show ∃ st, Finishes (Function.update k.rest k.current acts t) st ∧ _
    by_cases ht : t = k.current
    · subst ht
      rw [Function.update_self]
      refine ⟨.drawn, hacts, Nat.lt_succ_self _, ?_, fun hmem => ?_⟩
      · show 0 < k.newTid k.current
        rw [hload]
        exact h.positive
      · have hbound := h.bound _ hmem
        exact absurd hload (Nat.ne_of_lt hbound)
    · obtain ⟨st, hfin, hdraws⟩ := h.stage t
      rw [Function.update_of_ne ht]
      refine ⟨st, hfin, ?_⟩
      cases st with
      | loaded =>
          obtain ⟨r, hr⟩ := hfin.loaded
          have hmine : k.owner tidLock = some k.current :=
            hu.owner_of_needs htodo (.inr (.inr (.inr (.inr (.inr (.inr (.inr (.inr
              ⟨.inr rfl, rfl⟩))))))))
          have htheirs : k.owner tidLock = some t :=
            hu.owner_of_needs hr (.inr (.inr (.inr (.inr (.inr (.inr (.inr (.inr
              ⟨.inr rfl, rfl⟩))))))))
          rw [hmine] at htheirs
          exact absurd (Option.some.inj htheirs).symm ht
      | drawn =>
          obtain ⟨hlt, hpos, hno⟩ := hdraws
          refine ⟨?_, hpos, hno⟩
          show k.newTid t < k.newTid k.current + 1
          omega
      | _ => trivial
  · have heq' : k.newTid t = k.newTid u := heq
    have hcases : ∀ t, Finishes (Function.update k.rest k.current acts t) .drawn →
        t = k.current ∨ k.newTid t < k.nextTid := by
      intro t ht
      by_cases htc : t = k.current
      · exact .inl htc
      · rw [Function.update_of_ne htc] at ht
        exact .inr (hlt t ht)
    by_cases htc : t = k.current
    · rcases hcases u hu with huc | hult
      · exact htc.trans huc.symm
      · rw [← heq', htc, hload] at hult
        exact absurd hult (Nat.lt_irrefl _)
    · rcases hcases u hu with huc | hult
      · have htlt := (hcases t ht).resolve_left htc
        rw [heq', huc, hload] at htlt
        exact absurd htlt (Nat.lt_irrefl _)
      · have huc : u ≠ k.current := by
          rintro rfl
          rw [hload] at hult
          exact Nat.lt_irrefl _ hult
        have ht' : Finishes (Function.update k.rest k.current acts t) .drawn := ht
        have hu' : Finishes (Function.update k.rest k.current acts u) .drawn := hu
        rw [Function.update_of_ne htc] at ht'
        rw [Function.update_of_ne huc] at hu'
        exact h.drawn t u ht' hu' heq'
  · have hbound := h.bound n hn
    show n < k.newTid k.current + 1
    omega
  · obtain ⟨u, hu⟩ := h.unnamed t ht hzero
    exact ⟨u, setTid_update htodo nofun hu⟩

/-- The new thread gets its `tid`. -/
theorem Tids.setTid (h : Tids k) (htodo : k.todo = .setTid v :: acts) :
    Tids (({ k with tid := Function.update k.tid v (k.newTid k.current) }.setRest
      k.current acts).log (.named v (k.newTid k.current))) := by
  obtain ⟨st, st', hfin, hdraws, hst, hacts⟩ := h.head htodo
  obtain ⟨rfl, rfl⟩ := stage_source hst
  obtain ⟨hlt, hpos, hno⟩ := hdraws
  have hcur : ¬ Finishes acts .drawn := fun hdrawn => nomatch hacts.unique hdrawn
  refine ⟨fun t => ?_, fun t u ht hu heq => ?_, h.positive, fun n hn => ?_,
    List.nodup_cons.mpr ⟨hno, h.nodup⟩, fun t ht => ?_, fun t ht hzero => ?_⟩
  · show ∃ st, Finishes (Function.update k.rest k.current acts t) st ∧ _
    by_cases ht : t = k.current
    · subst ht
      rw [Function.update_self]
      exact ⟨.named v, hacts, trivial⟩
    · obtain ⟨st, hfin', hdraws⟩ := h.stage t
      rw [Function.update_of_ne ht]
      refine ⟨st, hfin', ?_⟩
      cases st with
      | loaded => exact hdraws
      | drawn =>
          obtain ⟨hlt, hpos, hno⟩ := hdraws
          refine ⟨hlt, hpos, fun hmem => ?_⟩
          rcases List.mem_cons.mp hmem with heq | hmem
          · exact ht (h.drawn t k.current hfin' hfin heq)
          · exact hno hmem
      | _ => trivial
  · obtain ⟨-, ht⟩ := drawn_update hcur ht
    obtain ⟨-, hu⟩ := drawn_update hcur hu
    exact h.drawn t u ht hu heq
  · rcases List.mem_cons.mp hn with rfl | hn
    · exact hlt
    · exact h.bound n hn
  · have ht' : Function.update k.tid v (k.newTid k.current) t ≠ 0 := ht
    show .named t (Function.update k.tid v (k.newTid k.current) t) ∈ _ :: k.hist
    by_cases htv : t = v
    · subst htv
      rw [Function.update_self]
      exact List.mem_cons_self
    · rw [Function.update_of_ne htv] at ht' ⊢
      exact List.mem_cons_of_mem _ (h.given t ht')
  · have hzero' : Function.update k.tid v (k.newTid k.current) t = 0 := hzero
    by_cases htv : t = v
    · subst htv
      rw [Function.update_self] at hzero'
      exact absurd hzero' (Nat.ne_of_gt hpos)
    · rw [Function.update_of_ne htv] at hzero'
      obtain ⟨u, hu⟩ := h.unnamed t ht hzero'
      exact ⟨u, setTid_update htodo (fun heq => htv (Act.setTid.inj heq)) hu⟩

/-- An event that names no thread. -/
theorem tids_cons (he : e.tid = none) {es : List Event} :
    (e :: es).filterMap Event.tid = es.filterMap Event.tid := List.filterMap_cons_none he

theorem Tids.log (h : Tids k) (he : e.tid = none) : Tids (k.log e) :=
  h.same rfl rfl rfl (tids_cons he) (List.subset_cons_self _ _) (List.Subset.refl _) rfl

theorem Tids.scheduled (h : Tids k) (hs : schedule k = .ok k') : Tids k' := by
  obtain ⟨-, n, hn, -, rfl⟩ := schedule_iff.mp hs
  refine h.same rfl rfl rfl (tids_cons ?_) (List.subset_cons_self _ _) (List.Subset.refl _) rfl
  cases k.readyList.head? with
  | none => rfl
  | some m => rfl

theorem Tids.popWaiter (h : Tids k) : Tids (popWaiter k s) := by
  unfold Synch.popWaiter
  split
  next => exact h
  next t ts hw =>
    have hwake : Tids ((k.setWaiters s ts).log (.wake t s)) := (h.same rfl rfl rfl rfl
      (List.Subset.refl _) (List.Subset.refl _) rfl : Tids (k.setWaiters s ts)).log rfl
    exact hwake.same rfl rfl rfl (tids_cons rfl) (List.subset_cons_self _ _)
      (List.Subset.refl _) rfl

theorem Tids.raised (h : Tids k) : Tids (raised k s) :=
  h.popWaiter.same rfl rfl rfl (tids_cons rfl) (List.subset_cons_self _ _) (List.Subset.refl _) rfl

theorem Tids.yielded (h : Tids k) : Tids (yielded k) := by
  unfold Synch.yielded
  split
  next => exact h.same rfl rfl rfl (tids_cons rfl) (List.subset_cons_self _ _) (List.Subset.refl _) rfl
  next => exact h.same rfl rfl rfl rfl (List.Subset.refl _) (List.Subset.refl _) rfl

/-- Acts that are put in front, and are none of `allocate_tid`. -/
theorem Finishes.detour {st : Stage} (hfin : Finishes (a :: acts) st)
    (ha : ∀ st st', a.stage st = some st' → (st = .out ∨ st = .drawn) ∧ st = st')
    (pre : List Act) (hpre : ∀ b ∈ pre, ∀ st, st = .out ∨ st = .drawn → b.stage st = some st) :
    Finishes (pre ++ acts) st := by
  obtain ⟨st', hst, hacts⟩ := hfin
  obtain ⟨hor, rfl⟩ := ha st st' hst
  induction pre with
  | nil => exact hacts
  | cons b pre ih =>
      exact ⟨st, hpre b List.mem_cons_self st hor, ih fun c hc => hpre c (List.mem_cons_of_mem _ hc)⟩

/-! ## Steps -/

/-- The running thread goes to sleep. -/
theorem Tids.asleep (h : Tids k) (htodo : k.todo = a :: acts) (ha : a = .down s ∨ a = .retest s) :
    Tids (asleep k s acts) := by
  have h₁ : Tids (k.setRest k.current (.retest s :: acts)) := by
    refine h.setRest (fun st hfin => .inl ?_) fun t hmem => ?_
    · rw [htodo] at hfin
      rcases ha with rfl | rfl
      · exact hfin
      · exact hfin
    · refine List.mem_cons_of_mem _ (mem_acts_of_ne htodo ?_ hmem)
      rcases ha with rfl | rfl
      · exact nofun
      · exact nofun
  exact h₁.same rfl rfl rfl (tids_cons rfl) (List.subset_cons_self _ _) (List.Subset.refl _) rfl

/-- An act of a thread gives out identifiers in turn. -/
theorem Tids.exec (h : Tids k) (hs : Settled k p) (hu : LockUse k) (htodo : k.todo = a :: acts)
    (he : Exec k acts a k') : Tids k' := by
  have hkeep : ∀ {k₁ : Kernel}, Tids k₁ → ∀ {k₂ : Kernel}, k₂.newTid = k₁.newTid →
      k₂.nextTid = k₁.nextTid → k₂.tid = k₁.tid → k₂.hist = k₁.hist → k₂.allList = k₁.allList →
      k₂.rest = k₁.rest → Tids k₂ :=
    fun h₁ _ hnew hnext htid hhist hall hrest => h₁.same hnew hnext htid
      (by unfold Kernel.tids; rw [hhist]) (by rw [hhist]; exact List.Subset.refl _)
      (by rw [hall]; exact List.Subset.refl _) hrest
  cases he with
  | sleep ha hv hsched => exact (h.asleep htodo ha).scheduled hsched
  | @take s a ha hv =>
      have h₁ : Tids (k.setRest k.current acts) := by
        rcases ha with rfl | rfl
        · exact h.advance htodo (fun _ _ => stage_same) nofun
        · exact h.advance htodo (fun _ _ => stage_same) nofun
      exact hkeep (h₁.log (e := .down k.current s) rfl) rfl rfl rfl rfl rfl rfl
  | @tryTake s hv =>
      have h₁ := h.advance htodo (fun _ _ => stage_same) nofun
      exact hkeep (h₁.log (e := .down k.current s) rfl) rfl rfl rfl rfl rfl rfl
  | tryFails hv => exact h.advance htodo (fun _ _ => stage_same) nofun
  | up hw => exact (h.advance htodo (fun _ _ => stage_same) nofun).raised
  | checkFree hl => exact h.advance htodo (fun _ _ => stage_same) nofun
  | setHolder => exact hkeep (h.advance htodo (fun _ _ => stage_same) nofun) rfl rfl rfl rfl rfl rfl
  | pushLock => exact hkeep (h.advance htodo (fun _ _ => stage_same) nofun) rfl rfl rfl rfl rfl rfl
  | clearHolder hl =>
      exact hkeep (h.advance htodo (fun _ _ => stage_same) nofun) rfl rfl rfl rfl rfl rfl
  | removeLock hl =>
      exact hkeep (h.advance htodo (fun _ _ => stage_same) nofun) rfl rfl rfl rfl rfl rfl
  | @enqueueWaiter c l hl =>
      have h₁ := h.advance htodo (fun _ _ => stage_same) nofun
      exact hkeep (h₁.log (e := .wait k.current c) rfl) rfl rfl rfl rfl rfl rfl
  | signalNone hl hc => exact h.advance htodo (fun _ _ => stage_same) nofun
  | @signal c l t ts hl hc =>
      have h₁ : Tids (k.setRest k.current (.up (.ofWaiter t) :: acts)) := by
        refine h.setRest (fun st hfin => .inl ?_) fun t hmem =>
          List.mem_cons_of_mem _ (mem_acts_of_ne htodo nofun hmem)
        rw [htodo] at hfin
        refine hfin.detour (fun _ _ => stage_same) [.up (.ofWaiter t)] fun b hb st hor => ?_
        rw [List.mem_singleton.mp hb]
        exact if_pos hor
      exact hkeep (h₁.log (e := .signal t c) rfl) rfl rfl rfl rfl rfl rfl
  | broadcastEnd hc => exact h.advance htodo (fun _ _ => stage_same) nofun
  | @broadcast c l hc =>
      refine h.setRest (fun st hfin => .inl ?_) fun t hmem => List.mem_cons_of_mem _
        (List.mem_cons_of_mem _ (mem_acts_of_ne htodo nofun hmem))
      rw [htodo] at hfin
      refine hfin.detour (fun _ _ => stage_same) [.signal c l, .broadcast c l]
        fun b hb st hor => ?_
      rcases List.mem_cons.mp hb with rfl | hb
      · exact if_pos hor
      · rw [List.mem_singleton.mp hb]
        exact if_pos hor
  | loadTid => exact h.loadTid htodo
  | storeTid ht => exact h.storeTid hu htodo
  | setTid => exact h.setTid htodo
  | @unblock t ht =>
      have h₁ : Tids (k.setRest k.current acts) := by
        refine h.setRest (fun st hfin => .inr ?_) fun t hmem => mem_acts_of_ne htodo nofun hmem
        rw [htodo] at hfin
        obtain ⟨st', hst, hacts⟩ := hfin
        obtain ⟨-, rfl⟩ := stage_source hst
        exact hacts
      exact hkeep (h₁.log (e := .enqueue t) rfl) rfl rfl rfl rfl rfl rfl
  | yield hsched =>
      exact (h.advance htodo (fun _ _ => stage_same) nofun).yielded.scheduled hsched
  | finish hl hsched =>
      have hnil := hs.queues.exits k.current (by
        rw [show k.rest k.current = _ from htodo]
        exact List.mem_cons_self)
      obtain rfl : acts = [] := (List.cons.inj (htodo.symm.trans hnil)).2
      have h₁ : Tids (ended k) :=
        (h.advance htodo (fun _ _ => stage_same) nofun).same rfl rfl rfl rfl
          (List.Subset.refl _) List.erase_subset rfl
      exact h₁.scheduled hsched
  | @releaseLock l hl hmem hw =>
      have h₁ : Tids (unlisted k l) := hkeep h rfl rfl rfl rfl rfl rfl
      exact h₁.raised
  | setIdle => exact hkeep (h.advance htodo (fun _ _ => stage_same) nofun) rfl rfl rfl rfl rfl rfl
  | idleBlock hsched =>
      have h₁ : Tids (k.setRest k.current [.halt]) := by
        obtain ⟨-, -, rfl⟩ := hs.queues.idle.of_idleBlock htodo
        refine h.setRest (fun st hfin => .inl ?_) fun t hmem => ?_
        · rw [htodo] at hfin
          exact hfin
        · rw [htodo] at hmem
          simp at hmem
      have h₂ : Tids ((k.setRest k.current [.halt]).setStatus k.current (some .blocked)) :=
        hkeep h₁ rfl rfl rfl rfl rfl rfl
      exact h₂.scheduled hsched

theorem Tids.leaveHalt (h : Tids k) : Tids (leaveHalt k) := by
  unfold Synch.leaveHalt
  split
  next htodo =>
    refine h.setRest (fun st hfin => .inl ?_) fun t hmem => ?_
    · rw [htodo] at hfin
      exact hfin
    · rw [htodo] at hmem
      simp at hmem
  next => exact h

theorem Tids.ticked (h : Tids k) : Tids (ticked k) := by
  unfold Synch.ticked countTick
  split
  next => exact h.same rfl rfl rfl rfl (List.Subset.refl _) (List.Subset.refl _) rfl
  next =>
    split
    next => exact h.same rfl rfl rfl rfl (List.Subset.refl _) (List.Subset.refl _) rfl
    next => exact h.same rfl rfl rfl rfl (List.Subset.refl _) (List.Subset.refl _) rfl

/-- Every function ends outside of `thread_create`. -/
theorem Call.finishes (c : Call) : Finishes (c.code t) .out := by
  cases c <;>
    simp [Call.code, Finishes, Act.stage, Synch.lockAcquire, Synch.lockRelease, Synch.condWait,
      Synch.threadCreate, allocateTid]

/-- The new thread of `thread_create` has no `tid` yet. -/
theorem Tids.create (h : Tids k) (hs : Settled k p) (hidle : k.todo = []) (ht : k.status t = none) :
    Tids ((initThread k t).setRest k.current (threadCreate t)) := by
  have hcur : k.rest k.current = [] := hidle
  have hnil : k.rest t = [] := by
    by_contra hne
    exact (hs.queues.alive t hne).1 ht
  have hrest : ((initThread k t).setRest k.current (threadCreate t)).rest =
      Function.update k.rest k.current (threadCreate t) := by
    show Function.update (Function.update k.rest t []) k.current _ = _
    rw [← hnil, Function.update_eq_self]
  have hout : Finishes (threadCreate t) .out := (Call.threadCreate t).finishes (t := k.current)
  have hnot : ¬ Finishes (threadCreate t) .drawn := fun hdrawn => nomatch hout.unique hdrawn
  refine ⟨fun u => ?_, fun u v hu hv heq => ?_, h.positive, h.bound, h.nodup, fun u hu => ?_,
    fun u hmem hzero => ?_⟩
  · rw [hrest]
    by_cases hu : u = k.current
    · subst hu
      rw [Function.update_self]
      exact ⟨.out, hout, trivial⟩
    · rw [Function.update_of_ne hu]
      obtain ⟨st, hfin, hdraws⟩ := h.stage u
      refine ⟨st, hfin, ?_⟩
      cases st with
      | loaded => exact hdraws
      | drawn => exact hdraws
      | _ => trivial
  · rw [hrest] at hu hv
    exact h.drawn u v (drawn_update hnot hu).2 (drawn_update hnot hv).2 heq
  · have hu' : Function.update k.tid t 0 u ≠ 0 := hu
    show .named u (Function.update k.tid t 0 u) ∈ k.hist
    by_cases hut : u = t
    · subst hut
      rw [Function.update_self] at hu'
      exact absurd rfl hu'
    · rw [Function.update_of_ne hut] at hu' ⊢
      exact h.given u hu'
  · rw [hrest]
    have hmem' : u ∈ k.allList ++ [t] := hmem
    by_cases hut : u = t
    · subst hut
      refine ⟨k.current, ?_⟩
      rw [Function.update_self]
      simp [threadCreate]
    · have hzero' : Function.update k.tid t 0 u = 0 := hzero
      rw [Function.update_of_ne hut] at hzero'
      obtain ⟨v, hv⟩ := h.unnamed u ((mem_concat_of_ne hut).mp hmem') hzero'
      refine ⟨v, ?_⟩
      rw [Function.update_of_ne]
      · exact hv
      · rintro rfl
        rw [hcur] at hv
        cases hv

theorem Tids.begin (h : Tids k) (hs : Settled k p) {c : Call} (hc : c.Allowed k)
    (hidle : k.todo = []) : Tids (begin k c) := by
  have hcall : Tids (k.setRest k.current (c.code k.current)) := by
    refine h.setRest (fun st _ => .inr c.finishes) fun t hmem => ?_
    rw [hidle] at hmem
    cases hmem
  cases c with
  | threadCreate t => exact h.create hs hidle hc.2
  | _ => exact hcall

/-- A step gives out identifiers in turn. -/
theorem Tids.step (h : Tids k) (hs : Settled k p) (hu : LockUse k) {b : Label}
    (hstep : Step k b k') : Tids k' := by
  obtain ⟨-, hhappens⟩ := step_cases hstep
  cases hhappens with
  | call hc hidle => exact h.begin hs hc hidle
  | exec htodo he => exact h.exec hs hu htodo he
  | tick hon ht => exact h.leaveHalt.ticked
  | slice hon ht hsched => exact h.leaveHalt.ticked.yielded.scheduled hsched
  | device hon hw => exact h.leaveHalt.raised
  | setPagedir hidle =>
      exact h.same rfl rfl rfl rfl (List.Subset.refl _) (List.Subset.refl _) rfl

theorem tids_boot {listed : Bool} {main started : Ptr} {value : Ptr → ℕ} (hne : main ≠ p) :
    Tids (boot listed main p started value) := by
  have hout : ∀ t, Finishes ((boot listed main p started value).rest t) .out := by
    intro t
    rw [boot_rest]
    split_ifs
    · exact ⟨.out, rfl, .out, rfl, .out, rfl, rfl⟩
    · exact ⟨.out, rfl, rfl⟩
    · exact rfl
  have htid : ∀ t, (boot listed main p started value).tid t =
      if t = p then 2 else if t = main then 1 else 0 := by
    intro t
    simp only [boot, Function.update_apply]
  refine ⟨fun t => ⟨.out, hout t, trivial⟩, fun t u ht => absurd ((hout t).unique ht) (by simp),
    Nat.succ_pos 2, fun n hn => ?_, (by decide : [2, 1].Nodup), fun t ht => ?_, fun t ht hzero => ?_⟩
  · have hmem : n ∈ [2, 1] := hn
    simp only [List.mem_cons, List.not_mem_nil, or_false] at hmem
    rcases hmem with rfl | rfl
    · exact (by decide : 2 < 3)
    · exact (by decide : 1 < 3)
  · rw [htid] at ht ⊢
    show _ ∈ [Event.enqueue p, .named p 2, .named main 1]
    split_ifs at ht ⊢ with hp hm
    · simp [hp]
    · simp [hm]
    · exact absurd rfl ht
  · rw [htid] at hzero
    have hmem : t ∈ [main, p] := ht
    simp only [List.mem_cons, List.not_mem_nil, or_false] at hmem
    rcases hmem with rfl | rfl
    · rw [if_neg hne, if_pos rfl] at hzero
      cases hzero
    · rw [if_pos rfl] at hzero
      cases hzero

theorem Reachable.tids (h : Reachable k) : Tids k := by
  obtain ⟨k₀, ⟨listed, main, p, started, value, hne, rfl⟩, hreach⟩ := h
  exact (hreach.invariant (P := fun k => Settled k p ∧ LockUse k ∧ Tids k)
    (fun _ _ _ hs hk => ⟨hk.1.step hs, hk.2.1.step hk.1 hs, hk.2.2.step hk.1 hk.2.1 hs⟩)
    ⟨settled_boot hne, lockUse_boot, tids_boot hne⟩).2.2

/-- The event that gives an identifier names one thread. -/
theorem named_inj {es : List Event} (h : (es.filterMap Event.tid).Nodup) (ht : .named t n ∈ es)
    (hu : .named u n ∈ es) : t = u := by
  induction es with
  | nil => cases ht
  | cons e es ih =>
      have hmem : ∀ v, .named v n ∈ es → n ∈ es.filterMap Event.tid :=
        fun v hv => List.mem_filterMap.mpr ⟨_, hv, rfl⟩
      rcases List.mem_cons.mp ht with rfl | ht'
      · rcases List.mem_cons.mp hu with heq | hu'
        · exact (Event.named.inj heq).1.symm
        · exact absurd (hmem u hu') (List.nodup_cons.mp h).1
      · rcases List.mem_cons.mp hu with rfl | hu'
        · exact absurd (hmem t ht') (List.nodup_cons.mp h).1
        · exact ih (h.sublist ((List.sublist_cons_self _ _).filterMap _)) ht' hu'

/-- The identifiers of the threads. -/
structure OwnTids (k : Kernel) : Prop where
  /-- No identifier is given twice, also not when its thread has ended. -/
  nodup : k.tids.Nodup
  /-- Two threads have different ones. -/
  inj : ∀ t u, k.tid t ≠ 0 → k.tid t = k.tid u → t = u
  /-- A thread that can run has one. -/
  started : ∀ t, k.status t = some .ready ∨ k.status t = some .running → k.tid t ≠ 0

/-- However the calls of `thread_create` of different threads interleave, every thread has a
`tid` of its own by the time it runs. -/
theorem tids_unique (h : Reachable k) : OwnTids k := by
  have ht := h.tids
  obtain ⟨p, hs⟩ := h.settled
  refine ⟨ht.nodup, fun t u hne heq => ?_, fun t hst hzero => ?_⟩
  · have hone := ht.given t hne
    have htwo := ht.given u (heq ▸ hne)
    rw [← heq] at htwo
    exact named_inj ht.nodup hone htwo
  · have hmem : t ∈ k.allList := by
      rw [hs.queues.all]
      rcases hst with hst | hst
      · rw [hst]
        decide
      · rw [hst]
        decide
    obtain ⟨u, hu⟩ := ht.unnamed t hmem hzero
    obtain ⟨st, hfin, -⟩ := ht.stage u
    have hblocked := (hs.queues.created t u (hfin.unblocks hu)).1
    rw [hblocked] at hst
    rcases hst with hst | hst
    · cases hst
    · cases hst

theorem tids_unique_contention : ∃ k, Reachable k ∧ k.tid 5 = 3 ∧ OwnTids k := by
  obtain ⟨k, hk, -, hw⟩ := reachable_of_check contention (fun k => k.tid 5 = 3)
    (by decide +kernel)
  exact ⟨k, hk, of_decide_eq_true hw, tids_unique hk⟩

end Pintos.Synch
