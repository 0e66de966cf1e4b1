import Mathlib.Data.List.Perm.Subperm
import Pintos.Wait.Records

/-! # The list of children

What `get_child` finds, and the steps that change a list: the creation of a thread
and the end of its record.
-/

namespace Pintos.Wait

open Intrusive
open Vm (Ptr)

variable {s s' : State} {g g' : History} {kids : ℤ → List Ptr} {t c d : ℤ} {p : Ptr}
  {y : Phase}

/-! ## Looking for a child -/

/-- The list is not longer than there are records, so that the rounds suffice. -/
theorem Inv.length_le (h : Inv g s kids) (t : ℤ) :
    (kids t).length ≤ s.procs.entries.length := by
  have hsub : kids t ⊆ s.procs.keys := by
    intro p hp
    obtain ⟨x, hx, -⟩ := h.record t p hp
    apply AList.mem_keys.mpr
    apply AList.lookup_isSome.mp
    rw [hx]
    rfl
  have hle := (List.subperm_of_subset (h.family.nodup t) hsub).length_le
  rwa [AList.keys, List.keys, List.length_map] at hle

/-- `get_child` reads the sentinel, then the children from the last one on. -/
theorem Inv.getChild_search (h : Inv g s kids) : getChild s t c =
    some (((listOf t).tail :: ((kids t).map .elem).reverse).find? fun e => s.pidAt e = some c) := by
  have hrounds : ((kids t).map (Node.elem (T := ℤ))).length + 1 < s.procs.entries.length + 2 := by
    have hle := h.length_le t
    rw [List.length_map]
    omega
  unfold getChild children
  rw [(h.family.list t).search_backward hrounds, Option.map_some]

/-- The sentinel is read as a process with the pid 0. -/
theorem Inv.pidAt_tail (h : Inv g s kids) : s.pidAt (listOf t).tail = some 0 :=
  if_pos (h.family.list t).headPrev

/-- For a pid other than 0 the search is one among the children. -/
theorem Inv.getChild_eq (h : Inv g s kids) (hc : c ≠ 0) :
    getChild s t c =
      some (((kids t).reverse.find? fun p => s.pidOf p = some c).map .elem) := by
  have htail : s.pidAt (listOf t).tail ≠ some c := by
    rw [h.pidAt_tail]
    exact fun hzero => hc (Option.some.inj hzero).symm
  rw [h.getChild_search, List.find?_cons_of_neg (by simpa using htail), ← List.map_reverse,
    List.find?_map]
  rfl

/-- `get_child` finds a child. -/
theorem Inv.getChild_child (h : Inv g s kids) (hp : p ∈ kids t) (hpc : s.pidOf p = some c) :
    getChild s t c = some (some (.elem p)) := by
  obtain ⟨x, -, hpid, hr⟩ := h.child hp hpc
  have hpos := hr.pid
  rw [h.getChild_eq (by omega)]
  have hfound : ((kids t).reverse.find? fun p => s.pidOf p = some c).isSome := by
    apply List.find?_isSome.mpr
    exact ⟨p, List.mem_reverse.mpr hp, decide_eq_true hpc⟩
  obtain ⟨q, hq⟩ := Option.isSome_iff_exists.mp hfound
  have hqk : q ∈ kids t := List.mem_reverse.mp (List.mem_of_find?_eq_some hq)
  have hqc : s.pidOf q = some c := by simpa using List.find?_some hq
  rw [hq, h.unique hqk hp hqc hpc]
  rfl

/-- `get_child` finds nothing else. -/
theorem Inv.getChild_none (h : Inv g s kids) (hc : c ≠ 0)
    (hnone : ∀ p ∈ kids t, s.pidOf p ≠ some c) : getChild s t c = some none := by
  rw [h.getChild_eq hc]
  have hfind : ((kids t).reverse.find? fun p => s.pidOf p = some c) = none := by
    apply List.find?_eq_none.mpr
    intro p hp hpc
    exact hnone p (List.mem_reverse.mp hp) (of_decide_eq_true hpc)
  rw [hfind]
  rfl

/-- For the pid 0 it stops at the sentinel. -/
theorem Inv.getChild_zero (h : Inv g s kids) : getChild s t 0 = some (some (.tail t)) := by
  rw [h.getChild_search, List.find?_cons_of_pos (by simpa using h.pidAt_tail)]
  rfl

/-! ## Steps that change the lists -/

/-- What the phase of a thread asks of its children does not involve other records. -/
theorem PhaseOk.mono {l l' : List Ptr} (h : PhaseOk s l y) (hsub : ∀ p ∈ l, p ∈ l')
    (hpid : ∀ p ∈ l, s'.pidOf p = s.pidOf p) : PhaseOk s' l' y := by
  have h' := h.congr hpid
  unfold PhaseOk at h' ⊢
  split at h'
  · obtain ⟨p, hp, hc⟩ := h'
    exact ⟨p, hsub p hp, hc⟩
  · exact ⟨hsub _ h'.1, h'.2⟩
  · exact ⟨hsub _ h'.1, h'.2⟩
  · exact ⟨hsub _ h'.1, h'.2⟩
  · exact ⟨hsub _ h'.1, h'.2⟩
  · trivial

/-- What the end of the record at `p` does, which thread `t` frees. -/
structure Releases (s : State) (t : ℤ) (p : Ptr) (s' : State) : Prop where
  phase : s'.phase = Function.update s.phase t .user
  proc : s'.proc = s.proc
  nextTid : s'.nextTid = s.nextTid
  panic : s'.panic = s.panic
  others : ∀ q, q ≠ p → s'.procs.lookup q = s.procs.lookup q

theorem Releases.pidOf (hs : Releases s t p s') {q : Ptr} (hq : q ≠ p) :
    s'.pidOf q = s.pidOf q := by
  unfold State.pidOf
  rw [hs.others q hq]

theorem Releases.phase_self (hs : Releases s t p s') : s'.phase t = .user := by
  rw [hs.phase, Function.update_self]

theorem Releases.phase_of_ne (hs : Releases s t p s') (hd : d ≠ t) : s'.phase d = s.phase d := by
  rw [hs.phase, Function.update_of_ne hd]

theorem Releases.moves (hs : Releases s t p s') (h : (s.phase t).Moves .user) (d : ℤ) :
    (s.phase d).Moves (s'.phase d) := by
  rw [hs.phase]
  exact moves_update h d

/-- The children that are left when `p` leaves the list of `t`. -/
theorem Inv.mem_erased (h : Inv g s kids) (hp : p ∈ kids t) {v : ℤ} {q : Ptr} :
    q ∈ Function.update kids t ((kids t).erase p) v ↔ q ∈ kids v ∧ q ≠ p := by
  by_cases hv : v = t
  · subst hv
    rw [Function.update_self, (h.family.nodup v).mem_erase_iff]
    exact and_comm
  · rw [Function.update_of_ne hv]
    constructor
    · intro hq
      refine ⟨hq, ?_⟩
      rintro rfl
      exact hv (h.family.apart v t q hq hp)
    · exact And.left

/-- The record of another child of any thread. -/
theorem Releases.record (hs : Releases s t p s') (hmoves : (s.phase t).Moves .user) {v : ℤ}
    {q : Ptr} {x : Process} (hq : q ≠ p) (hx : s.procs.lookup q = some x)
    (hr : Record g s v q x) (hdowns : (s.phase t).downs x.pid = 1)
    (hexec : ¬ (s.phase t).Executes x.pid)
    (hload : g'.load x.pid = g.load x.pid) (hexit : g'.exit x.pid = g.exit x.pid)
    (hexecuted : (v, x.pid) ∈ g'.executed ↔ (v, x.pid) ∈ g.executed)
    (hreaped : (v, x.pid) ∈ g'.reaped ↔ (v, x.pid) ∈ g.reaped) :
    ∃ x, s'.procs.lookup q = some x ∧ Record g' s' v q x := by
  have hproc : s'.proc x.pid = s.proc x.pid := congrFun hs.proc x.pid
  refine ⟨x, (hs.others q hq).trans hx,
    hr.congr hproc (hs.moves hmoves x.pid) ?_ ?_ hload hexit hexecuted hreaped⟩
  · by_cases hv : v = t
    · rw [hv, hs.phase_self, hdowns]
      rfl
    · rw [hs.phase_of_ne hv]
  · by_cases hv : v = t
    · rw [hv, hs.phase_self]
      exact iff_of_false id hexec
    · rw [hs.phase_of_ne hv]

/-- The invariant when the record at `p` of a child that has gone is no more. -/
theorem Releases.inv (hs : Releases s t p s') (h : Inv g s kids) (hp : p ∈ kids t)
    (hpc : s.pidOf p = some c) (hmoves : (s.phase t).Moves .user)
    (hdowns : ∀ d, d ≠ c → (s.phase t).downs d = 1)
    (hexec : ∀ d, d ≠ c → ¬ (s.phase t).Executes d) (hgone : s.phase c = .gone)
    (hhist : OnlyFor c g g') (hload : ∀ d, g'.load d = g.load d)
    (hexit : ∀ d, g'.exit d = g.exit d)
    (hexecuted : ∀ v, (v, c) ∈ g'.executed → (v, c) ∉ g'.reaped →
      (v, c) ∈ g.executed ∧ (v, c) ∉ g.reaped ∧ v ≠ t)
    (hfamily : Family s'.links (Function.update kids t ((kids t).erase p))) :
    Inv g' s' (Function.update kids t ((kids t).erase p)) := by
  have hmem := fun v q => h.mem_erased hp (v := v) (q := q)
  obtain ⟨x, -, hxc, hr⟩ := h.child hp hpc
  have hlt := h.pid_lt hr
  rw [hxc] at hlt
  constructor
  case family => exact hfamily
  case record =>
    intro v q hq
    obtain ⟨hqk, hqp⟩ := (hmem v q).mp hq
    obtain ⟨z, hz, hrz⟩ := h.record v q hqk
    have hzc : z.pid ≠ c := by
      intro heq
      refine hqp (h.unique hqk hp ?_ hpc)
      unfold State.pidOf
      rw [hz, ← heq]
      rfl
    exact hs.record hmoves hqp hz hrz (hdowns _ hzc) (hexec _ hzc) (hload _) (hexit _)
      (hhist.executed _ _ hzc) (hhist.reaped _ _ hzc)
  case phases =>
    intro v
    by_cases hv : v = t
    · subst hv
      rw [hs.phase_self]
      trivial
    · rw [hs.phase_of_ne hv, Function.update_of_ne hv]
      apply (h.phases v).congr
      intro q hq
      refine hs.pidOf ?_
      rintro rfl
      exact hv (h.family.apart v t q hq hp)
  case owned =>
    intro d q hproc hne
    rw [hs.proc] at hproc
    have hne' : s.phase d ≠ .gone := fun hold => hne ((hs.moves hmoves d).gone.mpr hold)
    obtain ⟨v, hv, hvd⟩ := h.owned d q hproc hne'
    have hqp : q ≠ p := by
      rintro rfl
      obtain rfl : c = d := Option.some.inj (hpc.symm.trans hvd)
      exact hne' hgone
    exact ⟨v, (hmem v q).mpr ⟨hv, hqp⟩, (hs.pidOf hqp).trans hvd⟩
  case held =>
    intro v d hex hre
    have hheld : ∃ q ∈ kids v, s.pidOf q = some d ∧ q ≠ p := by
      by_cases hd : d = c
      · subst hd
        obtain ⟨hex', hre', hvt⟩ := hexecuted v hex hre
        obtain ⟨q, hq, hqd⟩ := h.held v d hex' hre'
        refine ⟨q, hq, hqd, ?_⟩
        rintro rfl
        exact hvt (h.family.apart v t q hq hp)
      · obtain ⟨q, hq, hqd⟩ := h.held v d ((hhist.executed v d hd).mp hex)
          fun hre' => hre ((hhist.reaped v d hd).mpr hre')
        refine ⟨q, hq, hqd, ?_⟩
        rintro rfl
        exact hd (Option.some.inj (hqd.symm.trans hpc))
    obtain ⟨q, hq, hqd, hqp⟩ := hheld
    exact ⟨q, (hmem v q).mpr ⟨hq, hqp⟩, (hs.pidOf hqp).trans hqd⟩
  case signals =>
    intro d hsig
    rw [hs.proc]
    by_cases hd : d = t
    · rw [hd, hs.phase_self] at hsig
      cases hsig
    · rw [hs.phase_of_ne hd] at hsig
      exact h.signals d hsig
  case nextTid =>
    rw [hs.nextTid]
    exact h.nextTid
  case absent =>
    intro d hle
    rw [hs.nextTid] at hle
    obtain ⟨habsent, hproc, hkids⟩ := h.absent d hle
    rw [hs.proc]
    refine ⟨(hs.moves hmoves d).absent.mpr habsent, hproc, ?_⟩
    apply List.eq_nil_iff_forall_not_mem.mpr
    intro q hq
    have hno := ((hmem d q).mp hq).1
    rw [hkids] at hno
    cases hno
  case fresh =>
    intro d hle
    rw [hs.nextTid] at hle
    have hd : d ≠ c := by omega
    exact hhist.fresh hd (h.fresh d hle)
  case panic =>
    rw [hs.panic]
    exact h.panic

/-- A parent frees the record of a child that has gone. -/
theorem Inv.release {z : Phase} (h : Inv g s kids) (hp : p ∈ kids t) (hpc : s.pidOf p = some c)
    (hphase : s.phase t = z) (hmoves : z.Moves .user) (hdowns : ∀ d, d ≠ c → z.downs d = 1)
    (hexec : ∀ d, d ≠ c → ¬ z.Executes d) (hgone : s.phase c = .gone)
    (hhist : OnlyFor c g g') (hload : ∀ d, g'.load d = g.load d)
    (hexit : ∀ d, g'.exit d = g.exit d)
    (hexecuted : ∀ v, (v, c) ∈ g'.executed → (v, c) ∉ g'.reaped →
      (v, c) ∈ g.executed ∧ (v, c) ∉ g.reaped ∧ v ≠ t) :
    ∃ s₁, s.free p = some s₁ ∧
      Inv g' (s₁.setPhase t .user) (Function.update kids t ((kids t).erase p)) := by
  subst hphase
  obtain ⟨links, hremove, hfamily, -⟩ := h.family.remove hp
  have hfree : s.free p = some { s with links := links, procs := s.procs.erase p } := by
    unfold State.free
    rw [hremove]
    rfl
  have hs : Releases s t p
      (({ s with links := links, procs := s.procs.erase p } : State).setPhase t .user) :=
    ⟨rfl, rfl, rfl, rfl, fun q hq => AList.lookup_erase_ne hq⟩
  exact ⟨_, hfree, hs.inv h hp hpc hmoves hdowns hexec hgone hhist hload hexit hexecuted hfamily⟩

/-- What the creation of a thread by `t` does, whose record is at `p`. -/
structure Creates (s : State) (t : ℤ) (p : Ptr) (s' : State) : Prop where
  phase : s'.phase =
    Function.update (Function.update s.phase s.nextTid .starting) t (.created s.nextTid)
  proc : s'.proc = Function.update s.proc s.nextTid (some p)
  nextTid : s'.nextTid = s.nextTid + 1
  panic : s'.panic = s.panic
  lookup : s'.procs.lookup p = some { pid := s.nextTid, status := .run, exit := -1, sema := 0 }
  others : ∀ q, q ≠ p → s'.procs.lookup q = s.procs.lookup q

theorem Creates.pidOf_self (hs : Creates s t p s') : s'.pidOf p = some s.nextTid := by
  unfold State.pidOf
  rw [hs.lookup]
  rfl

theorem Creates.pidOf (hs : Creates s t p s') {q : Ptr} (hq : q ≠ p) :
    s'.pidOf q = s.pidOf q := by
  unfold State.pidOf
  rw [hs.others q hq]

theorem Creates.phase_parent (hs : Creates s t p s') : s'.phase t = .created s.nextTid := by
  rw [hs.phase, Function.update_self]

theorem Creates.phase_child (hs : Creates s t p s') (ht : s.nextTid ≠ t) :
    s'.phase s.nextTid = .starting := by
  rw [hs.phase, Function.update_of_ne ht, Function.update_self]

theorem Creates.phase_of_ne (hs : Creates s t p s') (hd : d ≠ t) (hd' : d ≠ s.nextTid) :
    s'.phase d = s.phase d := by
  rw [hs.phase, Function.update_of_ne hd, Function.update_of_ne hd']

theorem Creates.moves (hs : Creates s t p s') (ht : s.phase t = .user) (hd : d ≠ s.nextTid) :
    (s.phase d).Moves (s'.phase d) := by
  by_cases hdt : d = t
  · rw [hdt, ht, hs.phase_parent]
    exact ⟨by simp, by simp, by simp, id⟩
  · rw [hs.phase_of_ne hdt hd]
    exact .refl _

/-- The children when `p` has been added to the list of `t`. -/
theorem mem_pushed {v : ℤ} {q : Ptr} :
    q ∈ Function.update kids t (kids t ++ [p]) v ↔ q ∈ kids v ∨ q = p ∧ v = t := by
  by_cases hv : v = t
  · subst hv
    rw [Function.update_self, List.mem_append, List.mem_singleton]
    simp
  · rw [Function.update_of_ne hv]
    simp [hv]

/-- The record of a child that was there before. -/
theorem Creates.record (hs : Creates s t p s') (h : Inv g s kids) (ht : s.phase t = .user)
    {v : ℤ} {q : Ptr} (hqp : q ≠ p) (hq : q ∈ kids v) :
    ∃ x, s'.procs.lookup q = some x ∧ Record g s' v q x := by
  obtain ⟨x, hx, hr⟩ := h.record v q hq
  have hne : x.pid ≠ s.nextTid := Int.ne_of_lt (h.pid_lt hr)
  have hproc : s'.proc x.pid = s.proc x.pid := by
    rw [hs.proc, Function.update_of_ne hne]
  -- the new thread has no children
  have hv : v ≠ s.nextTid := by
    rintro rfl
    rw [(h.absent _ (Int.le_refl _)).2.2] at hq
    cases hq
  refine ⟨x, (hs.others q hqp).trans hx,
    hr.congr hproc (hs.moves ht hne) ?_ ?_ rfl rfl Iff.rfl Iff.rfl⟩
  · by_cases hvt : v = t
    · rw [hvt, hs.phase_parent, ht]
      exact if_neg hne.symm
    · rw [hs.phase_of_ne hvt hv]
  · by_cases hvt : v = t
    · rw [hvt, hs.phase_parent, ht]
      exact iff_of_false (fun heq => hne heq.symm) id
    · rw [hs.phase_of_ne hvt hv]

/-- The record of the new thread: nothing has happened to it. -/
theorem Creates.newRecord (hs : Creates s t p s') (h : Inv g s kids) (ht : s.nextTid ≠ t) :
    Record g s' t p { pid := s.nextTid, status := .run, exit := -1, sema := 0 } := by
  obtain ⟨hload, hexit, hpairs⟩ := h.fresh _ (Int.le_refl s.nextTid)
  have hchild := hs.phase_child ht
  constructor
  case pid => exact Int.lt_of_lt_of_le Int.zero_lt_one h.nextTid
  case proc =>
    rw [hs.proc]
    exact Function.update_self ..
  case present =>
    rw [hchild]
    exact Phase.noConfusion
  case load => exact ⟨fun _ => hchild, fun _ => hload⟩
  case fail =>
    rw [hload]
    exact ⟨nofun, nofun⟩
  case notOrphan => exact ProcessStatus.noConfusion
  case leaves =>
    rw [hload]
    exact nofun
  case sema =>
    rw [hs.phase_parent, hchild, hload]
    show 0 + (if s.nextTid = s.nextTid then 0 else 1) = 0
    rw [if_pos rfl]
  case exit => exact hexit.symm
  case executed =>
    rw [hs.phase_parent]
    exact .inl ⟨rfl, (hpairs t).1⟩
  case reaped => exact (hpairs t).2

theorem Creates.phase_cases (hs : Creates s t p s') (ht : s.nextTid ≠ t) (d : ℤ) :
    d = t ∧ s'.phase d = .created s.nextTid ∨ d = s.nextTid ∧ s'.phase d = .starting ∨
      d ≠ t ∧ d ≠ s.nextTid ∧ s'.phase d = s.phase d := by
  by_cases hdt : d = t
  · subst hdt
    exact .inl ⟨rfl, hs.phase_parent⟩
  · by_cases hdc : d = s.nextTid
    · subst hdc
      exact .inr (.inl ⟨rfl, hs.phase_child ht⟩)
    · exact .inr (.inr ⟨hdt, hdc, hs.phase_of_ne hdt hdc⟩)

/-- The invariant when the record at `p` has been added to the list of `t`. -/
theorem Creates.inv (hs : Creates s t p s') (h : Inv g s kids) (ht : s.phase t = .user)
    (hnotin : ∀ v, p ∉ kids v)
    (hfamily : Family s'.links (Function.update kids t (kids t ++ [p]))) :
    Inv g s' (Function.update kids t (kids t ++ [p])) := by
  have habsent := (h.absent _ (Int.le_refl s.nextTid)).1
  have htc : s.nextTid ≠ t := by
    intro heq
    rw [heq, ht] at habsent
    cases habsent
  have hne : ∀ v, ∀ q ∈ kids v, q ≠ p := by
    rintro v q hq rfl
    exact hnotin v hq
  have hsub : ∀ v, ∀ q ∈ kids v, q ∈ Function.update kids t (kids t ++ [p]) v :=
    fun v q hq => mem_pushed.mpr (.inl hq)
  have hnew : p ∈ Function.update kids t (kids t ++ [p]) t := mem_pushed.mpr (.inr ⟨rfl, rfl⟩)
  constructor
  case family => exact hfamily
  case record =>
    intro v q hq
    rcases mem_pushed.mp hq with hqk | ⟨rfl, rfl⟩
    · exact hs.record h ht (hne v q hqk) hqk
    · exact ⟨_, hs.lookup, hs.newRecord h htc⟩
  case phases =>
    intro v
    rcases hs.phase_cases htc v with ⟨rfl, hv⟩ | ⟨rfl, hv⟩ | ⟨hvt, -, hv⟩
    · rw [hv]
      exact ⟨p, hnew, hs.pidOf_self⟩
    · rw [hv]
      trivial
    · rw [hv]
      exact (h.phases v).mono (hsub v) fun q hq => hs.pidOf (hne v q hq)
  case owned =>
    intro d q hd hgone
    rw [hs.proc] at hd
    by_cases hdc : d = s.nextTid
    · subst hdc
      rw [Function.update_self] at hd
      obtain rfl : p = q := Option.some.inj hd
      exact ⟨t, hnew, hs.pidOf_self⟩
    · rw [Function.update_of_ne hdc] at hd
      obtain ⟨v, hv, hvd⟩ := h.owned d q hd fun hold => hgone ((hs.moves ht hdc).gone.mpr hold)
      exact ⟨v, hsub v q hv, (hs.pidOf (hne v q hv)).trans hvd⟩
  case held =>
    intro v d hex hre
    obtain ⟨q, hq, hqd⟩ := h.held v d hex hre
    exact ⟨q, hsub v q hq, (hs.pidOf (hne v q hq)).trans hqd⟩
  case signals =>
    intro d hsig
    rcases hs.phase_cases htc d with ⟨rfl, hd⟩ | ⟨rfl, hd⟩ | ⟨-, hdc, hd⟩
    · rw [hd] at hsig
      cases hsig
    · rw [hd] at hsig
      cases hsig
    · rw [hd] at hsig
      rw [hs.proc, Function.update_of_ne hdc]
      exact h.signals d hsig
  case nextTid =>
    have hone := h.nextTid
    rw [hs.nextTid]
    omega
  case absent =>
    intro d hle
    rw [hs.nextTid] at hle
    have hdc : d ≠ s.nextTid := by omega
    obtain ⟨ha, hpr, hk⟩ := h.absent d (by omega)
    have hdt : d ≠ t := by
      rintro rfl
      rw [ht] at ha
      cases ha
    rw [hs.phase_of_ne hdt hdc, hs.proc, Function.update_of_ne hdc, Function.update_of_ne hdt]
    exact ⟨ha, hpr, hk⟩
  case fresh =>
    intro d hle
    rw [hs.nextTid] at hle
    exact h.fresh d (by omega)
  case panic =>
    rw [hs.panic]
    exact h.panic

/-- A thread is created whose record is the last in the list of its parent. -/
theorem Inv.create (h : Inv g s kids) (ht : s.phase t = .user) (hp : p ∉ s.procs) :
    ∃ links, listPushBack (listInit s.links (children s.nextTid)) (children t) (.elem p) =
        some links ∧
      Inv g ({ s with
          nextTid := s.nextTid + 1
          links := links
          procs := s.procs.insert p
            { pid := s.nextTid, status := .run, exit := -1, sema := 0 }
          proc := Function.update s.proc s.nextTid (some p)
          phase := Function.update s.phase s.nextTid .starting }.setPhase t (.created s.nextTid))
        (Function.update kids t (kids t ++ [p])) := by
  have hnotin : ∀ v, p ∉ kids v := by
    intro v hmem
    obtain ⟨x, hx, -⟩ := h.record v p hmem
    apply hp
    apply AList.lookup_isSome.mp
    rw [hx]
    rfl
  have hinit : listInit s.links (children s.nextTid) = s.links := by
    apply listInit_of_empty
    have hlist := h.family.list s.nextTid
    rw [(h.absent _ (Int.le_refl s.nextTid)).2.2] at hlist
    exact hlist
  obtain ⟨links, hpush, hfamily⟩ := h.family.pushBack (t := t) hnotin
  rw [hinit]
  refine ⟨links, hpush, Creates.inv ?_ h ht hnotin hfamily⟩
  exact ⟨rfl, rfl, rfl, rfl, AList.lookup_insert _, fun q hq => AList.lookup_insert_ne hq⟩

end Pintos.Wait
