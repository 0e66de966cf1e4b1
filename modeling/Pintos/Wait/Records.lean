import Pintos.Wait.Original

/-! # The shared record of a parent and a child

The semaphore of a child counts what the child has signalled and the parent has
not yet consumed. The invariant says so of every record, and that the record of a
child is in the list of its parent until the parent frees it.
-/

namespace Pintos.Wait

open Intrusive
open Vm (Ptr)

/-! ## What has happened -/

/-- What calls have done so far: whether the load of a process has succeeded, what it
passed to `exit`, which children a thread has been returned by `process_execute` and
which by `process_wait`. -/
structure History where
  load : ℤ → Option Bool
  exit : ℤ → ℤ
  executed : List (ℤ × ℤ)
  reaped : List (ℤ × ℤ)

/-- Nothing has happened; a process that never calls `exit` has the status -1. -/
def History.none : History := ⟨fun _ => .none, fun _ => -1, [], []⟩

/-- What an event adds. -/
def History.add (g : History) : Event → History
  | (.load c success, _) => { g with load := Function.update g.load c (some success) }
  | (.exit c status, _) => { g with exit := Function.update g.exit c status }
  | (.check t c, some r) => if r = c then { g with executed := (t, c) :: g.executed } else g
  | (.reap t c, some _) => { g with reaped := (t, c) :: g.reaped }
  | _ => g

def history (as : List Event) : History := as.foldl History.add History.none

theorem history_snoc {as : List Event} {a : Event} :
    history (as ++ [a]) = (history as).add a := List.foldl_append ..

/-! ## Phases -/

/-- How often a parent has downed the semaphore of child `c` by then. -/
def Phase.downs (c : ℤ) : Phase → ℕ
  | .created d => if d = c then 0 else 1
  | .loading _ d => if d = c then 0 else 1
  | .reaping _ d => if d = c then 2 else 1
  | _ => 1

/-- A parent has not yet been returned child `c`. -/
def Phase.Executes (c : ℤ) : Phase → Prop
  | .created d => d = c
  | .loading _ d => d = c
  | .checking _ d => d = c
  | _ => False

/-- A thread is in `process_exit` or beyond. -/
def Phase.Leaves : Phase → Prop
  | .exiting => True
  | .orphaned => True
  | .signalling => True
  | .gone => True
  | _ => False

/-- How often a child has upped its semaphore. -/
def ups (load : Option Bool) (x : Phase) : ℕ :=
  (if load = some true then 1 else 0) + if x = .gone then 1 else 0

/-- A child moves on without starting or going. -/
structure Phase.Moves (x y : Phase) : Prop where
  absent : y = .absent ↔ x = .absent
  starting : y = .starting ↔ x = .starting
  gone : y = .gone ↔ x = .gone
  leaves : x.Leaves → y.Leaves

theorem Phase.Moves.refl (x : Phase) : x.Moves x := ⟨Iff.rfl, Iff.rfl, Iff.rfl, id⟩

variable {s s' : State} {g g' : History} {kids : ℤ → List Ptr} {t u c d : ℤ} {p q : Ptr}
  {x x' : Process} {y : Phase} {a : Event}

theorem moves_update (h : (s.phase u).Moves y) (c : ℤ) :
    (s.phase c).Moves ((s.setPhase u y).phase c) := by
  show (s.phase c).Moves (Function.update s.phase u y c)
  by_cases hc : c = u
  · subst hc
    rw [Function.update_self]
    exact h
  · rw [Function.update_of_ne hc]
    exact .refl _

/-! ## The invariant -/

/-- The record of a child of `t`. -/
structure Record (g : History) (s : State) (t : ℤ) (p : Ptr) (x : Process) : Prop where
  pid : 0 < x.pid
  proc : s.proc x.pid = some p
  present : s.phase x.pid ≠ .absent
  load : g.load x.pid = none ↔ s.phase x.pid = .starting
  fail : x.status = .fail ↔ g.load x.pid = some false
  notOrphan : x.status ≠ .orphan
  leaves : g.load x.pid = some false → (s.phase x.pid).Leaves
  sema : x.sema + (s.phase t).downs x.pid = ups (g.load x.pid) (s.phase x.pid)
  exit : x.exit = g.exit x.pid
  executed : (s.phase t).Executes x.pid ∧ (t, x.pid) ∉ g.executed ∨
    ¬ (s.phase t).Executes x.pid ∧ g.load x.pid = some true ∧ (t, x.pid) ∈ g.executed
  reaped : (t, x.pid) ∉ g.reaped

/-- The pid in the record at an address. -/
def State.pidOf (s : State) (p : Ptr) : Option ℤ := (s.procs.lookup p).map (·.pid)

/-- The child a thread is busy with is one of its children. -/
def PhaseOk (s : State) (l : List Ptr) : Phase → Prop
  | .created c => ∃ p ∈ l, s.pidOf p = some c
  | .loading p c => p ∈ l ∧ s.pidOf p = some c
  | .checking p c => p ∈ l ∧ s.pidOf p = some c
  | .waiting p c => p ∈ l ∧ s.pidOf p = some c
  | .reaping p c => p ∈ l ∧ s.pidOf p = some c
  | _ => True

/-- What holds between two steps; `kids` are the children in the lists. -/
structure Inv (g : History) (s : State) (kids : ℤ → List Ptr) : Prop where
  family : Family s.links kids
  record : ∀ t, ∀ p ∈ kids t, ∃ x, s.procs.lookup p = some x ∧ Record g s t p x
  phases : ∀ t, PhaseOk s (kids t) (s.phase t)
  /-- The record of a thread that has not gone is in the list of its parent. -/
  owned : ∀ c p, s.proc c = some p → s.phase c ≠ .gone → ∃ t, p ∈ kids t ∧ s.pidOf p = some c
  /-- A child that has been returned and not reaped is in the list. -/
  held : ∀ t c, (t, c) ∈ g.executed → (t, c) ∉ g.reaped → ∃ p ∈ kids t, s.pidOf p = some c
  signals : ∀ c, s.phase c = .signalling → ∃ p, s.proc c = some p
  nextTid : 1 ≤ s.nextTid
  absent : ∀ c, s.nextTid ≤ c → s.phase c = .absent ∧ s.proc c = none ∧ kids c = []
  fresh : ∀ c, s.nextTid ≤ c → g.load c = none ∧ g.exit c = -1 ∧
    ∀ t, (t, c) ∉ g.executed ∧ (t, c) ∉ g.reaped
  panic : s.panic = false

/-- A record that keeps its status does not depend on what happens to other threads,
except for what its semaphore counts. -/
theorem Record.update (h : Record g s t p x) (hpid : x'.pid = x.pid)
    (hstatus : x'.status = x.status)
    (hsema : x'.sema + (s'.phase t).downs x.pid = x.sema + (s.phase t).downs x.pid)
    (hproc : s'.proc x.pid = s.proc x.pid) (hchild : (s.phase x.pid).Moves (s'.phase x.pid))
    (hexec : (s'.phase t).Executes x.pid ↔ (s.phase t).Executes x.pid)
    (hload : g'.load x.pid = g.load x.pid) (hexit : x'.exit = g'.exit x.pid)
    (hexecuted : (t, x.pid) ∈ g'.executed ↔ (t, x.pid) ∈ g.executed)
    (hreaped : (t, x.pid) ∈ g'.reaped ↔ (t, x.pid) ∈ g.reaped) : Record g' s' t p x' where
  pid := by
    rw [hpid]
    exact h.pid
  proc := by
    rw [hpid]
    exact hproc.trans h.proc
  present := by
    rw [hpid]
    exact fun habsent => h.present (hchild.absent.mp habsent)
  load := by
    rw [hpid, hload, h.load, hchild.starting]
  fail := by
    rw [hpid, hstatus, hload]
    exact h.fail
  notOrphan := by
    rw [hstatus]
    exact h.notOrphan
  leaves := by
    rw [hpid, hload]
    exact fun hl => hchild.leaves (h.leaves hl)
  sema := by
    -- the balance of the semaphore: its ups are counted by the phase of the child
    have hups : ups (g.load x.pid) (s'.phase x.pid) = ups (g.load x.pid) (s.phase x.pid) := by
      unfold ups
      simp only [hchild.gone]
    rw [hpid, hload, hsema, hups]
    exact h.sema
  exit := by
    rw [hpid]
    exact hexit
  executed := by
    rw [hpid, hexec, hexecuted, hload]
    exact h.executed
  reaped := by
    rw [hpid, hreaped]
    exact h.reaped

/-- A record does not depend on what happens to other threads. -/
theorem Record.congr (h : Record g s t p x) (hproc : s'.proc x.pid = s.proc x.pid)
    (hchild : (s.phase x.pid).Moves (s'.phase x.pid))
    (hdowns : (s'.phase t).downs x.pid = (s.phase t).downs x.pid)
    (hexec : (s'.phase t).Executes x.pid ↔ (s.phase t).Executes x.pid)
    (hload : g'.load x.pid = g.load x.pid) (hexit : g'.exit x.pid = g.exit x.pid)
    (hexecuted : (t, x.pid) ∈ g'.executed ↔ (t, x.pid) ∈ g.executed)
    (hreaped : (t, x.pid) ∈ g'.reaped ↔ (t, x.pid) ∈ g.reaped) : Record g' s' t p x := by
  refine h.update rfl rfl ?_ hproc hchild hexec hload ?_ hexecuted hreaped
  · rw [hdowns]
  · rw [hexit]
    exact h.exit

/-- The record of a child in the list of `t`. -/
theorem Inv.child (h : Inv g s kids) (hp : p ∈ kids t) (hpc : s.pidOf p = some c) :
    ∃ x, s.procs.lookup p = some x ∧ x.pid = c ∧ Record g s t p x := by
  obtain ⟨x, hx, hr⟩ := h.record t p hp
  unfold State.pidOf at hpc
  rw [hx] at hpc
  exact ⟨x, hx, Option.some.inj hpc, hr⟩

/-- Two records with the same pid are one. -/
theorem Inv.unique (h : Inv g s kids) (hp : p ∈ kids t) (hq : q ∈ kids u)
    (hpc : s.pidOf p = some c) (hqc : s.pidOf q = some c) : p = q := by
  obtain ⟨x, -, rfl, hr⟩ := h.child hp hpc
  obtain ⟨x', -, heq, hr'⟩ := h.child hq hqc
  have hproc := hr'.proc
  rw [heq] at hproc
  exact Option.some.inj (hr.proc.symm.trans hproc)

/-! ## Steps that keep the lists -/

theorem PhaseOk.congr {l : List Ptr} (hpid : ∀ p ∈ l, s'.pidOf p = s.pidOf p)
    (h : PhaseOk s l y) : PhaseOk s' l y := by
  unfold PhaseOk at h ⊢
  split at h
  · obtain ⟨p, hp, hc⟩ := h
    exact ⟨p, hp, (hpid p hp).trans hc⟩
  · exact ⟨h.1, (hpid _ h.1).trans h.2⟩
  · exact ⟨h.1, (hpid _ h.1).trans h.2⟩
  · exact ⟨h.1, (hpid _ h.1).trans h.2⟩
  · exact ⟨h.1, (hpid _ h.1).trans h.2⟩
  · trivial

theorem Inv.pid_lt (h : Inv g s kids) (hr : Record g s t p x) : x.pid < s.nextTid := by
  by_contra hle
  exact hr.present (h.absent x.pid (by omega)).1

/-- A thread moves on in a way that no record shows. -/
theorem Inv.move (h : Inv g s kids) (hpresent : s.phase u ≠ .absent)
    (hmoves : s.proc u ≠ none → (s.phase u).Moves y)
    (hdowns : ∀ d, y.downs d = (s.phase u).downs d)
    (hexec : ∀ d, y.Executes d ↔ (s.phase u).Executes d) (hok : PhaseOk s (kids u) y)
    (hsignals : y = .signalling → ∃ p, s.proc u = some p) : Inv g (s.setPhase u y) kids := by
  -- a thread that has a record
  have hchild : ∀ c, s.proc c ≠ none → (s.phase c).Moves ((s.setPhase u y).phase c) := by
    intro c hc
    by_cases hcu : c = u
    · subst hcu
      exact moves_update (hmoves hc) c
    · have hsame : (s.setPhase u y).phase c = s.phase c := Function.update_of_ne hcu ..
      rw [hsame]
      exact .refl _
  have hphase : ∀ v, (s.setPhase u y).phase v = if v = u then y else s.phase v :=
    fun v => Function.update_apply ..
  constructor
  case family => exact h.family
  case record =>
    intro t p hp
    obtain ⟨x, hx, hr⟩ := h.record t p hp
    have hsome : s.proc x.pid ≠ none := by
      rw [hr.proc]
      exact Option.some_ne_none p
    refine ⟨x, hx, hr.congr rfl (hchild x.pid hsome) ?_ ?_ rfl rfl Iff.rfl Iff.rfl⟩
    · rw [hphase]
      split
      · rename_i ht
        rw [ht, hdowns]
      · rfl
    · rw [hphase]
      split
      · rename_i ht
        rw [ht, hexec]
      · exact Iff.rfl
  case phases =>
    intro t
    show PhaseOk s (kids t) ((s.setPhase u y).phase t)
    rw [hphase]
    split
    · rename_i ht
      rw [ht]
      exact hok
    · exact h.phases t
  case owned =>
    intro c p hproc hne
    have hsome : s.proc c ≠ none := by
      rw [show s.proc c = some p from hproc]
      exact Option.some_ne_none p
    exact h.owned c p hproc fun hold => hne ((hchild c hsome).gone.mpr hold)
  case held => exact h.held
  case signals =>
    intro c hc
    rw [hphase] at hc
    split at hc
    · rename_i hcu
      obtain ⟨p, hp⟩ := hsignals hc
      exact ⟨p, hcu ▸ hp⟩
    · exact h.signals c hc
  case nextTid => exact h.nextTid
  case absent =>
    intro c hc
    obtain ⟨habsent, hproc, hkids⟩ := h.absent c hc
    refine ⟨?_, hproc, hkids⟩
    rw [hphase]
    split
    · rename_i hcu
      exact absurd (hcu ▸ habsent) hpresent
    · exact habsent
  case fresh => exact h.fresh
  case panic => exact h.panic

/-- The history changes for child `c` only. -/
structure OnlyFor (c : ℤ) (g g' : History) : Prop where
  load : ∀ d, d ≠ c → g'.load d = g.load d
  exit : ∀ d, d ≠ c → g'.exit d = g.exit d
  executed : ∀ t d, d ≠ c → ((t, d) ∈ g'.executed ↔ (t, d) ∈ g.executed)
  reaped : ∀ t d, d ≠ c → ((t, d) ∈ g'.reaped ↔ (t, d) ∈ g.reaped)

theorem OnlyFor.refl (c : ℤ) (g : History) : OnlyFor c g g :=
  ⟨fun _ _ => rfl, fun _ _ => rfl, fun _ _ _ => Iff.rfl, fun _ _ _ => Iff.rfl⟩

/-- Nothing happens to a thread that is not the child. -/
theorem OnlyFor.fresh (hhist : OnlyFor c g g') (hd : d ≠ c)
    (h : g.load d = none ∧ g.exit d = -1 ∧ ∀ t, (t, d) ∉ g.executed ∧ (t, d) ∉ g.reaped) :
    g'.load d = none ∧ g'.exit d = -1 ∧ ∀ t, (t, d) ∉ g'.executed ∧ (t, d) ∉ g'.reaped := by
  obtain ⟨hload, hexit, hpairs⟩ := h
  refine ⟨(hhist.load d hd).trans hload, (hhist.exit d hd).trans hexit, fun v => ⟨?_, ?_⟩⟩
  · rw [hhist.executed v d hd]
    exact (hpairs v).1
  · rw [hhist.reaped v d hd]
    exact (hpairs v).2

/-- What a step of thread `u` does that changes the record at `p`. -/
structure Changes (s : State) (u : ℤ) (p : Ptr) (x' : Process) (y : Phase) (s' : State) :
    Prop where
  links : s'.links = s.links
  proc : s'.proc = s.proc
  nextTid : s'.nextTid = s.nextTid
  panic : s'.panic = s.panic
  phase : s'.phase = Function.update s.phase u y
  lookup : s'.procs.lookup p = some x'
  others : ∀ q, q ≠ p → s'.procs.lookup q = s.procs.lookup q

theorem changes_set : Changes s u p x' y ((s.setProcess p x').setPhase u y) where
  links := rfl
  proc := rfl
  nextTid := rfl
  panic := rfl
  phase := rfl
  lookup := AList.lookup_insert _
  others := fun _ hq => AList.lookup_insert_ne hq

theorem Changes.phase_apply (hc : Changes s u p x' y s') (v : ℤ) :
    s'.phase v = if v = u then y else s.phase v := by
  rw [hc.phase]
  exact Function.update_apply ..

/-- Records keep their pids. -/
theorem Changes.pidOf (hc : Changes s u p x' y s') (hx : s.procs.lookup p = some x)
    (hpid : x'.pid = x.pid) (q : Ptr) : s'.pidOf q = s.pidOf q := by
  unfold State.pidOf
  by_cases hq : q = p
  · subst hq
    rw [hc.lookup, hx]
    exact congrArg some hpid
  · rw [hc.others q hq]

/-- The other threads move on. -/
theorem Changes.moves (hc : Changes s u p x' y s') (hu : u = c ∨ (s.phase u).Moves y) {d : ℤ}
    (hd : d ≠ c) : (s.phase d).Moves (s'.phase d) := by
  rw [hc.phase_apply]
  split
  · rename_i hdu
    subst hdu
    exact hu.resolve_left hd
  · exact .refl _

/-- The record of another child. -/
theorem Record.change {z : Process} (hr : Record g s t q z) (hc : Changes s u p x' y s')
    (hu : u = c ∨ (s.phase u).Moves y) (hne : z.pid ≠ c)
    (hdowns : y.downs z.pid = (s.phase u).downs z.pid)
    (hexec : y.Executes z.pid ↔ (s.phase u).Executes z.pid) (hhist : OnlyFor c g g') :
    Record g' s' t q z := by
  refine hr.congr (congrFun hc.proc _) (hc.moves hu hne) ?_ ?_ (hhist.load _ hne)
    (hhist.exit _ hne) (hhist.executed _ _ hne) (hhist.reaped _ _ hne)
  · rw [hc.phase_apply]
    split
    · rename_i ht
      rw [ht, hdowns]
    · rfl
  · rw [hc.phase_apply]
    split
    · rename_i ht
      rw [ht, hexec]
    · exact Iff.rfl

theorem Inv.change (h : Inv g s kids) (hp : p ∈ kids t) (hx : s.procs.lookup p = some x)
    (hc : Changes s u p x' y s') (hpid : x'.pid = x.pid) (hrecord : Record g' s' t p x')
    (hu : u = x.pid ∨ (s.phase u).Moves y) (hgone : s.phase x.pid = .gone → s'.phase x.pid = .gone)
    (hdowns : ∀ d, d ≠ x.pid → y.downs d = (s.phase u).downs d)
    (hexec : ∀ d, d ≠ x.pid → (y.Executes d ↔ (s.phase u).Executes d))
    (hhist : OnlyFor x.pid g g') (hok : PhaseOk s (kids u) y)
    (hsignals : y = .signalling → ∃ q, s.proc u = some q)
    (hexecuted : ∀ v, (v, x.pid) ∈ g'.executed → (v, x.pid) ∉ g'.reaped →
      (v, x.pid) ∈ g.executed ∧ (v, x.pid) ∉ g.reaped ∨ v = t) : Inv g' s' kids := by
  have hpidOf : ∀ q, s'.pidOf q = s.pidOf q := hc.pidOf hx hpid
  have hpx : s.pidOf p = some x.pid := by
    unfold State.pidOf
    rw [hx]
    rfl
  obtain ⟨x₀, hx₀, hr₀⟩ := h.record t p hp
  obtain rfl : x₀ = x := Option.some.inj (hx₀.symm.trans hx)
  have hlt := h.pid_lt hr₀
  constructor
  case family =>
    rw [hc.links]
    exact h.family
  case record =>
    intro v q hq
    by_cases hqp : q = p
    · subst hqp
      rw [h.family.apart v t q hq hp]
      exact ⟨x', hc.lookup, hrecord⟩
    · obtain ⟨z, hz, hrz⟩ := h.record v q hq
      have hne : z.pid ≠ x₀.pid := by
        intro heq
        refine hqp (h.unique hq hp ?_ hpx)
        unfold State.pidOf
        rw [hz, ← heq]
        rfl
      exact ⟨z, (hc.others q hqp).trans hz,
        hrz.change hc hu hne (hdowns _ hne) (hexec _ hne) hhist⟩
  case phases =>
    intro v
    refine PhaseOk.congr (s := s) (fun q _ => hpidOf q) ?_
    rw [hc.phase_apply]
    split
    · rename_i hv
      rw [hv]
      exact hok
    · exact h.phases v
  case owned =>
    intro c q hproc hne
    rw [hc.proc] at hproc
    have hstays : s.phase c ≠ .gone := by
      intro hold
      apply hne
      by_cases hcx : c = x₀.pid
      · subst hcx
        exact hgone hold
      · exact (hc.moves hu hcx).gone.mpr hold
    obtain ⟨v, hv, hvc⟩ := h.owned c q hproc hstays
    exact ⟨v, hv, (hpidOf q).trans hvc⟩
  case held =>
    intro v c hex hre
    have hold : ∃ q ∈ kids v, s.pidOf q = some c := by
      by_cases hcx : c = x₀.pid
      · subst hcx
        rcases hexecuted v hex hre with ⟨hex', hre'⟩ | rfl
        · exact h.held v _ hex' hre'
        · exact ⟨p, hp, hpx⟩
      · exact h.held v c ((hhist.executed v c hcx).mp hex)
          fun hre' => hre ((hhist.reaped v c hcx).mpr hre')
    obtain ⟨q, hq, hqc⟩ := hold
    exact ⟨q, hq, (hpidOf q).trans hqc⟩
  case signals =>
    intro c hsig
    rw [hc.proc]
    rw [hc.phase_apply] at hsig
    split at hsig
    · rename_i hcu
      exact hcu ▸ hsignals hsig
    · exact h.signals c hsig
  case nextTid =>
    rw [hc.nextTid]
    exact h.nextTid
  case absent =>
    intro c hle
    rw [hc.nextTid] at hle
    obtain ⟨habsent, hproc, hkids⟩ := h.absent c hle
    rw [hc.proc]
    exact ⟨(hc.moves hu (by omega)).absent.mpr habsent, hproc, hkids⟩
  case fresh =>
    intro c hle
    rw [hc.nextTid] at hle
    have hcx : c ≠ x₀.pid := by omega
    exact hhist.fresh hcx (h.fresh c hle)
  case panic =>
    rw [hc.panic]
    exact h.panic

end Pintos.Wait
