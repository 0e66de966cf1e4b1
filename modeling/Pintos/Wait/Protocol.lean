import Pintos.Wait.Steps

/-! # The protocol of `process_execute` and `process_wait`

In a run in which nobody waits for the pid 0 and nobody leaves with children, the
calls return what they promise. A wait for the pid 0 finds the sentinel of the list.
-/

namespace Pintos.Wait

open Intrusive
open Vm (Ptr)

variable {s s' s₀ : State} {g : History} {kids : ℤ → List Ptr} {t c tid : ℤ} {p : Ptr}
  {a : Event} {as : List Event} {act : Act} {r : Option ℤ}

/-- A wait is not for the pid 0, and a process that leaves has no children. -/
def Fine (s : State) : Act → Prop
  | .wait _ tid => tid ≠ 0
  | .orphans c => s.links.next (children c).head = some (children c).tail
  | _ => True

instance (s : State) (act : Act) : Decidable (Fine s act) := by
  cases act <;> unfold Fine <;> infer_instance

/-! ## Every step -/

theorem Inv.perform_down (h : Inv g s kids) (hp : perform s (.down t c) = some (s', r)) :
    r = none ∧ Inv g s' kids := by
  have hphase : ∃ p, s.phase t = .loading p c ∨ s.phase t = .waiting p c := by
    unfold perform at hp
    dsimp only at hp
    split at hp
    · rename_i p d hd
      split at hp
      · rename_i hdc
        exact ⟨p, .inl (hdc ▸ hd)⟩
      · cases hp
    · rename_i p d hd
      split at hp
      · rename_i hdc
        exact ⟨p, .inr (hdc ▸ hd)⟩
      · cases hp
    · cases hp
  obtain ⟨p, hphase | hphase⟩ := hphase
  · rcases h.down_loading hphase with ⟨hno, -⟩ | ⟨s₁, hs₁, hinv⟩
    · rw [hno] at hp
      cases hp
    · rw [hs₁] at hp
      obtain ⟨rfl, rfl⟩ := Prod.mk.inj (Option.some.inj hp)
      exact ⟨rfl, hinv⟩
  · rcases h.down_waiting hphase with ⟨hno, -⟩ | ⟨s₁, hs₁, hinv⟩
    · rw [hno] at hp
      cases hp
    · rw [hs₁] at hp
      obtain ⟨rfl, rfl⟩ := Prod.mk.inj (Option.some.inj hp)
      exact ⟨rfl, hinv⟩

/-- The thread that ends a call has been in it. -/
theorem phase_of_check (hp : perform s (.check t c) = some (s', r)) :
    ∃ p, s.phase t = .checking p c := by
  unfold perform at hp
  dsimp only at hp
  split at hp
  · rename_i p d hd
    split at hp
    · rename_i hdc
      exact ⟨p, hdc ▸ hd⟩
    · cases hp
  · cases hp

theorem phase_of_reap (hp : perform s (.reap t c) = some (s', r)) :
    ∃ p, s.phase t = .reaping p c := by
  unfold perform at hp
  dsimp only at hp
  split at hp
  · rename_i p d hd
    split at hp
    · rename_i hdc
      exact ⟨p, hdc ▸ hd⟩
    · cases hp
  · cases hp

/-- Steps whose condition is a phase. -/
theorem phase_of_perform (hp : perform s act = some (s', r)) :
    match act with
    | .find t c => s.phase t = .created c
    | .wait t _ => s.phase t = .user
    | .kill c => s.phase c = .user
    | .orphans c => s.phase c = .exiting
    | .finish c => s.phase c = .orphaned
    | .signal c => s.phase c = .signalling
    | _ => True := by
  cases act with
  | execute | down | check | reap | load | exit => trivial
  | find | wait | kill | orphans | finish | signal =>
      unfold perform at hp
      dsimp only at hp
      split at hp
      · rename_i hphase
        exact hphase
      · cases hp

/-- A step has the one result that is known of it. -/
theorem kept_of_result {s₁ : State} {r₁ : Option ℤ} (hs : perform s act = some (s₁, r₁))
    (hinv : Inv (g.add (act, r₁)) s₁ kids) (hp : perform s act = some (s', r)) :
    ∃ kids', Inv (g.add (act, r)) s' kids' := by
  rw [hs] at hp
  obtain ⟨rfl, rfl⟩ := Prod.mk.inj (Option.some.inj hp)
  exact ⟨kids, hinv⟩

/-- The invariant is kept by every step. -/
theorem Inv.perform (h : Inv g s kids) (hfine : Fine s act)
    (hp : perform s act = some (s', r)) : ∃ kids', Inv (g.add (act, r)) s' kids' := by
  have hphase := phase_of_perform hp
  cases act with
  | execute t cmd env => exact (h.execute hp).1
  | find t c =>
      obtain ⟨p, hs₁, hinv⟩ := h.find hphase
      exact kept_of_result hs₁ hinv hp
  | down t c =>
      obtain ⟨rfl, hinv⟩ := h.perform_down hp
      exact ⟨kids, hinv⟩
  | check t c =>
      obtain ⟨p, hchecking⟩ := phase_of_check hp
      obtain ⟨kids', s₁, r₁, hs₁, hinv, -⟩ := h.check hchecking
      exact kept_of_result hs₁ hinv hp
  | wait t tid =>
      rcases h.wait hphase hfine with ⟨p, -, -, hs₁, hinv⟩ | ⟨-, hs₁⟩
      · exact kept_of_result hs₁ hinv hp
      · exact kept_of_result hs₁ h hp
  | reap t c =>
      obtain ⟨p, hreaping⟩ := phase_of_reap hp
      obtain ⟨kids', s₁, hs₁, hinv, -⟩ := h.reap hreaping
      exact kept_of_result hs₁ hinv hp
  | load c success => exact ⟨kids, h.load hp⟩
  | exit c status => exact ⟨kids, h.exit hp⟩
  | kill c => exact kept_of_result (if_pos hphase) (h.kill hphase) hp
  | orphans c =>
      obtain ⟨hs₁, hinv⟩ := h.orphans hphase hfine
      exact kept_of_result hs₁ hinv hp
  | finish c =>
      obtain ⟨s₁, hs₁, hinv⟩ := h.finish hphase
      exact kept_of_result hs₁ hinv hp
  | signal c =>
      obtain ⟨s₁, hs₁, hinv⟩ := h.signal hphase
      exact kept_of_result hs₁ hinv hp

theorem Start.inv (h : Start s) : Inv History.none s fun _ => [] where
  family := ⟨h.empty, fun _ _ _ hno => absurd hno List.not_mem_nil⟩
  record := fun _ _ hno => absurd hno List.not_mem_nil
  phases := by
    intro t
    rcases h.phase t with ht | ht
    · rw [ht]
      trivial
    · rw [ht]
      trivial
  owned := by
    intro c p hproc
    rw [h.proc] at hproc
    cases hproc
  held := fun _ _ hno => absurd hno List.not_mem_nil
  signals := by
    intro c hc
    rcases h.phase c with ht | ht
    · rw [ht] at hc
      cases hc
    · rw [ht] at hc
      cases hc
  nextTid := h.nextTid
  absent := fun c hc => ⟨h.absent c hc, h.proc c, rfl⟩
  fresh := fun _ _ => ⟨rfl, rfl, fun _ => ⟨List.not_mem_nil, List.not_mem_nil⟩⟩
  panic := h.panic

/-- A step that is fine. -/
def FineStep (s : State) (a : Event) (s' : State) : Prop := Step s a s' ∧ Fine s a.1

theorem inv_of_run (hstart : Start s₀) (hrun : Lts.Run FineStep s₀ as s) :
    ∃ kids, Inv (history as) s kids := by
  refine hrun.invariant_trace (P := fun as s => ∃ kids, Inv (history as) s kids)
    (fun as s a s' hstep hinv => ?_) ⟨_, hstart.inv⟩
  obtain ⟨kids, hinv⟩ := hinv
  rw [history_snoc]
  exact hinv.perform hstep.2 hstep.1.2

/-! ## What the calls promise -/

/-- The promises of the calls, in a state and with what has happened before; `kids` are
the records in the lists of children. -/
structure Promises (g : History) (s : State) (kids : ℤ → List Ptr) : Prop where
  lists : ∀ t, IsList s.links (children t) ((kids t).map .elem)
  panic : s.panic = false
  /-- `process_execute` of a command with a token gives an answer or a child to wait for. -/
  executes : ∀ t cmd env, s.phase t = .user → tokens (cmd.take (argsSize - 1)) ≠ [] →
    s.nextTid ≠ 2 ^ 31 - 1 → ∃ s' r, perform s (.execute t cmd env) = some (s', r) ∧
      (ExecuteFails env s t cmd ∧ r = some tidError ∨
        ¬ ExecuteFails env s t cmd ∧ r = none ∧ s'.phase t = .created s.nextTid)
  found : ∀ t c, s.phase t = .created c →
    ∃ s' p, perform s (.find t c) = some (s', none) ∧ s'.phase t = .loading p c
  /-- It goes on as soon as the child has been loaded or has left. -/
  loaded : ∀ t c p, s.phase t = .loading p c → g.load c = some true ∨ s.phase c = .gone →
    ∃ s', perform s (.down t c) = some (s', none)
  /-- It returns `TID_ERROR` exactly if the load has failed, else the tid. -/
  executed : ∀ t c p, s.phase t = .checking p c → ∃ s' r,
    perform s (.check t c) = some (s', some r) ∧
      (g.load c = some true ∧ r = c ∨ g.load c = some false ∧ r = tidError)
  /-- The first `process_wait` for a child looks at its record. -/
  waits : ∀ t c, s.phase t = .user → (t, c) ∈ g.executed → (t, c) ∉ g.reaped →
    ∃ s' p, perform s (.wait t c) = some (s', none) ∧ s'.phase t = .waiting p c
  /-- It goes on as soon as the child has left. -/
  ended : ∀ t c p, s.phase t = .waiting p c → s.phase c = .gone →
    ∃ s', perform s (.down t c) = some (s', none)
  /-- It returns what the child has passed to `exit`. -/
  reaped : ∀ t c p, s.phase t = .reaping p c → s.phase c = .gone ∧
    (t, c) ∈ g.executed ∧ (t, c) ∉ g.reaped ∧
    ∃ s', perform s (.reap t c) = some (s', some (g.exit c))
  /-- Any other `process_wait` returns -1 and changes nothing. -/
  notWaits : ∀ t tid, Fine s (.wait t tid) → s.phase t = .user →
    ¬ ((t, tid) ∈ g.executed ∧ (t, tid) ∉ g.reaped) →
    perform s (.wait t tid) = some (s, some (-1))
  notChild : ∀ t tid, Fine s (.wait t tid) → s.phase t = .user →
    (∀ p ∈ kids t, s.pidOf p ≠ some tid) → perform s (.wait t tid) = some (s, some (-1))
  /-- A process that leaves comes to its end. -/
  orphans : ∀ c, s.phase c = .exiting → Fine s (.orphans c) →
    ∃ s', perform s (.orphans c) = some (s', none) ∧ s'.phase c = .orphaned
  finishes : ∀ c, s.phase c = .orphaned → ∃ s', perform s (.finish c) = some (s', none)
  signals : ∀ c, s.phase c = .signalling → ∃ s', perform s (.signal c) = some (s', none)

/-- The children of a thread outside of the calls are those it has been returned and has
not reaped. -/
theorem Inv.mem_iff (h : Inv g s kids) (ht : s.phase t = .user) :
    (∃ p ∈ kids t, s.pidOf p = some c) ↔ (t, c) ∈ g.executed ∧ (t, c) ∉ g.reaped := by
  constructor
  · rintro ⟨p, hp, hpc⟩
    obtain ⟨x, -, rfl, hr⟩ := h.child hp hpc
    refine ⟨?_, hr.reaped⟩
    rcases hr.executed with hno | hyes
    · rw [ht] at hno
      exact hno.1.elim
    · exact hyes.2.2
  · rintro ⟨hex, hre⟩
    exact h.held t c hex hre

theorem tokenizeLoop_ne_zero (l : List (List Char)) (n : ℕ) : tokenizeLoop (n + 1) l ≠ some 0 := by
  induction l generalizing n with
  | nil => exact fun hno => absurd (Option.some.inj hno) (Nat.succ_ne_zero n)
  | cons x l ih =>
      unfold tokenizeLoop
      split
      · exact nofun
      · exact ih (n + 1)

theorem argumentTokenize_ne_zero {cmd : List Char} (h : tokens (cmd.take (argsSize - 1)) ≠ []) :
    argumentTokenize cmd ≠ some 0 := by
  unfold argumentTokenize
  cases hl : tokens (cmd.take (argsSize - 1)) with
  | nil => exact absurd hl h
  | cons x l =>
      unfold tokenizeLoop
      split
      · exact nofun
      · exact tokenizeLoop_ne_zero l 0

theorem Inv.executes {cmd : List Char} (h : Inv g s kids) (ht : s.phase t = .user)
    (hcmd : tokens (cmd.take (argsSize - 1)) ≠ []) (htid : s.nextTid ≠ 2 ^ 31 - 1) (env : Env) :
    ∃ s' r, Wait.perform s (.execute t cmd env) = some (s', r) := by
  unfold Wait.perform
  dsimp only
  rw [if_pos ht]
  unfold Wait.execute
  split
  · exact ⟨_, _, rfl⟩
  · split
    · exact ⟨_, _, rfl⟩
    · rename_i hzero
      exact absurd hzero (argumentTokenize_ne_zero hcmd)
    · -- the thread is created, or there is no memory
      have hcreate : ∃ o s₁, Wait.threadCreate env s t = some (o, s₁) := by
        unfold Wait.threadCreate
        split
        · exact ⟨_, _, rfl⟩
        · dsimp only
          split
          · exact ⟨_, _, rfl⟩
          · rename_i p hp
            have hfresh : p ∉ s.procs := by
              have hkept := (Option.filter_eq_some_iff.mp hp).2
              simpa using hkept
            obtain ⟨links, hpush, -⟩ := h.create ht hfresh
            rw [hpush]
            exact ⟨_, _, rfl⟩
      obtain ⟨o, s₁, hs₁⟩ := hcreate
      rw [hs₁]
      cases o with
      | none => exact ⟨_, _, rfl⟩
      | some c => exact ⟨_, _, rfl⟩

theorem Inv.promises (h : Inv g s kids) : Promises g s kids where
  lists := h.family.list
  panic := h.panic
  executes := by
    intro t cmd env ht hcmd htid
    obtain ⟨s', r, hp⟩ := h.executes ht hcmd htid env
    refine ⟨s', r, hp, (h.execute hp).2.imp ?_ id⟩
    exact fun hfail => ⟨hfail.1, hfail.2.1⟩
  found := by
    intro t c ht
    obtain ⟨p, hp, -⟩ := h.find ht
    exact ⟨_, p, hp, Function.update_self ..⟩
  loaded := by
    intro t c p ht hup
    rcases h.down_loading ht with ⟨-, hload, hgone⟩ | ⟨s', hs', -⟩
    · exact (hup.elim hload hgone).elim
    · exact ⟨s', hs'⟩
  executed := by
    intro t c p ht
    obtain ⟨-, s', r, hs', -, hr⟩ := h.check ht
    exact ⟨s', r, hs', hr⟩
  waits := by
    intro t c ht hex hre
    obtain ⟨p, hp, hpc⟩ := (h.mem_iff ht).mpr ⟨hex, hre⟩
    have hpos : c ≠ 0 := by
      obtain ⟨x, -, rfl, hr⟩ := h.child hp hpc
      exact (Int.ne_of_lt hr.pid).symm
    rcases h.wait ht hpos with ⟨q, -, -, hs', -⟩ | ⟨hnone, -⟩
    · exact ⟨_, q, hs', Function.update_self ..⟩
    · exact absurd hpc (hnone p hp)
  ended := by
    intro t c p ht hgone
    rcases h.down_waiting ht with ⟨-, hno⟩ | ⟨s', hs', -⟩
    · exact absurd hgone hno
    · exact ⟨s', hs'⟩
  reaped := by
    intro t c p ht
    obtain ⟨-, s', hs', -, hex, hre, hgone⟩ := h.reap ht
    exact ⟨hgone, hex, hre, s', hs'⟩
  notWaits := by
    intro t tid hfine ht hno
    rcases h.wait ht hfine with ⟨p, hp, hpc, -⟩ | ⟨-, hs'⟩
    · exact absurd ((h.mem_iff ht).mp ⟨p, hp, hpc⟩) hno
    · exact hs'
  notChild := by
    intro t tid hfine ht hno
    rcases h.wait ht hfine with ⟨p, hp, hpc, -⟩ | ⟨-, hs'⟩
    · exact absurd hpc (hno p hp)
    · exact hs'
  orphans := by
    intro c hc hfine
    exact ⟨_, (h.orphans hc hfine).1, Function.update_self ..⟩
  finishes := by
    intro c hc
    obtain ⟨s', hs', -⟩ := h.finish hc
    exact ⟨s', hs'⟩
  signals := by
    intro c hc
    obtain ⟨s', hs', -⟩ := h.signal hc
    exact ⟨s', hs'⟩

/-- As long as nobody waits for the pid 0 and nobody leaves with children, the calls keep
their promises, whatever the order of the steps. -/
theorem wait_protocol (hstart : Start s₀) (hrun : Lts.Run FineStep s₀ as s) :
    ∃ kids, Promises (history as) s kids := by
  obtain ⟨kids, hinv⟩ := inv_of_run hstart hrun
  exact ⟨kids, hinv.promises⟩

/-- A wait for the pid 0 takes the sentinel for a child. -/
theorem wait_zero_panics (hstart : Start s₀) (hrun : Lts.Run FineStep s₀ as s)
    (ht : s.phase t = .user) : perform s (.wait t 0) = some s.panics := by
  obtain ⟨kids, hinv⟩ := inv_of_run hstart hrun
  unfold perform
  dsimp only
  rw [if_pos ht, hinv.getChild_zero]

/-! ## Two runs -/

/-- One thread, which runs. -/
def lone : State where
  phase := fun t => if t = 1 then .user else .absent
  proc := fun _ => none
  procs := ∅
  links := ⟨fun | .tail t => some (.head t) | _ => none, fun | .head t => some (.tail t) | _ => none⟩
  nextTid := 2
  panic := false

theorem lone_start : Start lone where
  phase := fun t => by
    by_cases ht : t = 1
    · exact .inl (if_pos ht)
    · exact .inr (if_neg ht)
  proc := fun _ => rfl
  procs := rfl
  empty := fun t => ⟨by simp [Ends.nodes, children, listOf], ⟨rfl, rfl⟩, rfl, rfl⟩
  nextTid := by decide
  absent := fun t ht => if_neg (by
    have hle : (2 : ℤ) ≤ t := ht
    omega)
  panic := rfl

/-- A process without children waits for the pid 0. -/
theorem wait_protocol_broken : ¬ ∀ s₀ as s, Start s₀ → Lts.Run Step s₀ as s →
    ∀ (t tid : ℤ) (l : List Ptr), IsList s.links (children t) (l.map .elem) → s.phase t = .user →
      (∀ p ∈ l, s.pidOf p ≠ some tid) → perform s (.wait t tid) = some (s, some (-1)) := by
  intro hall
  have hsame := hall lone [] lone lone_start (.nil _) 1 0 [] (lone_start.empty 1) rfl
    fun _ hno => absurd hno List.not_mem_nil
  have hpanic : (perform lone (.wait 1 0)).map (fun r => r.1.panic) = some true := by
    decide +kernel
  rw [hsame] at hpanic
  cases hpanic

/-- Steps one after the other, with what they return; each of them is fine. -/
def steps (s : State) : List Act → Option (State × List Event)
  | [] => some (s, [])
  | act :: acts => do
      if s.panic = false ∧ Fine s act then
        let (s', r) ← perform s act
        let (s'', as) ← steps s' acts
        return (s'', (act, r) :: as)
      else none

theorem run_of_steps {acts : List Act} (h : steps s acts = some (s', as)) :
    Lts.Run FineStep s as s' := by
  induction acts generalizing s as with
  | nil =>
      obtain ⟨rfl, rfl⟩ := Prod.mk.inj (Option.some.inj h)
      exact .nil _
  | cons act acts ih =>
      unfold steps at h
      split at h
      · rename_i hfine
        obtain ⟨⟨s₁, r⟩, hp, h⟩ := Option.bind_eq_some_iff.mp h
        obtain ⟨⟨s₂, as₂⟩, hrest, h⟩ := Option.bind_eq_some_iff.mp h
        obtain ⟨rfl, rfl⟩ := Prod.mk.inj (Option.some.inj h)
        exact .cons ⟨⟨hfine.1, hp⟩, hfine.2⟩ (ih hrest)
      · cases h

/-- A child leaves with the status 7 before its parent waits for it, and the parent waits
twice. -/
def waitTwice : List Act :=
  [.execute 1 ['a'] ⟨true, true, some 100⟩, .find 1 2, .load 2 true, .down 1 2, .check 1 2,
    .exit 2 7, .orphans 2, .finish 2, .signal 2, .wait 1 2, .down 1 2, .reap 1 2, .wait 1 2]

theorem wait_protocol_run : ∃ as s kids, Lts.Run FineStep lone as s ∧
    Promises (history as) s kids ∧ (Act.check 1 2, some 2) ∈ as ∧ (Act.reap 1 2, some 7) ∈ as ∧
    (Act.wait 1 2, some (-1)) ∈ as := by
  have hrun : (steps lone waitTwice).map (fun r => decide ((Act.check 1 2, some 2) ∈ r.2 ∧
      (Act.reap 1 2, some 7) ∈ r.2 ∧ (Act.wait 1 2, some (-1)) ∈ r.2)) = some true := by
    decide +kernel
  obtain ⟨⟨s, as⟩, hs, hmem⟩ := Option.map_eq_some_iff.mp hrun
  obtain ⟨kids, hpromises⟩ := wait_protocol lone_start (run_of_steps hs)
  exact ⟨as, s, kids, run_of_steps hs, hpromises, of_decide_eq_true hmem⟩

end Pintos.Wait
