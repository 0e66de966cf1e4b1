import Pintos.Wait.Children

/-! # The steps keep the records

For every step, what it does in a state that satisfies the invariant, and that the
invariant holds afterwards.
-/

namespace Pintos.Wait

open Intrusive
open Vm (Ptr)

variable {s s' : State} {g g' : History} {kids : ℤ → List Ptr} {t c tid status : ℤ} {p : Ptr}
  {x x' : Process} {y z : Phase} {cmd : List Char} {env : Env} {r : Option ℤ} {success : Bool}

/-! ## What a record says -/

/-- A record whose parent has consumed the first signal. -/
theorem Record.loaded (hr : Record g s t p x) (hdowns : (s.phase t).downs x.pid = 1) :
    g.load x.pid = some true ∨ g.load x.pid = some false ∧ s.phase x.pid = .gone := by
  have hsema := hr.sema
  rw [hdowns] at hsema
  unfold ups at hsema
  by_cases hload : g.load x.pid = some true
  · exact .inl hload
  · right
    rw [if_neg hload] at hsema
    split at hsema
    · rename_i hgone
      refine ⟨?_, hgone⟩
      -- it has not stayed in `start_process`
      have hstarted : g.load x.pid ≠ none := by
        intro hnone
        have hstarting := hr.load.mp hnone
        rw [hgone] at hstarting
        cases hstarting
      obtain ⟨b, hb⟩ := Option.ne_none_iff_exists'.mp hstarted
      cases b with
      | true => exact absurd hb hload
      | false => exact hb
    · omega

/-- A record whose parent has consumed both signals. -/
theorem Record.ended (hr : Record g s t p x) (hdowns : (s.phase t).downs x.pid = 2) :
    g.load x.pid = some true ∧ s.phase x.pid = .gone := by
  have hsema := hr.sema
  rw [hdowns] at hsema
  unfold ups at hsema
  split at hsema
  · rename_i hload
    split at hsema
    · rename_i hgone
      exact ⟨hload, hgone⟩
    · omega
  · split at hsema <;> omega

/-- The semaphore has been upped for a parent that waits for the load. -/
theorem Record.signalled_load (hr : Record g s t p x) (hdowns : (s.phase t).downs x.pid = 0) :
    x.sema = 0 ↔ g.load x.pid ≠ some true ∧ s.phase x.pid ≠ .gone := by
  have hsema := hr.sema
  rw [hdowns] at hsema
  unfold ups at hsema
  split at hsema
  · rename_i hload
    constructor
    · omega
    · exact fun hno => absurd hload hno.1
  · rename_i hload
    split at hsema
    · rename_i hgone
      constructor
      · omega
      · exact fun hno => absurd hgone hno.2
    · rename_i hgone
      constructor
      · exact fun _ => ⟨hload, hgone⟩
      · omega

/-- The semaphore has been upped for a parent that waits for the end. -/
theorem Record.signalled_exit (hr : Record g s t p x) (hdowns : (s.phase t).downs x.pid = 1)
    (hload : g.load x.pid = some true) : x.sema = 0 ↔ s.phase x.pid ≠ .gone := by
  have hsema := hr.sema
  rw [hdowns] at hsema
  unfold ups at hsema
  rw [if_pos hload] at hsema
  split at hsema
  · rename_i hgone
    constructor
    · omega
    · exact fun hno => absurd hgone hno
  · rename_i hgone
    constructor
    · exact fun _ => hgone
    · omega

/-! ## `process_execute` -/

/-- What makes `process_execute` fail before it waits. -/
def ExecuteFails (env : Env) (s : State) (t : ℤ) (cmd : List Char) : Prop :=
  env.argsPage = false ∨ argumentTokenize cmd = none ∨
    ∃ s', threadCreate env s t = some (none, s')

theorem Inv.threadCreate (h : Inv g s kids) (ht : s.phase t = .user) {o : Option ℤ}
    (hc : threadCreate env s t = some (o, s')) :
    match o with
    | none => Inv g s' kids ∧ s'.phase = s.phase
    | some c => c = s.nextTid ∧ ∃ kids', Inv g (s'.setPhase t (.created c)) kids' := by
  unfold Wait.threadCreate at hc
  split at hc
  · obtain ⟨rfl, rfl⟩ := Prod.mk.inj (Option.some.inj hc)
    exact ⟨h, rfl⟩
  · split at hc
    · cases hc
    · dsimp only at hc
      split at hc
      · -- there is no memory for the record, and the tid is used up
        obtain ⟨rfl, rfl⟩ := Prod.mk.inj (Option.some.inj hc)
        refine ⟨⟨h.family, ?_, h.phases, h.owned, h.held, h.signals, ?_, ?_, ?_, h.panic⟩, rfl⟩
        · intro v q hq
          obtain ⟨x, hx, hr⟩ := h.record v q hq
          exact ⟨x, hx, hr.congr rfl (.refl _) rfl Iff.rfl rfl rfl Iff.rfl Iff.rfl⟩
        · have hpos := h.nextTid
          show 1 ≤ s.nextTid + 1
          omega
        · intro d hle
          have hle' : s.nextTid + 1 ≤ d := hle
          exact h.absent d (by omega)
        · intro d hle
          have hle' : s.nextTid + 1 ≤ d := hle
          exact h.fresh d (by omega)
      · rename_i p hp
        have hfresh : p ∉ s.procs := by
          have hkept := (Option.filter_eq_some_iff.mp hp).2
          simpa using hkept
        obtain ⟨links, hpush, hinv⟩ := h.create ht hfresh
        rw [hpush] at hc
        obtain ⟨rfl, rfl⟩ := Prod.mk.inj (Option.some.inj hc)
        exact ⟨rfl, _, hinv⟩

/-- `process_execute` up to its `sema_down`. -/
theorem Inv.execute (h : Inv g s kids)
    (hp : perform s (.execute t cmd env) = some (s', r)) :
    (∃ kids', Inv (g.add (.execute t cmd env, r)) s' kids') ∧
      (ExecuteFails env s t cmd ∧ r = some tidError ∧ s'.phase = s.phase ∨
        ¬ ExecuteFails env s t cmd ∧ r = none ∧ s'.phase t = .created s.nextTid) := by
  unfold perform at hp
  dsimp only at hp
  split at hp
  case isFalse => cases hp
  rename_i ht
  unfold Wait.execute at hp
  split at hp
  · rename_i hargs
    obtain ⟨rfl, rfl⟩ := Prod.mk.inj (Option.some.inj hp)
    exact ⟨⟨kids, h⟩, .inl ⟨.inl hargs, rfl, rfl⟩⟩
  · rename_i hargs
    split at hp
    · rename_i htokens
      obtain ⟨rfl, rfl⟩ := Prod.mk.inj (Option.some.inj hp)
      exact ⟨⟨kids, h⟩, .inl ⟨.inr (.inl htokens), rfl, rfl⟩⟩
    · cases hp
    · rename_i htokens
      -- a thread is created, unless there is no memory for it
      obtain ⟨⟨o, s₁⟩, hcreate, hp⟩ := Option.bind_eq_some_iff.mp hp
      have hinv := h.threadCreate ht hcreate
      cases o with
      | none =>
          obtain ⟨rfl, rfl⟩ := Prod.mk.inj (Option.some.inj hp)
          exact ⟨⟨kids, hinv.1⟩, .inl ⟨.inr (.inr ⟨s₁, hcreate⟩), rfl, hinv.2⟩⟩
      | some c =>
          obtain ⟨rfl, rfl⟩ := Prod.mk.inj (Option.some.inj hp)
          obtain ⟨rfl, hkids⟩ := hinv
          refine ⟨hkids, .inr ⟨?_, rfl, Function.update_self ..⟩⟩
          rintro (hno | hno | ⟨s₂, hno⟩)
          · exact hargs hno
          · rw [htokens] at hno
            cases hno
          · rw [hcreate] at hno
            cases hno

/-! ## The parent -/

/-- A phase that follows another one without a signal, and without a child being returned. -/
structure Phase.Glides (z y : Phase) : Prop where
  present : z ≠ .absent
  moves : z.Moves y
  downs : ∀ d, y.downs d = z.downs d
  executes : ∀ d, y.Executes d ↔ z.Executes d

theorem Inv.glide (h : Inv g s kids) (hphase : s.phase t = z) (hg : z.Glides y)
    (hok : PhaseOk s (kids t) y) (hsignals : y = .signalling → ∃ p, s.proc t = some p) :
    Inv g (s.setPhase t y) kids := by
  subst hphase
  exact h.move hg.present (fun _ => hg.moves) hg.downs hg.executes hok hsignals

/-- A parent goes on in the kernel. -/
theorem Phase.Moves.of_present (hz : z ≠ .absent ∧ z ≠ .starting ∧ z ≠ .gone)
    (hy : y ≠ .absent ∧ y ≠ .starting ∧ y ≠ .gone) (hleaves : z.Leaves → y.Leaves) : z.Moves y where
  absent := iff_of_false hy.1 hz.1
  starting := iff_of_false hy.2.1 hz.2.1
  gone := iff_of_false hy.2.2 hz.2.2
  leaves := hleaves

theorem Inv.find (h : Inv g s kids) (hphase : s.phase t = .created c) :
    ∃ p, perform s (.find t c) = some (s.setPhase t (.loading p c), none) ∧
      Inv g (s.setPhase t (.loading p c)) kids := by
  have hok := h.phases t
  rw [hphase] at hok
  obtain ⟨p, hp, hpc⟩ := hok
  refine ⟨p, ?_, ?_⟩
  · unfold perform
    dsimp only
    rw [if_pos hphase, h.getChild_child hp hpc]
  · exact h.glide hphase
      ⟨nofun, .of_present ⟨nofun, nofun, nofun⟩ ⟨nofun, nofun, nofun⟩ id, fun _ => rfl,
        fun _ => Iff.rfl⟩ ⟨hp, hpc⟩ nofun

/-- A parent downs the semaphore of a child. -/
theorem Inv.downed (h : Inv g s kids) (hp : p ∈ kids t) (hx : s.procs.lookup p = some x)
    (hr : Record g s t p x) (hsema : x.sema ≠ 0) (hphase : s.phase t = z) (hmoves : z.Moves y)
    (hdowns : y.downs x.pid = z.downs x.pid + 1)
    (hothers : ∀ d, d ≠ x.pid → y.downs d = z.downs d)
    (hexec : ∀ d, y.Executes d ↔ z.Executes d) (hok : PhaseOk s (kids t) y)
    (hsignals : y ≠ .signalling) :
    Inv g ((s.setProcess p { x with sema := x.sema - 1 }).setPhase t y) kids := by
  subst hphase
  set s' := (s.setProcess p { x with sema := x.sema - 1 }).setPhase t y with hs'
  have hy : s'.phase t = y := Function.update_self ..
  refine h.change hp hx changes_set rfl ?_ (.inr hmoves) ?_ hothers (fun d _ => hexec d)
    (.refl _ g) hok (fun hno => absurd hno hsignals) (fun v hex hre => .inl ⟨hex, hre⟩)
  · refine hr.update rfl rfl ?_ rfl (moves_update hmoves x.pid) ?_ rfl hr.exit Iff.rfl Iff.rfl
    · rw [hy, hdowns]
      show x.sema - 1 + _ = _
      omega
    · rw [hy]
      exact hexec x.pid
  · exact (moves_update hmoves x.pid).gone.mpr

/-- The `sema_down` of `process_execute` blocks until the child has been loaded or has
left. -/
theorem Inv.down_loading (h : Inv g s kids) (hphase : s.phase t = .loading p c) :
    perform s (.down t c) = none ∧ g.load c ≠ some true ∧ s.phase c ≠ .gone ∨
      ∃ s', perform s (.down t c) = some (s', none) ∧ Inv g s' kids := by
  have hok := h.phases t
  rw [hphase] at hok
  obtain ⟨hp, hpc⟩ := hok
  obtain ⟨x, hx, rfl, hr⟩ := h.child hp hpc
  have hperform : perform s (.down t x.pid) = if x.sema = 0 then none else
      some ((s.setProcess p { x with sema := x.sema - 1 }).setPhase t (.checking p x.pid), none) := by
    unfold perform
    dsimp only
    rw [hphase]
    dsimp only
    rw [if_pos rfl, hx]
  have hdowns : (s.phase t).downs x.pid = 0 := by
    rw [hphase]
    exact if_pos rfl
  rw [hperform]
  by_cases hsema : x.sema = 0
  · rw [if_pos hsema]
    exact .inl ⟨rfl, (hr.signalled_load hdowns).mp hsema⟩
  · rw [if_neg hsema]
    have hone : (1 : ℕ) = (Phase.loading p x.pid).downs x.pid + 1 :=
      congrArg (· + 1) (if_pos rfl).symm
    exact .inr ⟨_, rfl, h.downed hp hx hr hsema hphase
      (.of_present ⟨nofun, nofun, nofun⟩ ⟨nofun, nofun, nofun⟩ id) hone
      (fun d hd => (if_neg hd.symm).symm) (fun _ => Iff.rfl) ⟨hp, hpc⟩ nofun⟩

/-- The `sema_down` of `process_wait` blocks until the child has left. -/
theorem Inv.down_waiting (h : Inv g s kids) (hphase : s.phase t = .waiting p c) :
    perform s (.down t c) = none ∧ s.phase c ≠ .gone ∨
      ∃ s', perform s (.down t c) = some (s', none) ∧ Inv g s' kids := by
  have hok := h.phases t
  rw [hphase] at hok
  obtain ⟨hp, hpc⟩ := hok
  obtain ⟨x, hx, rfl, hr⟩ := h.child hp hpc
  have hperform : perform s (.down t x.pid) = if x.sema = 0 then none else
      some ((s.setProcess p { x with sema := x.sema - 1 }).setPhase t (.reaping p x.pid), none) := by
    unfold perform
    dsimp only
    rw [hphase]
    dsimp only
    rw [if_pos rfl, hx]
  have hdowns : (s.phase t).downs x.pid = 1 := by
    rw [hphase]
    rfl
  have hload : g.load x.pid = some true := by
    rcases hr.executed with hno | hyes
    · rw [hphase] at hno
      exact hno.1.elim
    · exact hyes.2.1
  rw [hperform]
  by_cases hsema : x.sema = 0
  · rw [if_pos hsema]
    exact .inl ⟨rfl, (hr.signalled_exit hdowns hload).mp hsema⟩
  · rw [if_neg hsema]
    exact .inr ⟨_, rfl, h.downed hp hx hr hsema hphase
      (.of_present ⟨nofun, nofun, nofun⟩ ⟨nofun, nofun, nofun⟩ id) (if_pos rfl)
      (fun d hd => if_neg hd.symm) (fun _ => Iff.rfl) ⟨hp, hpc⟩ nofun⟩

/-- The record of a child that has been loaded, as the call of its parent ends. -/
theorem Record.returned (hr : Record g s t p x) (hdowns : (s.phase t).downs x.pid = 1)
    (hmoves : (s.phase t).Moves .user) (hload : g.load x.pid = some true) :
    Record { g with executed := (t, x.pid) :: g.executed } (s.setPhase t .user) t p x := by
  have hy : (s.setPhase t .user).phase t = .user := Function.update_self ..
  have hchild := moves_update hmoves x.pid
  constructor
  case pid => exact hr.pid
  case proc => exact hr.proc
  case present => exact fun hno => hr.present (hchild.absent.mp hno)
  case load =>
    rw [hchild.starting]
    exact hr.load
  case fail => exact hr.fail
  case notOrphan => exact hr.notOrphan
  case leaves => exact fun hl => hchild.leaves (hr.leaves hl)
  case sema =>
    have hsema := hr.sema
    rw [hdowns] at hsema
    rw [hy]
    show x.sema + 1 = ups (g.load x.pid) _
    unfold ups at hsema ⊢
    simp only [hchild.gone]
    exact hsema
  case exit => exact hr.exit
  case executed =>
    rw [hy]
    exact .inr ⟨id, hload, List.mem_cons_self⟩
  case reaped => exact hr.reaped

theorem OnlyFor.executing (g : History) (t c : ℤ) :
    OnlyFor c g { g with executed := (t, c) :: g.executed } where
  load := fun _ _ => rfl
  exit := fun _ _ => rfl
  executed := by
    intro v d hd
    rw [List.mem_cons, or_iff_right]
    exact fun heq => hd (Prod.mk.inj heq).2
  reaped := fun _ _ _ => Iff.rfl

/-- `process_execute` returns the child, or frees the record of one that was not
loaded. -/
theorem Inv.check (h : Inv g s kids) (hphase : s.phase t = .checking p c) :
    ∃ kids' s' r, perform s (.check t c) = some (s', some r) ∧
      Inv (g.add (.check t c, some r)) s' kids' ∧
      (g.load c = some true ∧ r = c ∨ g.load c = some false ∧ r = tidError) := by
  have hok := h.phases t
  rw [hphase] at hok
  obtain ⟨hp, hpc⟩ := hok
  obtain ⟨x, hx, rfl, hr⟩ := h.child hp hpc
  have hpos := hr.pid
  have hdowns : (s.phase t).downs x.pid = 1 := by
    rw [hphase]
    rfl
  have hnot : (t, x.pid) ∉ g.executed := by
    rcases hr.executed with hyes | hno
    · exact hyes.2
    · rw [hphase] at hno
      exact absurd rfl hno.1
  have hmoves : (s.phase t).Moves .user := by
    rw [hphase]
    exact ⟨by simp, by simp, by simp, id⟩
  rcases hr.loaded hdowns with hload | ⟨hload, hgone⟩
  · have hstatus : x.status ≠ .fail := by
      intro hfail
      rw [hr.fail.mp hfail] at hload
      cases hload
    refine ⟨kids, s.setPhase t .user, x.pid, ?_, ?_, .inl ⟨hload, rfl⟩⟩
    · unfold perform
      dsimp only
      rw [hphase]
      dsimp only
      rw [if_pos rfl, hx]
      dsimp only
      rw [if_neg hstatus]
    · have hadd : g.add (.check t x.pid, some x.pid) =
          { g with executed := (t, x.pid) :: g.executed } := if_pos rfl
      rw [hadd]
      have hchanges : Changes s t p x .user (s.setPhase t .user) :=
        ⟨rfl, rfl, rfl, rfl, rfl, hx, fun _ _ => rfl⟩
      refine h.change hp hx hchanges rfl (hr.returned hdowns hmoves hload)
        (.inr hmoves) (moves_update hmoves x.pid).gone.mpr (fun d _ => ?_) (fun d hd => ?_)
        (.executing g t x.pid) trivial nofun (fun v hex hre => ?_)
      · rw [hphase]
        rfl
      · rw [hphase]
        exact ⟨False.elim, fun heq => hd (Eq.symm heq)⟩
      · rcases List.mem_cons.mp hex with heq | hex
        · exact .inr (Prod.mk.inj heq).1
        · exact .inl ⟨hex, hre⟩
  · -- the load has failed, so the record is freed
    have hstatus : x.status = .fail := hr.fail.mpr hload
    obtain ⟨s₁, hfree, hinv⟩ := h.release hp hpc hphase
      (.of_present ⟨nofun, nofun, nofun⟩ ⟨nofun, nofun, nofun⟩ nofun) (fun _ _ => rfl)
      (fun d hd hex => hd (Eq.symm hex)) hgone (.refl _ g) (fun _ => rfl) (fun _ => rfl)
      (fun v hex hre => ⟨hex, hre, fun heq => hnot (heq ▸ hex)⟩)
    refine ⟨Function.update kids t ((kids t).erase p), s₁.setPhase t .user, tidError, ?_, ?_,
      .inr ⟨hload, rfl⟩⟩
    · unfold perform
      dsimp only
      rw [hphase]
      dsimp only
      rw [if_pos rfl, hx]
      dsimp only
      rw [if_pos hstatus, hfree]
      rfl
    · have hadd : g.add (.check t x.pid, some tidError) = g := by
        apply if_neg
        unfold tidError
        omega
      rw [hadd]
      exact hinv

/-- `process_wait` looks for the child. -/
theorem Inv.wait (h : Inv g s kids) (ht : s.phase t = .user) (htid : tid ≠ 0) :
    (∃ p ∈ kids t, s.pidOf p = some tid ∧
        perform s (.wait t tid) = some (s.setPhase t (.waiting p tid), none) ∧
        Inv g (s.setPhase t (.waiting p tid)) kids) ∨
      (∀ p ∈ kids t, s.pidOf p ≠ some tid) ∧ perform s (.wait t tid) = some (s, some (-1)) := by
  by_cases hchild : ∃ p ∈ kids t, s.pidOf p = some tid
  · obtain ⟨p, hp, hpc⟩ := hchild
    refine .inl ⟨p, hp, hpc, ?_, ?_⟩
    · unfold perform
      dsimp only
      rw [if_pos ht, h.getChild_child hp hpc]
    · exact h.glide ht
        ⟨nofun, .of_present ⟨nofun, nofun, nofun⟩ ⟨nofun, nofun, nofun⟩ id, fun _ => rfl,
          fun _ => Iff.rfl⟩ ⟨hp, hpc⟩ nofun
  · have hnone : ∀ p ∈ kids t, s.pidOf p ≠ some tid := by
      intro p hp hpc
      exact hchild ⟨p, hp, hpc⟩
    refine .inr ⟨hnone, ?_⟩
    unfold perform
    dsimp only
    rw [if_pos ht, h.getChild_none htid hnone]

/-- `process_wait` returns what the child has passed to `exit`, and frees its record. -/
theorem Inv.reap (h : Inv g s kids) (hphase : s.phase t = .reaping p c) :
    ∃ kids' s', perform s (.reap t c) = some (s', some (g.exit c)) ∧
      Inv (g.add (.reap t c, some (g.exit c))) s' kids' ∧
      (t, c) ∈ g.executed ∧ (t, c) ∉ g.reaped ∧ s.phase c = .gone := by
  have hok := h.phases t
  rw [hphase] at hok
  obtain ⟨hp, hpc⟩ := hok
  obtain ⟨x, hx, rfl, hr⟩ := h.child hp hpc
  have hdowns : (s.phase t).downs x.pid = 2 := by
    rw [hphase]
    exact if_pos rfl
  obtain ⟨-, hgone⟩ := hr.ended hdowns
  have hexecuted : (t, x.pid) ∈ g.executed := by
    rcases hr.executed with hno | hyes
    · rw [hphase] at hno
      exact hno.1.elim
    · exact hyes.2.2
  -- the history of other children stays
  have hother : ∀ (v d : ℤ), d ≠ x.pid →
      ((v, d) ∈ (t, x.pid) :: g.reaped ↔ (v, d) ∈ g.reaped) := by
    intro v d hd
    rw [List.mem_cons, or_iff_right]
    exact fun heq => hd (Prod.mk.inj heq).2
  have honly : OnlyFor x.pid g { g with reaped := (t, x.pid) :: g.reaped } :=
    ⟨fun _ _ => rfl, fun _ _ => rfl, fun _ _ _ => Iff.rfl, hother⟩
  -- the child is waited for once
  have hstill : ∀ v, (v, x.pid) ∈ g.executed → (v, x.pid) ∉ (t, x.pid) :: g.reaped →
      (v, x.pid) ∈ g.executed ∧ (v, x.pid) ∉ g.reaped ∧ v ≠ t := by
    intro v hex hre
    refine ⟨hex, fun hno => hre (List.mem_cons_of_mem _ hno), ?_⟩
    rintro rfl
    exact hre List.mem_cons_self
  obtain ⟨s₁, hfree, hinv⟩ :=
    h.release hp hpc hphase (.of_present ⟨nofun, nofun, nofun⟩ ⟨nofun, nofun, nofun⟩ nofun)
      (fun d hd => if_neg hd.symm) (fun _ _ => nofun) hgone honly (fun _ => rfl) (fun _ => rfl)
      hstill
  refine ⟨Function.update kids t ((kids t).erase p), s₁.setPhase t .user, ?_, hinv, hexecuted,
    hr.reaped, hgone⟩
  unfold perform
  dsimp only
  rw [hphase]
  dsimp only
  rw [if_pos rfl, hx]
  dsimp only
  rw [hfree, Option.map_some, hr.exit]

/-! ## The child -/

/-- What a child does to its own record as it goes from phase `z` to phase `y`. -/
structure OwnStep (g g' : History) (x x' : Process) (z y : Phase) : Prop where
  pid : x'.pid = x.pid
  running : z ≠ .gone
  present : y ≠ .absent
  load : g'.load x.pid = none ↔ y = .starting
  fail : x'.status = .fail ↔ g'.load x.pid = some false
  notOrphan : x'.status ≠ .orphan
  leaves : g'.load x.pid = some false → y.Leaves
  sema : x'.sema + ups (g.load x.pid) z = x.sema + ups (g'.load x.pid) y
  exit : x'.exit = g'.exit x.pid
  loaded : g.load x.pid = some true → g'.load x.pid = some true
  downs : ∀ d, y.downs d = z.downs d
  executes : ∀ d, y.Executes d ↔ z.Executes d
  others : ∀ d, d ≠ x.pid → g'.load d = g.load d ∧ g'.exit d = g.exit d
  executed : g'.executed = g.executed
  reaped : g'.reaped = g.reaped

theorem Inv.own (h : Inv g s kids) (hp : p ∈ kids t) (hx : s.procs.lookup p = some x)
    (hr : Record g s t p x) (hz : s.phase x.pid = z) (ho : OwnStep g g' x x' z y)
    (hok : PhaseOk s (kids x.pid) y) : Inv g' ((s.setProcess p x').setPhase x.pid y) kids := by
  subst hz
  set s' := (s.setProcess p x').setPhase x.pid y with hs'
  have hy : s'.phase x.pid = y := Function.update_self ..
  have hphase : ∀ v, s'.phase v = if v = x.pid then y else s.phase v :=
    fun v => Function.update_apply ..
  -- the step of the child is not a step of its parent
  have hdowns : ∀ d, (s'.phase t).downs d = (s.phase t).downs d := by
    intro d
    rw [hphase]
    split
    · rename_i ht
      rw [ht]
      exact ho.downs d
    · rfl
  have hexec : ∀ d, (s'.phase t).Executes d ↔ (s.phase t).Executes d := by
    intro d
    rw [hphase]
    split
    · rename_i ht
      rw [ht]
      exact ho.executes d
    · exact Iff.rfl
  have hrecord : Record g' s' t p x' := by
    refine ⟨?_, ?_, ?_, ?_, ?_, ho.notOrphan, ?_, ?_, ?_, ?_, ?_⟩
    all_goals rw [ho.pid]
    · exact hr.pid
    · exact hr.proc
    · rw [hy]
      exact ho.present
    · rw [hy]
      exact ho.load
    · exact ho.fail
    · rw [hy]
      exact ho.leaves
    · rw [hy, hdowns]
      have hsema := hr.sema
      have hown := ho.sema
      omega
    · exact ho.exit
    · rw [hexec, ho.executed]
      exact hr.executed.imp_right fun hright => ⟨hright.1, ho.loaded hright.2.1, hright.2.2⟩
    · rw [ho.reaped]
      exact hr.reaped
  refine h.change hp hx changes_set ho.pid hrecord (.inl rfl)
    (fun hgone => absurd hgone ho.running) (fun d _ => ho.downs d) (fun d _ => ho.executes d)
    ⟨fun d hd => (ho.others d hd).1, fun d hd => (ho.others d hd).2, fun v d _ => ?_,
      fun v d _ => ?_⟩ hok (fun _ => ⟨p, hr.proc⟩) (fun v hex hre => .inl ⟨?_, ?_⟩)
  · rw [ho.executed]
  · rw [ho.reaped]
  · rwa [ho.executed] at hex
  · rwa [ho.reaped] at hre

/-- The record of a thread that has not gone. -/
theorem Inv.ownRecord (h : Inv g s kids) (hproc : s.proc c = some p) (hphase : s.phase c = z)
    (hz : z ≠ .gone) :
    ∃ t x, p ∈ kids t ∧ s.procs.lookup p = some x ∧ x.pid = c ∧ Record g s t p x := by
  subst hphase
  obtain ⟨t, hp, hpc⟩ := h.owned c p hproc hz
  obtain ⟨x, hx, hxc, hr⟩ := h.child hp hpc
  exact ⟨t, x, hp, hx, hxc, hr⟩

/-- `start_process`. -/
theorem Inv.load (h : Inv g s kids) (hp : perform s (.load c success) = some (s', r)) :
    Inv (g.add (.load c success, r)) s' kids := by
  unfold perform at hp
  dsimp only at hp
  split at hp
  case isFalse => cases hp
  rename_i hphase
  obtain ⟨p, hproc, hp⟩ := Option.bind_eq_some_iff.mp hp
  obtain ⟨t, x, hkid, hx, rfl, hr⟩ := h.ownRecord hproc hphase nofun
  rw [hx] at hp
  dsimp only at hp
  have hload := hr.load.mpr hphase
  have hstatus : x.status ≠ .fail := by
    intro hfail
    rw [hr.fail.mp hfail] at hload
    cases hload
  -- only the load of this child is in the history now
  have hothers : ∀ (b : Bool) (d : ℤ), d ≠ x.pid →
      Function.update g.load x.pid (some b) d = g.load d ∧ g.exit d = g.exit d :=
    fun b d hd => ⟨Function.update_of_ne hd .., rfl⟩
  have hself : ∀ b : Bool, Function.update g.load x.pid (some b) x.pid = some b :=
    fun b => Function.update_self ..
  cases success with
  | true =>
      obtain ⟨rfl, rfl⟩ := Prod.mk.inj (Option.some.inj hp)
      refine h.own hkid hx hr hphase ⟨rfl, nofun, nofun, ?_, ?_, hr.notOrphan, ?_, ?_, hr.exit, ?_,
        fun _ => rfl, fun _ => Iff.rfl, hothers true, rfl, rfl⟩ trivial
      · simp [History.add]
      · simp [History.add, hstatus]
      · simp [History.add]
      · simp [History.add, hload, ups]
      · simp [History.add]
  | false =>
      obtain ⟨rfl, rfl⟩ := Prod.mk.inj (Option.some.inj hp)
      refine h.own hkid hx hr hphase ⟨rfl, nofun, nofun, ?_, ?_, nofun, fun _ => trivial, ?_, hr.exit,
        ?_, fun _ => rfl, fun _ => Iff.rfl, hothers false, rfl, rfl⟩ trivial
      · simp [History.add]
      · simp [History.add]
      · simp [History.add, hload, ups]
      · simp [hload]

/-- `exit`. -/
theorem Inv.exit (h : Inv g s kids) (hp : perform s (.exit c status) = some (s', r)) :
    Inv (g.add (.exit c status, r)) s' kids := by
  unfold perform at hp
  dsimp only at hp
  split at hp
  case isFalse => cases hp
  rename_i hphase
  obtain ⟨p, hproc, hp⟩ := Option.bind_eq_some_iff.mp hp
  obtain ⟨t, x, hkid, hx, rfl, hr⟩ := h.ownRecord hproc hphase nofun
  rw [hx] at hp
  obtain ⟨rfl, rfl⟩ := Prod.mk.inj (Option.some.inj hp)
  have hadd : g.add (.exit x.pid status, none) =
      { g with exit := Function.update g.exit x.pid status } := rfl
  rw [hadd]
  refine h.own hkid hx hr hphase ⟨rfl, nofun, nofun, ?_, hr.fail, hr.notOrphan, fun _ => trivial, ?_,
    ?_, id, fun _ => rfl, fun _ => Iff.rfl, fun d hd => ⟨rfl, Function.update_of_ne hd ..⟩, rfl,
    rfl⟩ trivial
  · have hload := hr.load
    rw [hphase] at hload
    simpa using hload
  · simp [ups]
  · exact (Function.update_self x.pid status g.exit).symm

/-- A process is killed. -/
theorem Inv.kill (h : Inv g s kids) (hphase : s.phase c = .user) :
    Inv g (s.setPhase c .exiting) kids := by
  exact h.glide hphase
    ⟨nofun, .of_present ⟨nofun, nofun, nofun⟩ ⟨nofun, nofun, nofun⟩ fun _ => trivial,
      fun _ => rfl, fun _ => Iff.rfl⟩ trivial nofun

/-- `process_exit` of a process without children leaves the loop at once. -/
theorem Inv.orphans (h : Inv g s kids) (hphase : s.phase c = .exiting)
    (hempty : s.links.next (children c).head = some (children c).tail) :
    perform s (.orphans c) = some (s.setPhase c .orphaned, none) ∧
      Inv g (s.setPhase c .orphaned) kids := by
  constructor
  · unfold perform
    dsimp only
    rw [if_pos hphase, if_pos hempty]
  · exact h.glide hphase
      ⟨nofun, .of_present ⟨nofun, nofun, nofun⟩ ⟨nofun, nofun, nofun⟩ fun _ => trivial,
        fun _ => rfl, fun _ => Iff.rfl⟩ trivial nofun

/-- `process_exit` up to its `sema_up`. -/
theorem Inv.finish (h : Inv g s kids) (hphase : s.phase c = .orphaned) :
    ∃ s', perform s (.finish c) = some (s', none) ∧ Inv g s' kids := by
  -- a thread without a record is gone at once, another one has still to signal
  have hmove : ∀ y : Phase, y = .signalling ∨ y = .gone ∧ s.proc c = none →
      (y = .signalling → ∃ p, s.proc c = some p) → Inv g (s.setPhase c y) kids := by
    intro y hy hsignals
    refine h.move ?_ ?_ ?_ ?_ ?_ hsignals
    · rw [hphase]
      exact nofun
    · intro hsome
      obtain rfl | ⟨-, hno⟩ := hy
      · rw [hphase]
        exact ⟨by simp, by simp, by simp, fun _ => trivial⟩
      · exact absurd hno hsome
    · intro d
      rw [hphase]
      obtain rfl | ⟨rfl, -⟩ := hy <;> rfl
    · intro d
      rw [hphase]
      obtain rfl | ⟨rfl, -⟩ := hy <;> exact Iff.rfl
    · obtain rfl | ⟨rfl, -⟩ := hy <;> trivial
  cases hproc : s.proc c with
  | none =>
      refine ⟨s.setPhase c .gone, ?_, hmove .gone (.inr ⟨rfl, hproc⟩) nofun⟩
      unfold perform
      dsimp only
      rw [if_pos hphase, hproc]
  | some p =>
      obtain ⟨t, x, hkid, hx, rfl, hr⟩ := h.ownRecord hproc hphase nofun
      have hstay : Inv g (s.setPhase x.pid .signalling) kids :=
        hmove .signalling (.inl rfl) fun _ => ⟨p, hproc⟩
      -- the record of a child whose parent waits is never that of an orphan
      unfold perform
      dsimp only
      rw [if_pos hphase, hproc]
      dsimp only
      rewrite [hx]
      dsimp only
      cases hstatus : x.status with
      | run =>
          refine ⟨_, rfl, h.own hkid hx hr hphase ⟨rfl, nofun, nofun, ?_, ?_, nofun,
            fun _ => trivial, ?_, hr.exit, id, fun _ => rfl, fun _ => Iff.rfl,
            fun _ _ => ⟨rfl, rfl⟩, rfl, rfl⟩ trivial⟩
          · have hload := hr.load
            rw [hphase] at hload
            simpa using hload
          · have hfail := hr.fail
            rw [hstatus] at hfail
            simpa using hfail
          · simp [ups]
      | orphan => exact absurd hstatus hr.notOrphan
      | fail => exact ⟨_, rfl, hstay⟩
      | dead => exact ⟨_, rfl, hstay⟩

/-- The last step of `process_exit`. -/
theorem Inv.signal (h : Inv g s kids) (hphase : s.phase c = .signalling) :
    ∃ s', perform s (.signal c) = some (s', none) ∧ Inv g s' kids := by
  obtain ⟨p, hproc⟩ := h.signals c hphase
  obtain ⟨t, x, hkid, hx, rfl, hr⟩ := h.ownRecord hproc hphase nofun
  refine ⟨(s.setProcess p { x with sema := x.sema + 1 }).setPhase x.pid .gone, ?_,
    h.own hkid hx hr hphase ⟨rfl, nofun, nofun, ?_, hr.fail, hr.notOrphan, fun _ => trivial, ?_,
      hr.exit, id, fun _ => rfl, fun _ => Iff.rfl, fun _ _ => ⟨rfl, rfl⟩, rfl, rfl⟩ trivial⟩
  · unfold perform
    dsimp only
    rw [if_pos hphase, hproc, Option.bind_eq_bind, Option.bind_some, hx]
    rfl
  · have hload := hr.load
    rw [hphase] at hload
    simpa using hload
  · simp only [ups, reduceCtorEq, if_false, if_true]
    omega

end Pintos.Wait
