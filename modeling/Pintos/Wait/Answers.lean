import Pintos.Wait.ChildProcess

/-! # What `process_wait` answers

Nothing ever enters a record in a `child_list` or sets a `cp`, so that a child panics
in `start_process` and a parent finds no child to wait for.
-/

namespace Pintos.ChildWait

open Intrusive
open Vm (Ptr)
open Wait (tidError tokens)

/-! ## What has happened -/

/-- Which children `process_execute` has returned to a thread, for which of them it has
called `process_wait`, and what a process has passed to `exit`. -/
structure History where
  children : List (ℤ × ℤ)
  waited : List (ℤ × ℤ)
  status : ℤ → ℤ

/-- Nothing has happened; a process that never calls `exit` has the status -1. -/
def History.none : History := ⟨[], [], fun _ => -1⟩

/-- What an event adds. -/
def History.add (g : History) : Event → History
  | (.execute t _ _, some c) =>
      if c = tidError then g else { g with children := (t, c) :: g.children }
  | (.wait t tid, _) =>
      if (t, tid) ∈ g.children then { g with waited := (t, tid) :: g.waited } else g
  | (.exit c status, _) => { g with status := Function.update g.status c status }
  | _ => g

def history (as : List Event) : History := as.foldl History.add History.none

/-- A failed `process_execute` adds nothing. -/
theorem History.add_fail (g : History) (t : ℤ) (cmd : List Char) (env : Env) :
    g.add (.execute t cmd env, some tidError) = g := by
  unfold History.add
  dsimp only
  rw [if_pos rfl]

theorem history_snoc {as : List Event} {a : Event} :
    history (as ++ [a]) = (history as).add a := List.foldl_append ..

/-- A thread has not yet waited for its child `tid`. -/
def History.FirstWait (g : History) (t tid : ℤ) : Prop :=
  (t, tid) ∈ g.children ∧ (t, tid) ∉ g.waited

/-- The call `process_wait (tid)` is answered as it should be: the first one for a child
returns only when the child has gone, what it passed to `exit`; any other returns -1 at
once. -/
def Answered (listed : Bool) (g : History) (s : State) (t tid : ℤ) : Prop :=
  ∃ s' o, perform listed s (.wait t tid) = some (s', o) ∧ s'.panic = false ∧
    (g.FirstWait t tid → ∀ r, o = some r → s.phase tid = .gone ∧ r = g.status tid) ∧
    (¬ g.FirstWait t tid → o = some error)

variable {s s' s₀ : State} {g : History} {listed : Bool} {t u c tid : ℤ} {p : Ptr} {y : Phase}
  {h : Links (Node ℤ Ptr)} {as : List Event} {act : Act} {r : Option ℤ}

/-! ## A list without elements -/

theorem getChildProcess_listed (hl : FreshList true s.links t) :
    getChildProcess s t tid = some none := by
  have hlist : IsList s.links (childList t) [] := hl
  obtain ⟨e, he, hsearch⟩ := hlist.search_forward
    (fun e => decide (s.pidAt e = some tid)) (Nat.succ_pos s.records.entries.length)
  unfold getChildProcess
  rw [he, Option.bind_eq_bind, Option.bind_some, hsearch]
  rfl

theorem getChildProcess_null (hl : FreshList false s.links t) :
    getChildProcess s t tid = none := by
  have hnull : s.links.next (childList t).head = none := hl
  unfold getChildProcess
  rw [hnull]
  rfl

theorem removeChildProcesses_listed (hl : FreshList true s.links t) :
    removeChildProcesses s t = some s := by
  have hlist : IsList s.links (childList t) [] := hl
  have hnext : s.links.next (childList t).head = some (childList t).tail := hlist.segment.1
  unfold removeChildProcesses
  rw [hnext, Option.bind_eq_bind, Option.bind_some]
  exact if_pos rfl

theorem removeChildProcesses_null (hl : FreshList false s.links t) :
    removeChildProcesses s t = none := by
  have hnull : s.links.next (childList t).head = none := hl
  unfold removeChildProcesses
  rw [hnull]
  rfl

theorem freshList_init : FreshList listed (initChildList listed h (childList t)) t := by
  have hne : (childList t).head ≠ (childList t).tail := nofun
  cases listed with
  | true => exact isList_listInit hne
  | false =>
      show Function.update (Function.update h.next (childList t).head none) (childList t).tail none
        (childList t).head = none
      rw [Function.update_of_ne hne, Function.update_self]

/-- The lists of other threads are left alone. -/
theorem FreshList.init_of_ne (hl : FreshList listed h u) (hne : u ≠ t) :
    FreshList listed (initChildList listed h (childList t)) u := by
  have hhead : (childList u).head ≠ (childList t).head := fun heq => hne (Node.head.inj heq)
  have htail : (childList u).tail ≠ (childList t).tail := fun heq => hne (Node.tail.inj heq)
  cases listed with
  | true =>
      have hlist : IsList h (childList u) [] := hl
      refine hlist.frame_off listInit_sameOff ?_
      intro n hn hno
      rcases Ends.mem_nodes.mp hn with rfl | hno' | rfl
      · rcases List.mem_pair.mp hno with heq | heq
        · exact hhead heq
        · cases heq
      · cases hno'
      · rcases List.mem_pair.mp hno with heq | heq
        · cases heq
        · exact htail heq
  | false =>
      have hne : (childList u).head ≠ (childList t).tail := nofun
      show Function.update (Function.update h.next (childList t).head none) (childList t).tail none
        (childList u).head = none
      rw [Function.update_of_ne hne, Function.update_of_ne hhead]
      exact hl

/-! ## The invariant -/

/-- No record is ever made, and no child has got beyond `start_process`. -/
structure Inv (listed : Bool) (g : History) (s : State) : Prop where
  lists : ∀ t, s.phase t ≠ .absent → FreshList listed s.links t
  cp : ∀ t, s.cp t = none
  waits : ∀ t p, s.phase t ≠ .waiting p ∧ s.phase t ≠ .reaping p
  children : ∀ t c, (t, c) ∈ g.children → s.phase c = .starting
  nextTid : 1 ≤ s.nextTid
  absent : ∀ c, s.nextTid ≤ c → s.phase c = .absent

/-- A thread that is not a child moves on. -/
theorem Inv.setPhase {g' : History} (hi : Inv listed g s) (hpresent : s.phase c ≠ .absent)
    (hstarted : s.phase c ≠ .starting) (hwaits : ∀ p, y ≠ .waiting p ∧ y ≠ .reaping p)
    (hg : g'.children = g.children) : Inv listed g' (s.setPhase c y) where
  lists := by
    intro u hu
    by_cases huc : u = c
    · exact hi.lists u (huc ▸ hpresent)
    · apply hi.lists u
      intro hno
      exact hu ((Function.update_of_ne huc ..).trans hno)
  cp := hi.cp
  waits := by
    intro u p
    by_cases huc : u = c
    · subst huc
      have hself : (s.setPhase u y).phase u = y := Function.update_self ..
      rw [hself]
      exact hwaits p
    · have hsame : (s.setPhase c y).phase u = s.phase u := Function.update_of_ne huc ..
      rw [hsame]
      exact hi.waits u p
  children := by
    intro u d hmem
    rw [hg] at hmem
    have hd := hi.children u d hmem
    have hne : d ≠ c := by
      rintro rfl
      exact hstarted hd
    exact (Function.update_of_ne hne ..).trans hd
  nextTid := hi.nextTid
  absent := by
    intro d hd
    have hne : d ≠ c := by
      rintro rfl
      exact hpresent (hi.absent d hd)
    exact (Function.update_of_ne hne ..).trans (hi.absent d hd)

/-- A thread that has started moves on. -/
theorem Inv.moveOn {g' : History} {x : Phase} (hi : Inv listed g s) (hphase : s.phase c = x)
    (hpresent : x ≠ .absent) (hstarted : x ≠ .starting)
    (hwaits : ∀ p, y ≠ .waiting p ∧ y ≠ .reaping p) (hg : g'.children = g.children) :
    Inv listed g' (s.setPhase c y) := by
  subst hphase
  exact hi.setPhase hpresent hstarted hwaits hg

theorem Inv.waitStep (hi : Inv listed g s) (ht : s.phase t = .user) (tid : ℤ) :
    perform listed s (.wait t tid) = some (if listed then (s, some error) else s.panics) := by
  have hlist := hi.lists t (by rw [ht]; exact nofun)
  unfold perform
  dsimp only
  rw [if_pos ht]
  cases listed with
  | true =>
      rw [getChildProcess_listed hlist]
      rfl
  | false =>
      rw [getChildProcess_null hlist]
      rfl

theorem Inv.create {env : Env} {cmd : List Char} (hi : Inv listed g s)
    (hp : threadCreate listed env s = some (c, s')) :
    Inv listed (g.add (.execute t cmd env, some c)) s' := by
  have hpos := hi.nextTid
  unfold threadCreate at hp
  split at hp
  · obtain ⟨rfl, rfl⟩ := Prod.mk.inj (Option.some.inj hp)
    -- there is no page for the thread
    rw [History.add_fail]
    exact hi
  · split at hp
    · cases hp
    · dsimp only at hp
      split at hp
      · obtain ⟨rfl, rfl⟩ := Prod.mk.inj (Option.some.inj hp)
        -- there is no memory for the record, and the tid is used up
        rw [History.add_fail]
        refine ⟨hi.lists, hi.cp, hi.waits, hi.children, ?_, ?_⟩
        · show 1 ≤ s.nextTid + 1
          omega
        · intro d hd
          have hle : s.nextTid + 1 ≤ d := hd
          exact hi.absent d (by omega)
      · obtain ⟨rfl, rfl⟩ := Prod.mk.inj (Option.some.inj hp)
        have hadd : g.add (.execute t cmd env, some s.nextTid) =
            { g with children := (t, s.nextTid) :: g.children } := by
          apply if_neg
          unfold tidError
          omega
        rw [hadd]
        have habsent := hi.absent s.nextTid (Int.le_refl _)
        refine ⟨?_, ?_, ?_, ?_, ?_, ?_⟩
        · intro u hu
          -- `init_thread` makes a list for the new thread, and leaves those of the others
          by_cases huc : u = s.nextTid
          · rw [huc]
            exact freshList_init
          · apply FreshList.init_of_ne (hi.lists u fun hno => hu ?_) huc
            exact (Function.update_of_ne huc ..).trans hno
        · intro u
          show Function.update s.cp _ _ u = _
          rw [Function.update_apply, hi.cp u, ite_self]
        · intro u p
          show Function.update s.phase _ _ u ≠ _ ∧ Function.update s.phase _ _ u ≠ _
          rw [Function.update_apply]
          split
          · exact ⟨nofun, nofun⟩
          · exact hi.waits u p
        · intro u d hmem
          show Function.update s.phase _ _ d = _
          rw [Function.update_apply]
          split
          · rfl
          · rename_i hne
            -- the new thread is the child, whose phase is the one it starts in
            rcases List.mem_cons.mp hmem with heq | hmem
            · exact absurd (Prod.mk.inj heq).2 hne
            · exact hi.children u d hmem
        · show 1 ≤ s.nextTid + 1
          omega
        · intro d hd
          have hle : s.nextTid + 1 ≤ d := hd
          have hne : d ≠ s.nextTid := by omega
          exact (Function.update_of_ne hne ..).trans (hi.absent d (by omega))

/-- A child that is not returned to its parent is no child of its history. -/
theorem Inv.forget {env : Env} {cmd : List Char}
    (hi : Inv listed (g.add (.execute t cmd env, some c)) s) : Inv listed g s := by
  refine ⟨hi.lists, hi.cp, hi.waits, ?_, hi.nextTid, hi.absent⟩
  intro u d hmem
  apply hi.children u d
  unfold History.add
  dsimp only
  split
  · exact hmem
  · exact List.mem_cons_of_mem _ hmem

/-- A step panics or keeps the invariant. -/
theorem Inv.step (hi : Inv listed g s) (hp : perform listed s act = some (s', r)) :
    s'.panic = true ∨ Inv listed (g.add (act, r)) s' := by
  cases act with
  | execute t cmd env =>
      unfold perform at hp
      dsimp only at hp
      split at hp
      case isFalse => cases hp
      rename_i hphase
      split at hp
      · obtain ⟨rfl, rfl⟩ := Prod.mk.inj (Option.some.inj hp)
        right
        rw [History.add_fail]
        exact hi
      · split at hp
        · split at hp
          · obtain ⟨rfl, -⟩ := Prod.mk.inj (Option.some.inj hp)
            exact .inl rfl
          · obtain ⟨rfl, rfl⟩ := Prod.mk.inj (Option.some.inj hp)
            right
            rw [History.add_fail]
            exact hi
        · split at hp
          · -- the command begins with a blank
            obtain ⟨⟨c, s₁⟩, hcreate, heq⟩ := Option.map_eq_some_iff.mp hp
            obtain ⟨rfl, rfl⟩ := Prod.mk.inj heq
            have hfreeing : Inv listed g (s.setPhase t .freeing) :=
              hi.moveOn hphase nofun nofun (fun _ => ⟨nofun, nofun⟩) rfl
            have hcreated : Inv listed (g.add (.execute t cmd env, some c)) s₁ :=
              hfreeing.create hcreate
            exact .inr hcreated.forget
          · obtain ⟨⟨c, s₁⟩, hcreate, heq⟩ := Option.map_eq_some_iff.mp hp
            obtain ⟨rfl, rfl⟩ := Prod.mk.inj heq
            exact .inr (hi.create hcreate)
  | free t =>
      unfold perform at hp
      dsimp only at hp
      split at hp
      case isFalse => cases hp
      obtain ⟨rfl, -⟩ := Prod.mk.inj (Option.some.inj hp)
      exact .inl rfl
  | load c success =>
      unfold perform at hp
      dsimp only at hp
      split at hp
      case isFalse => cases hp
      -- `cp` is null
      rw [hi.cp c] at hp
      obtain ⟨rfl, -⟩ := Prod.mk.inj (Option.some.inj hp)
      exact .inl rfl
  | wait t tid =>
      by_cases ht : s.phase t = .user
      · rw [hi.waitStep ht] at hp
        cases listed with
        | true =>
            obtain ⟨rfl, rfl⟩ := Prod.mk.inj (Option.some.inj hp)
            right
            have hg : (g.add (.wait t tid, some error)).children = g.children := by
              show (if (t, tid) ∈ g.children then _ else _ : History).children = _
              split <;> rfl
            refine ⟨hi.lists, hi.cp, hi.waits, fun u d hmem => hi.children u d ?_, hi.nextTid,
              hi.absent⟩
            rwa [hg] at hmem
        | false =>
            obtain ⟨rfl, -⟩ := Prod.mk.inj (Option.some.inj hp)
            exact .inl rfl
      · unfold perform at hp
        dsimp only at hp
        rw [if_neg ht] at hp
        cases hp
  | down t =>
      unfold perform at hp
      dsimp only at hp
      split at hp
      · rename_i p hphase
        exact absurd hphase (hi.waits t p).1
      · cases hp
  | reap t =>
      unfold perform at hp
      dsimp only at hp
      split at hp
      · rename_i p hphase
        exact absurd hphase (hi.waits t p).2
      · cases hp
  | exit c status =>
      unfold perform at hp
      dsimp only at hp
      split at hp
      case isFalse => cases hp
      rename_i hphase
      obtain ⟨rfl, rfl⟩ := Prod.mk.inj (Option.some.inj hp)
      right
      have hi' : Inv listed g { s with procExit := Function.update s.procExit c status } :=
        ⟨hi.lists, hi.cp, hi.waits, hi.children, hi.nextTid, hi.absent⟩
      have hstill : ({ s with procExit := Function.update s.procExit c status } : State).phase c =
        .user := hphase
      exact hi'.moveOn hstill nofun nofun (fun _ => ⟨nofun, nofun⟩) rfl
  | kill c =>
      unfold perform at hp
      dsimp only at hp
      split at hp
      case isFalse => cases hp
      rename_i hphase
      obtain ⟨rfl, rfl⟩ := Prod.mk.inj (Option.some.inj hp)
      exact .inr (hi.moveOn hphase nofun nofun (fun _ => ⟨nofun, nofun⟩) rfl)
  | leave c =>
      unfold perform at hp
      dsimp only at hp
      split at hp
      case isFalse => cases hp
      rename_i hphase
      have hlist := hi.lists c (by rw [hphase]; exact nofun)
      cases listed with
      | true =>
          rw [removeChildProcesses_listed hlist] at hp
          obtain ⟨rfl, rfl⟩ := Prod.mk.inj (Option.some.inj hp)
          exact .inr (hi.moveOn hphase nofun nofun (fun _ => ⟨nofun, nofun⟩) rfl)
      | false =>
          rw [removeChildProcesses_null hlist] at hp
          obtain ⟨rfl, -⟩ := Prod.mk.inj (Option.some.inj hp)
          exact .inl rfl
  | finish c =>
      unfold perform at hp
      dsimp only at hp
      split at hp
      case isFalse => cases hp
      rename_i hphase
      have hgone : Inv listed g (s.setPhase c .gone) :=
        hi.moveOn hphase nofun nofun (fun _ => ⟨nofun, nofun⟩) rfl
      rw [hi.cp c] at hp
      split at hp
      · obtain ⟨rfl, rfl⟩ := Prod.mk.inj (Option.some.inj hp)
        exact .inr hgone
      · obtain ⟨rfl, rfl⟩ := Prod.mk.inj (Option.some.inj hp)
        exact .inr hgone

theorem Start.inv (hs : Start listed s) : Inv listed History.none s where
  lists := hs.lists
  cp := hs.cp
  waits := by
    intro t p
    rcases hs.phase t with ht | ht
    · rw [ht]
      exact ⟨nofun, nofun⟩
    · rw [ht]
      exact ⟨nofun, nofun⟩
  children := fun _ _ hno => absurd hno List.not_mem_nil
  nextTid := hs.nextTid
  absent := hs.absent

theorem inv_of_run (hstart : Start listed s₀) (hrun : Lts.Run (Step listed) s₀ as s) :
    s.panic = true ∨ Inv listed (history as) s := by
  refine hrun.invariant_trace (P := fun as s => s.panic = true ∨ Inv listed (history as) s)
    (fun as s a s' hstep hi => ?_) (.inr hstart.inv)
  rw [history_snoc]
  rcases hi with hpanic | hi
  · rw [hstep.1] at hpanic
    cases hpanic
  · exact hi.step hstep.2

/-! ## The answers -/

/-- In every run, a call of `process_wait` is answered as it should be exactly if
`init_thread` makes `child_list` a list and the call is not the first one for a child. -/
theorem process_wait_answered_iff (hstart : Start listed s₀)
    (hrun : Lts.Run (Step listed) s₀ as s) (hpanic : s.panic = false) (ht : s.phase t = .user) :
    Answered listed (history as) s t tid ↔
      listed = true ∧ ¬ (history as).FirstWait t tid := by
  have hi := (inv_of_run hstart hrun).resolve_left fun hno => by
    rw [hpanic] at hno
    cases hno
  have hstep := hi.waitStep ht tid
  constructor
  · rintro ⟨s', o, hp, halive, hfirst, -⟩
    rw [hstep] at hp
    cases listed with
    | true =>
        obtain ⟨rfl, rfl⟩ := Prod.mk.inj (Option.some.inj hp)
        refine ⟨rfl, ?_⟩
        intro hwait
        -- the child has not even been loaded
        have hgone := (hfirst hwait error rfl).1
        rw [hi.children t tid hwait.1] at hgone
        cases hgone
    | false =>
        obtain ⟨rfl, -⟩ := Prod.mk.inj (Option.some.inj hp)
        cases halive
  · rintro ⟨rfl, hnot⟩
    exact ⟨s, some error, hstep, hpanic, fun hwait => absurd hwait hnot, fun _ => rfl⟩

/-- No thread ever sleeps in `process_wait`, and no child gets beyond `start_process`. -/
theorem never_started (hstart : Start listed s₀) (hrun : Lts.Run (Step listed) s₀ as s)
    (hpanic : s.panic = false) :
    (∀ t p, s.phase t ≠ .waiting p ∧ s.phase t ≠ .reaping p) ∧
      ∀ t c, (t, c) ∈ (history as).children → ∀ success,
        perform listed s (.load c success) = some s.panics := by
  have hi := (inv_of_run hstart hrun).resolve_left fun hno => by
    rw [hpanic] at hno
    cases hno
  refine ⟨hi.waits, ?_⟩
  intro t c hmem success
  unfold perform
  dsimp only
  rw [if_pos (hi.children t c hmem), hi.cp c]
  rfl

/-- The look for a child is not at fault: a record that is entered is found. -/
theorem addChildProcess_found {status : ℤ} (hl : FreshList true s.links t) :
    ∃ s', addChildProcess s t tid p status = some s' ∧
      getChildProcess s' t tid = some (some (.elem p)) := by
  have hlist : IsList s.links (childList t) [] := hl
  have hnotin : Node.elem p ∉ (childList t).nodes [] := fun hmem =>
    absurd (elem_mem_nodes (l := []).mp hmem) List.not_mem_nil
  obtain ⟨links, hpush, hlist', -⟩ := hlist.pushBack hnotin
  set x : ChildProcess := ⟨tid, .notLoaded, false, false, status, 0, 0⟩ with hx
  set s' : State := { s.setRecord p x with links := links } with hs'
  have hadd : addChildProcess s t tid p status = some s' := by
    unfold addChildProcess
    show (listPushBack s.links (childList t) (.elem p)).bind _ = _
    rw [hpush]
    rfl
  refine ⟨s', hadd, ?_⟩
  have hrecord : s'.records.lookup p = some x := AList.lookup_insert _
  have hrounds : 1 < s'.records.entries.length + 1 := by
    have hmem : p ∈ s'.records.keys := AList.mem_keys.mpr (AList.lookup_isSome.mp (by
      rw [hrecord]
      rfl))
    have hpos := List.length_pos_of_mem hmem
    rw [AList.keys, List.keys, List.length_map] at hpos
    omega
  obtain ⟨e, he, hsearch⟩ := hlist'.search_forward
    (fun e => decide (s'.pidAt e = some tid)) hrounds
  have hfound : s'.pidAt (.elem p) = some tid := by
    show (s'.records.lookup p).map (·.pid) = _
    rw [hrecord]
    rfl
  unfold getChildProcess
  show (links.next (childList t).head).bind _ = _
  rw [he, Option.bind_some, hsearch, Option.map_some]
  rw [List.nil_append, List.find?_cons_of_pos (by simpa using hfound)]

/-! ## Two runs -/

/-- One thread, which runs; its list is as `init_thread` has left it. -/
def lone (listed : Bool) : State where
  phase := fun t => if t = 1 then .user else .absent
  cp := fun _ => none
  parent := fun _ => 0
  executable := fun _ => false
  procExit := fun _ => -1
  records := ∅
  links := initChildList listed ⟨fun _ => none, fun _ => none⟩ (childList 1)
  nextTid := 2
  panic := false

theorem lone_start (listed : Bool) : Start listed (lone listed) where
  phase := fun t => by
    by_cases ht : t = 1
    · exact .inl (if_pos ht)
    · exact .inr (if_neg ht)
  cp := fun _ => rfl
  lists := fun t ht => by
    have heq : t = 1 := by
      by_contra hne
      exact ht (if_neg hne)
    rw [heq]
    exact freshList_init
  nextTid := by
    show (1 : ℤ) ≤ 2
    omega
  absent := fun t ht => if_neg (by
    have hle : (2 : ℤ) ≤ t := ht
    omega)
  panic := rfl

/-- A thread starts a process. -/
def startChild : Event := (.execute 1 ['a'] ⟨true, true, true, true⟩, some 2)

theorem startChild_run (listed : Bool) : ∃ s, Lts.Run (Step listed) (lone listed) [startChild] s ∧
    s.panic = false ∧ s.phase 1 = .user := by
  have hrun : (perform listed (lone listed) startChild.1).map
      (fun r => decide (r.2 = some 2 ∧ r.1.panic = false ∧ r.1.phase 1 = .user)) = some true := by
    cases listed <;> decide +kernel
  obtain ⟨⟨s, o⟩, hs, hstate⟩ := Option.map_eq_some_iff.mp hrun
  obtain ⟨ho, hpanic, hphase⟩ := of_decide_eq_true hstate
  have ho' : o = some 2 := ho
  rw [ho'] at hs
  exact ⟨s, .single ⟨rfl, hs⟩, hpanic, hphase⟩

/-- A parent waits for the child that it has started: the kernel panics. -/
theorem process_wait_broken : ¬ ∀ s₀ as s, Start false s₀ → Lts.Run (Step false) s₀ as s →
    s.panic = false → ∀ t tid, s.phase t = .user → (history as).FirstWait t tid →
      Answered false (history as) s t tid := by
  intro hall
  have hrun : (perform false (lone false) startChild.1).bind (fun r =>
      (perform false r.1 (.wait 1 2)).map
        (fun r' => decide (r.2 = some 2 ∧ r.1.panic = false ∧ r.1.phase 1 = .user) &&
          r'.1.panic)) = some true := by
    decide +kernel
  obtain ⟨⟨s, o⟩, hs, hrun⟩ := Option.bind_eq_some_iff.mp hrun
  obtain ⟨⟨s', o'⟩, hs', hstate⟩ := Option.map_eq_some_iff.mp hrun
  obtain ⟨hstate, hbad⟩ := Bool.and_eq_true_iff.mp hstate
  obtain ⟨ho, hpanic, hphase⟩ := of_decide_eq_true hstate
  have ho' : o = some 2 := ho
  rw [ho'] at hs
  have hsteps : Lts.Run (Step false) (lone false) [startChild] s := .single ⟨rfl, hs⟩
  obtain ⟨s₁, o₁, hp, halive, -⟩ :=
    hall _ _ s (lone_start false) hsteps hpanic 1 2 hphase (by
      unfold History.FirstWait
      decide +kernel)
  rw [hs'] at hp
  obtain ⟨rfl, rfl⟩ := Prod.mk.inj (Option.some.inj hp)
  rw [show s'.panic = true from hbad] at halive
  cases halive

/-- With lists that are made, a wait for another tid is answered, and one for the child is
not. -/
theorem process_wait_answered_run : ∃ s,
    Lts.Run (Step true) (lone true) [startChild] s ∧
    Answered true (history [startChild]) s 1 3 ∧ ¬ Answered true (history [startChild]) s 1 2 := by
  obtain ⟨s, hrun, hpanic, hphase⟩ := startChild_run true
  have hfirst : ∀ tid, (history [startChild]).FirstWait 1 tid ↔ tid = 2 := by
    intro tid
    have hchildren : (history [startChild]).children = [(1, 2)] := by decide +kernel
    have hwaited : (history [startChild]).waited = [] := by decide +kernel
    unfold History.FirstWait
    rw [hchildren, hwaited]
    simp
  refine ⟨s, hrun, ?_, ?_⟩
  · apply (process_wait_answered_iff (lone_start true) hrun hpanic hphase).mpr
    exact ⟨rfl, fun hno => absurd ((hfirst 3).mp hno) (by decide)⟩
  · intro hyes
    have hnot := (process_wait_answered_iff (lone_start true) hrun hpanic hphase).mp hyes
    exact hnot.2 ((hfirst 2).mpr rfl)

end Pintos.ChildWait
