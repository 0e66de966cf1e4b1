import Pintos.Vm.Lifecycle

/-! # What a step does

`step_effect` takes every step apart into changes and the few transitions that
are none, once and for all; what holds in every reachable state is proved from
it. The first such result is that the structures stay consistent.
-/

namespace Pintos.Vm

variable {k k' k₁ : Kernel} {t : Tid} {p : Ptr} {e : Spte} {a : Act} {env : Env}
  {R : Scope}

/-- Any label but a store. -/
def Act.NotStore (a : Act) : Prop := ∀ t va byte, a ≠ .userStore t va byte

/-- The pages a step may make entries for: those of an executable and the first
page of its stack, a page the stack grows by, and the pages of a mapping up to
the first one that has an entry already. -/
def Act.Enters (k : Kernel) : Act → Vaddr → Prop
  | .load _ _ segments _, va =>
      va = physBase - 4096 ∨ ∃ s ∈ segments, ∃ i < s.pages, va = pageAt s.upage i
  | .pageFault _ faultAddr _ _, va =>
      isUserVaddr faultAddr ∧ va = pgRoundDown faultAddr ∧ StackPage va
  | .checkValidPtr _ ptr _ _, va => isUserVaddr ptr ∧ va = pgRoundDown ptr ∧ StackPage va
  | .mmap t _ addr _, va => Mappable addr ∧ ∃ i, va = pageAt addr i ∧
      ∀ j ≤ i, hashFind k t (pageAt addr j) = none
  | _, _ => False

/-- The entries that may lose their pin in a step: that of a page which is not
present when it is accessed, and what `unpin_ptr` is called for. -/
def Act.Unpins (k : Kernel) : Act → Ptr → Prop
  | .pageFault t faultAddr _ _, p =>
      getSpte k t faultAddr = some p ∧ k.pteOf t (pgRoundDown faultAddr) = none
  | .unpinPtr t va, p => getSpte k t va = some p
  | _, _ => False

/-- The mapping that `mmap` adds. -/
def Act.Adds (k : Kernel) : Act → Tid → ℤ → Prop
  | .mmap t _ _ _, u, j => u = t ∧ j = k.mapid t + 1
  | _, _, _ => False

/-- `munmap` and `process_exit` remove mappings of the process, and `mmap` removes
the one it adds again if it fails. -/
def Act.Removes (k : Kernel) : Act → Tid → ℤ → Prop
  | .munmap t mapping, u, j => u = t ∧ (j = mapping ∨ mapping = closeAll)
  | .mmap t _ _ _, u, j => u = t ∧ j = k.mapid t + 1
  | .processExit t, u, _ => u = t
  | _, _, _ => False

/-- What a step works on. -/
def Act.scope (k : Kernel) (a : Act) : Scope where
  adds := a.Adds k
  removes := a.Removes k
  enters u va := u = a.process ∧ a.Enters k va
  unpins := a.Unpins k

/-- The effect of a step. -/
inductive Effect (k : Kernel) : Act → Kernel → Prop where
  | changes {a : Act} {k' : Kernel} (ha : a.NotStore) (hc : Changes (a.scope k) k k') :
      Effect k a k'
  /-- The process ends in the kernel, after whatever it did there. -/
  | killed {a : Act} {k₁ : Kernel} (ha : a.NotStore) (ht : k.status a.process = .alive)
      (hc : Changes (a.scope k) k k₁) : Effect k a (k₁.setStatus a.process .killed)
  | store {t : Tid} {va : Vaddr} {byte : UInt8} {k' : Kernel}
      (hs : userStore k t va byte = .ok k') : Effect k (.userStore t va byte) k'
  | write {t : Tid} {fd : ℤ} {data : ℕ → UInt8} {size ofs : ℕ} {f : FilePtr} {o : OpenFile}
      (hf : processGetFile k t fd = .ok (some f)) (ho : k.files.lookup f = some o) :
      Effect k (.writeFile t fd data size ofs) (inodeWriteAt k o.inode data size ofs)
  | start {t : Tid} {exe : Inode} {segments : List Segment} {env : Env} {file : FilePtr}
      {k' : Kernel} (ht : k.status t = .absent) (hfile : file ∉ k.files)
      (hc : Changes (Act.scope k (.load t exe segments env)) (startProcess k t file exe) k') :
      Effect k (.load t exe segments env) k'
  | leave {t : Tid} {k₁ : Kernel} (ht : k.status t = .killed)
      (hc : Changes (Act.scope k (.processExit t)) (k.setStatus t .exiting) k₁) (hspt : k₁.spt t = [])
      (hmmap : k₁.mmapList t = []) (hfiles : k₁.fileList t = []) :
      Effect k (.processExit t) ((pagedirDestroy k₁ t).setStatus t .absent)

/-! ## The steps -/

theorem getSpte_some {va : Vaddr} (h : Sound k) (hget : getSpte k t va = some p) :
    ∃ e, Entry k t p e :=
  h.tables.exists_entry (List.mem_of_find?_eq_some hget)

/-- The process goes on if its page has been loaded, and is killed if it has not. -/
theorem ends_of_load {load : Bool} (hc : Changes R k k₁)
    (hk' : (if load then k₁ else k₁.setStatus t .killed) = k') :
    ∃ k₁, Changes R k k₁ ∧ (k' = k₁ ∨ k' = k₁.setStatus t .killed) := by
  refine ⟨k₁, hc, ?_⟩
  cases load with
  | true => exact .inl hk'.symm
  | false => exact .inr hk'.symm

/-- A page fault leads to changes, and to the end of the process if the page did
not get loaded. -/
theorem pageFault_effect {faultAddr esp : Vaddr} (h : Sound k) (hx : NoneExiting k)
    (ht : k.status t = .alive)
    (hunpin : ∀ p, getSpte k t faultAddr = some p →
      k.pteOf t (pgRoundDown faultAddr) = none → R.unpins p)
    (henter : isUserVaddr faultAddr → StackPage (pgRoundDown faultAddr) →
      R.enters t (pgRoundDown faultAddr))
    (hfault : pageFault env k t faultAddr esp = .ok k') :
    ∃ k₁, Changes R k k₁ ∧ (k' = k₁ ∨ k' = k₁.setStatus t .killed) := by
  unfold pageFault at hfault
  dsimp only at hfault
  split at hfault
  next hcond =>
    cases hget : getSpte k t faultAddr with
    | some p =>
        rw [hget] at hfault
        rcases getSpte_some h hget with ⟨e, he⟩
        rcases Lts.bind_eq_ok.mp hfault with ⟨⟨load, k₁⟩, hload, hrest⟩
        rcases Lts.bind_eq_ok.mp hrest with ⟨e₁, hd, hret⟩
        have hc := loadPage_changes (R := R) h hx he ht hload
        exact ends_of_load (hc.tail (.pin false (deref_ok hd) fun _ =>
          hunpin p hget (Option.isNone_iff_eq_none.mp hcond.1))) (Except.ok.inj hret)
    | none =>
        rw [hget] at hfault
        dsimp only at hfault
        split at hfault
        next =>
          rcases Lts.bind_eq_ok.mp hfault with ⟨⟨load, k₁⟩, hgrow, hret⟩
          exact ends_of_load (stackGrowth_changes h hx ht hgrow (.inr hget) (henter hcond.2.2))
            (Except.ok.inj hret)
        next => exact ends_of_load (.refl k) (Except.ok.inj hfault)
  next => exact ends_of_load (.refl k) (Except.ok.inj hfault)

/-- So does `check_valid_ptr`. -/
theorem checkValidPtr_effect {va esp : Vaddr} (h : Sound k) (hx : NoneExiting k)
    (ht : k.status t = .alive)
    (henter : isUserVaddr va → StackPage (pgRoundDown va) → R.enters t (pgRoundDown va))
    (hcheck : checkValidPtr env k t va esp = .ok k') :
    ∃ k₁, Changes R k k₁ ∧ (k' = k₁ ∨ k' = k₁.setStatus t .killed) := by
  unfold checkValidPtr at hcheck
  by_cases hbad : ¬ isUserVaddr va ∨ va < userVaddrBottom
  · rw [if_pos hbad] at hcheck
    exact ⟨k, .refl k, .inr (Except.ok.inj hcheck).symm⟩
  · rw [if_neg hbad] at hcheck
    have huser : isUserVaddr va := by
      rw [not_or, not_not] at hbad
      exact hbad.1
    cases hget : getSpte k t va with
    | some p =>
        rw [hget] at hcheck
        rcases getSpte_some h hget with ⟨e, he⟩
        rcases Lts.bind_eq_ok.mp hcheck with ⟨⟨load, k₁⟩, hload, hrest⟩
        rcases Lts.bind_eq_ok.mp hrest with ⟨e₁, hd, hret⟩
        exact ends_of_load (loadPage_changes h hx he ht hload) (Except.ok.inj hret)
    | none =>
        rw [hget] at hcheck
        dsimp only at hcheck
        split at hcheck
        next =>
          rcases Lts.bind_eq_ok.mp hcheck with ⟨⟨load, k₁⟩, hgrow, hret⟩
          exact ends_of_load (stackGrowth_changes h hx ht hgrow (.inr hget) (henter huser))
            (Except.ok.inj hret)
        next => exact ends_of_load (.refl k) (Except.ok.inj hcheck)

theorem step_effect (h : Sound k) (hx : NoneExiting k) (hs : Step k a k') : Effect k a k' := by
  rcases hs with ⟨hen, hperf⟩
  cases a with
  | load t exe segments env =>
      -- `load` may enter the pages of its segments and one page of stack
      rcases load_ok (R := Act.scope k (.load t exe segments env)) h hx hen
        (fun s hs i hi => ⟨rfl, .inr ⟨s, hs, i, hi, rfl⟩⟩) ⟨rfl, .inl rfl⟩ hperf with
        ⟨file, hfile, hc⟩
      exact .start hen hfile hc
  | userLoad t va =>
      refine .changes (fun _ _ _ => by simp) ?_
      have hload : userLoad k t va = .ok k' := hperf
      unfold userLoad at hload
      rcases Lts.bind_eq_ok.mp hload with ⟨pte, hd, hret⟩
      cases hret
      -- a load sets the accessed bit
      exact .single (.access true (deref_ok hd))
  | userStore t va byte => exact .store hperf
  | pageFault t faultAddr esp env =>
      -- the page that faulted may be unpinned, and the stack may grow to it
      rcases pageFault_effect (R := Act.scope k (.pageFault t faultAddr esp env)) h hx hen
        (fun p hget hpte => ⟨hget, hpte⟩) (fun huser hsize => ⟨rfl, huser, rfl, hsize⟩) hperf with
        ⟨k₁, hc, rfl | rfl⟩
      · exact .changes (fun _ _ _ => by simp) hc
      · exact .killed (fun _ _ _ => by simp) hen hc
  | checkValidPtr t va esp env =>
      rcases checkValidPtr_effect (R := Act.scope k (.checkValidPtr t va esp env)) h hx hen
        (fun huser hsize => ⟨rfl, huser, rfl, hsize⟩) hperf with ⟨k₁, hc, rfl | rfl⟩
      · exact .changes (fun _ _ _ => by simp) hc
      · exact .killed (fun _ _ _ => by simp) hen hc
  | unpinPtr t va =>
      refine .changes (fun _ _ _ => by simp) ?_
      have hunpin : unpinPtr k t va = .ok k' := hperf
      unfold unpinPtr at hunpin
      cases hget : getSpte k t va with
      | none =>
          rw [hget] at hunpin
          cases hunpin
          exact .refl _
      | some p =>
          rw [hget] at hunpin
          rcases Lts.bind_eq_ok.mp hunpin with ⟨e, hd, hret⟩
          cases hret
          exact .single (.pin false (deref_ok hd) fun _ => hget)
  | openFile t i env =>
      exact .changes (fun _ _ _ => by simp) (openFile_changes h hen hperf)
  | closeFile t fd => exact .changes (fun _ _ _ => by simp) (close_changes hperf)
  | writeFile t fd data size ofs =>
      have hwrite : writeFile k t fd data size ofs = .ok k' := hperf
      rcases Lts.bind_eq_ok.mp hwrite with ⟨found, hget, hwrite⟩
      cases found with
      | none =>
          cases hwrite
          exact .changes (fun _ _ _ => by simp) (.refl _)
      | some f =>
          rcases Lts.bind_eq_ok.mp hwrite with ⟨o, hd, hret⟩
          cases hret
          exact .write hget (deref_ok hd)
  | mmap t fd addr env =>
      rcases Lts.bind_eq_ok.mp hperf with ⟨⟨id, k₁⟩, hmmap, hret⟩
      cases hret
      exact .changes (fun _ _ _ => by simp) (mmap_changes h ⟨rfl, rfl⟩ ⟨rfl, rfl⟩
        (fun i hm hfree => ⟨rfl, hm, i, rfl, hfree⟩) hen hmmap)
  | munmap t mapping =>
      have hc := processRemoveMmap_changes (R := Act.scope k (.munmap t mapping)) h
        (fun _ hj => ⟨rfl, hj⟩) hperf
      exact .changes (fun _ _ _ => by simp) hc.1
  | exit t =>
      cases hperf
      exact .killed (fun _ _ _ => by simp) hen (.refl _)
  | processExit t =>
      rcases processExit_ok (R := Act.scope k (.processExit t)) h (fun _ => rfl) hen hperf with
        ⟨k₁, hc, hspt, hmmap, hfiles, rfl⟩
      exact .leave hen hc hspt hmmap hfiles

/-! ## Reachable states -/

/-- What holds between two operations. -/
structure Settled (k : Kernel) : Prop where
  sound : Sound k
  noneExiting : NoneExiting k

theorem Settled.step (h : Settled k) (hs : Step k a k') : Settled k' := by
  have heff := step_effect h.sound h.noneExiting hs
  cases heff with
  | changes ha hc =>
      refine ⟨h.sound.changes hc, ?_⟩
      intro u
      rw [hc.status]
      exact h.noneExiting u
  | @killed _ k₁ ha ht hc =>
      -- the process that is killed has been alive
      have hlive : k₁.Live a.process := by
        unfold Kernel.Live
        rw [hc.status]
        exact .inl ht
      refine ⟨(h.sound.changes hc).setStatus hlive (by decide), ?_⟩
      intro u
      rw [setStatus_status, hc.status]
      split
      next => decide
      next => exact h.noneExiting u
  | @store t va byte _ hst =>
      refine ⟨h.sound.store hst, ?_⟩
      rcases userStore_ok hst with ⟨pte, _, _, rfl⟩
      exact h.noneExiting
  | write hf ho =>
      refine ⟨h.sound.inodeWriteAt, ?_⟩
      unfold inodeWriteAt
      split <;> exact h.noneExiting
  | @start t exe _ _ file _ ht hfile hc =>
      refine ⟨(h.sound.start ht hfile).changes hc, ?_⟩
      intro u
      rw [hc.status]
      show Function.update k.status t .alive u ≠ _
      rw [Function.update_apply]
      split
      next => decide
      next => exact h.noneExiting u
  | @leave t k₁ ht hc hspt hmmap hfiles =>
      -- the status of the process that leaves is exiting on the way only
      have h₁ := (h.sound.setStatus (.inr ht) (by decide)).changes hc
      refine ⟨h₁.leave hspt hmmap hfiles, ?_⟩
      intro u
      show Function.update k₁.status t .absent u ≠ _
      rw [hc.status, Function.update_apply]
      split
      next => decide
      next hut =>
        rw [setStatus_status, if_neg hut]
        exact h.noneExiting u

/-- A step does not touch the status of other processes. -/
theorem Settled.status_of_ne {u : Tid} (h : Settled k) (hs : Step k a k') (hu : u ≠ a.process) :
    k'.status u = k.status u := by
  have heff := step_effect h.sound h.noneExiting hs
  cases heff with
  | changes ha hc => rw [hc.status]
  | killed ha ht hc => rw [setStatus_status, if_neg hu, hc.status]
  | store hst =>
      rcases userStore_ok hst with ⟨pte, _, _, rfl⟩
      rfl
  | write hf ho =>
      unfold inodeWriteAt
      split <;> rfl
  | start ht hfile hc =>
      rw [hc.status]
      exact Function.update_of_ne hu ..
  | @leave t k₁ ht hc =>
      have hut : u ≠ t := hu
      show Function.update k₁.status t .absent u = _
      rw [Function.update_of_ne hut, hc.status, setStatus_status, if_neg hut]

theorem settled_boot (m : Machine) : Settled m.boot := by
  have hempty : ∀ t va, m.boot.pteOf t va = none := fun _ _ => AList.lookup_empty _
  refine ⟨⟨?_, ?_, ?_⟩, fun _ => by show ProcessStatus.absent ≠ _; decide⟩
  · exact
      { pool := .refl _
        poolNodup := m.pool_nodup
        entryNodup := List.nodup_nil
        resident := fun _ hfte => absurd hfte List.not_mem_nil
        listed := fun _ _ _ he => absurd he.mem List.not_mem_nil
        mapped := fun t va _ hpte => by rw [hempty] at hpte; cases hpte
        allocated := fun _ _ hp => absurd hp List.not_mem_nil
        apart := fun _ _ _ hp => absurd hp List.not_mem_nil
        sptNodup := fun _ => List.nodup_nil
        addressUnique := fun _ _ _ _ _ he => absurd he.mem List.not_mem_nil
        living := fun _ _ hp => absurd hp List.not_mem_nil }
  · exact
      { entry := fun _ _ hmm => absurd hmm List.not_mem_nil
        covered := fun _ _ _ he => absurd he.mem List.not_mem_nil
        nodup := fun _ => List.nodup_nil
        apart := fun _ _ _ hmm => absurd hmm List.not_mem_nil
        sorted := fun _ => .nil
        bounded := fun _ _ hmm => absurd hmm List.not_mem_nil
        mapidNonneg := fun _ => Int.le_refl _
        living := fun _ _ hmm => absurd hmm List.not_mem_nil }
  · have hdead : ∀ t, ¬ m.boot.Live t := by
      intro t ht
      rcases ht with ht | ht <;> cases ht
    have hnone : ∀ f r, ¬ Holds m.boot f r := by
      intro f r hr
      cases r with
      | executable t => exact hdead t hr.1
      | descriptor t fd => cases hr
      | mapping t i =>
          rcases hr with ⟨mm, hmm, _⟩
          cases hmm
    exact
      { executable := fun t ht => absurd ht (hdead t)
        filePages := fun t _ _ ht => absurd ht (hdead t)
        sizes := fun _ _ _ he => absurd he.mem List.not_mem_nil
        opened := fun f r hr => absurd hr (hnone f r)
        unique := fun f r _ hr => absurd hr (hnone f r)
        fdSorted := fun _ => .nil
        fdBounded := fun _ _ hpf => absurd hpf List.not_mem_nil
        living := fun _ _ hpf => absurd hpf List.not_mem_nil }

theorem settled_of_reachable {m : Machine} (h : Reachable m k) : Settled k :=
  h.invariant (fun _ _ _ hs hi => hi.step hs) (settled_boot m)

end Pintos.Vm
