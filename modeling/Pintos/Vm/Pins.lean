import Pintos.Vm.FrameTable

/-! # Pinned pages

`load` gives a process a page of stack that stays pinned: `stack_growth` leaves
its page pinned outside of interrupts, and nobody calls `unpin_ptr`. A pinned
page is not evicted, so it is never loaded again by a page fault, which would
unpin it.
-/

namespace Pintos.Vm

variable {k k' : Kernel} {t : Tid} {p q : Ptr} {e e' : Spte} {a : Act} {as : List Act} {env : Env}
  {R : Scope} {m : Machine}

/-! ## Entries of type `SWAP` -/

/-- What becomes of an entry of type `SWAP`: it keeps its type and its address, and
all of it while it is pinned. -/
structure Keeps (R : Scope) (p : Ptr) (e e' : Spte) : Prop where
  type : e'.type = .swap
  address : e'.unusedVirtualAddress = e.unusedVirtualAddress
  pinned : e.pinned = true → e.isLoaded = true → ¬ R.unpins p → e' = e

theorem Keeps.refl (hty : e.type = .swap) : Keeps R p e e := ⟨hty, rfl, fun _ _ _ => rfl⟩

theorem Keeps.trans {e'' : Spte} (h₁ : Keeps R p e e') (h₂ : Keeps R p e' e'') :
    Keeps R p e e'' where
  type := h₂.type
  address := h₂.address.trans h₁.address
  pinned := by
    intro hp hl hR
    have heq := h₁.pinned hp hl hR
    subst heq
    exact h₂.pinned hp hl hR

/-- An entry that is not the one that changes. -/
theorem keeps_of_ne {o : Option Spte} (he : Entry k t p e) (hty : e.type = .swap) (hq : p ≠ q)
    (hspt : k'.spt t = k.spt t) (hsptes : k'.sptes = Function.update k.sptes q o) :
    ∃ e', Entry k' t p e' ∧ Keeps R p e e' := by
  refine ⟨e, ⟨?_, ?_⟩, .refl hty⟩
  · rw [hspt]
    exact he.mem
  · rw [hsptes, Function.update_of_ne hq]
    exact he.at_ptr

/-- A page that is not loaded gets a frame. -/
theorem keeps_of_loaded {x : Spte} (he : Entry k t p e) (hty : e.type = .swap)
    (hx : k.sptes q = some x) (hl : x.isLoaded = false) (hspt : k'.spt t = k.spt t)
    (hsptes : k'.sptes = Function.update k.sptes q (some { x with isLoaded := true })) :
    ∃ e', Entry k' t p e' ∧ Keeps R p e e' := by
  by_cases hq : p = q
  · subst hq
    obtain rfl : e = x := he.eq_of_at hx
    refine ⟨{ e with isLoaded := true }, ⟨?_, ?_⟩, ⟨hty, rfl, ?_⟩⟩
    · rw [hspt]
      exact he.mem
    · rw [hsptes, Function.update_self]
    · intro _ hloaded
      rw [hl] at hloaded
      cases hloaded
  · exact keeps_of_ne he hty hq hspt hsptes

theorem Change.keeps (h : Sound k) (hc : Change R k k') (he : Entry k t p e)
    (hty : e.type = .swap) (ht : k.status t ≠ .exiting) :
    ∃ e', Entry k' t p e' ∧ Keeps R p e e' := by
  cases hc with
  | @pin q x pinned hx hR =>
      -- only a step that unpins the page itself clears the bit
      by_cases hq : p = q
      · subst hq
        obtain rfl : e = x := he.eq_of_at hx
        refine ⟨{ e with pinned := pinned }, ⟨he.mem, Function.update_self ..⟩, ⟨hty, rfl, ?_⟩⟩
        intro hp _ hno
        cases pinned with
        | true => rw [← hp]
        | false => exact absurd (hR rfl) hno
      · exact keeps_of_ne he hty hq rfl rfl
  | @cell q o hq =>
      -- a cell that is written is in no table
      have hne : p ≠ q := hq.ne he.mem
      exact keeps_of_ne he hty hne rfl rfl
  | @evict fte x x' k₁ hfte hx hstatus hs hpin =>
      have hre := (h.evict_reshapes hfte hx hs).sptes p fun hun => hun.spt t he.mem
      rcases (saved_of_savePage hs).frame with ⟨swap, inodes, rfl⟩
      by_cases hq : p = fte.spte
      · subst hq
        obtain rfl : e = x := he.eq_of_at hx
        have hnew : (unmapPage { k with swap := swap, inodes := inodes } fte
            { x' with isLoaded := false }).sptes fte.spte = some { x' with isLoaded := false } :=
          Function.update_self ..
        rw [he.at_ptr, hnew] at hre
        cases hre with
        | some hre =>
            refine ⟨_, ⟨he.mem, hnew⟩, ⟨?_, hre.address, ?_⟩⟩
            · rcases hre.type with hsame | ⟨-, -, hswap⟩
              · exact hsame.trans hty
              · exact hswap
            · intro hp _ _
              -- a pinned page is not evicted
              rcases hpin with hpin | hmmap
              · rw [hp] at hpin
                cases hpin
              · rw [hty] at hmmap
                cases hmmap
      · exact keeps_of_ne he hty hq rfl rfl
  | @discard fte x hfte hx hexit hmm =>
      have hne : p ≠ fte.spte := by
        rintro rfl
        -- the page is one of a process that is leaving
        rcases h.tables.resident fte hfte with ⟨y, _, hy, _⟩
        rw [h.tables.apart _ _ _ hy.mem he.mem] at hexit
        exact ht hexit
      exact keeps_of_ne he hty hne rfl rfl
  | readIn hx hl => exact keeps_of_loaded he hty hx.at_ptr hl rfl rfl
  | swapIn hx hl => exact keeps_of_loaded he hty hx.at_ptr hl rfl rfl
  | swapInNothing page hx hl => exact keeps_of_loaded he hty hx.at_ptr hl rfl rfl
  | @growStack u q x frame page hq =>
      have hne : p ≠ q := hq.ne he.mem
      refine ⟨e, ⟨mem_insertEntry.mpr (.inl he.mem), ?_⟩, .refl hty⟩
      exact (Function.update_of_ne hne ..).trans he.at_ptr
  | addFile => exact ⟨e, ⟨mem_insertEntry.mpr (.inl he.mem), he.at_ptr⟩, .refl hty⟩
  | addMmap => exact ⟨e, ⟨mem_insertEntry.mpr (.inl he.mem), he.at_ptr⟩, .refl hty⟩
  | @removeMapping u mm x hmm hx =>
      have hne : p ≠ mm.spte := by
        rintro rfl
        rcases h.mappings.entry u mm hmm with ⟨y, hy, hcase⟩
        -- the entry of a mapping is not one of a page of stack
        obtain rfl : e = y := he.eq_of_at hy
        rcases hcase with ⟨hmmap, -⟩ | ⟨herr, -⟩
        · rw [hty] at hmmap
          cases hmmap
        · rw [hty] at herr
          cases herr
      have hr := h.removes_forgetMapping hmm hx
      exact ⟨e, ⟨(hr.spt t p).mpr ⟨he.mem, hne⟩, (hr.sptes p hne).trans he.at_ptr⟩, .refl hty⟩
  | @destroy u q rest x hexit hspt hx hl hmm =>
      have hne : p ≠ q := by
        rintro rfl
        have hq : p ∈ k.spt u := by
          rw [hspt]
          exact List.mem_cons_self
        rw [h.tables.apart _ _ _ hq he.mem] at hexit
        exact ht hexit
      have hr := h.removes_destroy hspt hmm
      exact ⟨e, ⟨(hr.spt t p).mpr ⟨he.mem, hne⟩, (hr.sptes p hne).trans he.at_ptr⟩, .refl hty⟩
  | _ => exact ⟨e, ⟨he.mem, he.at_ptr⟩, .refl hty⟩

theorem Changes.keeps (h : Sound k) (hc : Changes R k k') (he : Entry k t p e)
    (hty : e.type = .swap) (ht : k.status t ≠ .exiting) :
    ∃ e', Entry k' t p e' ∧ Keeps R p e e' := by
  have hgen : Sound k' ∧ k'.status t ≠ .exiting ∧ ∃ e', Entry k' t p e' ∧ Keeps R p e e' := by
    refine hc.invariant (P := fun x => Sound x ∧ x.status t ≠ .exiting ∧
      ∃ e', Entry x t p e' ∧ Keeps R p e e') ?_ ⟨h, ht, e, he, .refl hty⟩
    rintro x y hxy ⟨hx, htx, e₁, he₁, hk₁⟩
    obtain ⟨e₂, he₂, hk₂⟩ := hxy.keeps hx he₁ hk₁.type htx
    refine ⟨hx.change hxy, ?_, e₂, he₂, hk₁.trans hk₂⟩
    rw [hxy.status]
    exact htx
  exact hgen.2.2

/-- What a step does to an entry of type `SWAP` of a process that runs. -/
theorem Step.keeps (h : Settled k) (hs : Step k a k') (he : Entry k t p e) (hty : e.type = .swap)
    (ht : k.status t = .alive) (ht' : k'.status t = .alive) :
    ∃ e', Entry k' t p e' ∧ Keeps (a.scope k) p e e' := by
  have halive : k.status t ≠ .exiting := by
    rw [ht]
    decide
  have heff := step_effect h.sound h.noneExiting hs
  cases heff with
  | changes ha hc => exact hc.keeps h.sound he hty halive
  | killed ha hta hc =>
      obtain ⟨e', he', hkeeps⟩ := hc.keeps h.sound he hty halive
      exact ⟨e', ⟨he'.mem, he'.at_ptr⟩, hkeeps⟩
  | store hst =>
      obtain ⟨pte, -, -, rfl⟩ := userStore_ok hst
      exact ⟨e, ⟨he.mem, he.at_ptr⟩, .refl hty⟩
  | write hf ho =>
      unfold inodeWriteAt
      split
      next => exact ⟨e, he, .refl hty⟩
      next => exact ⟨e, ⟨he.mem, he.at_ptr⟩, .refl hty⟩
  | @start u exe segments env file k' hu hfile hc =>
      -- the process that is started, or that leaves, is another one
      have hne : t ≠ u := by
        rintro rfl
        rw [ht] at hu
        cases hu
      refine hc.keeps (h.sound.start hu hfile) ⟨he.mem, he.at_ptr⟩ hty ?_
      show Function.update k.status u _ t ≠ _
      rw [Function.update_of_ne hne]
      exact halive
  | @leave u k₁ hu hc =>
      have hne : t ≠ u := by
        rintro rfl
        rw [ht] at hu
        cases hu
      have hstatus : (k.setStatus u .exiting).status t ≠ .exiting := by
        rw [setStatus_status, if_neg hne]
        exact halive
      have hsound : Sound (k.setStatus u .exiting) :=
        h.sound.setStatus (.inr hu) (by decide)
      obtain ⟨e', he', hkeeps⟩ := hc.keeps hsound ⟨he.mem, he.at_ptr⟩ hty hstatus
      exact ⟨e', ⟨he'.mem, he'.at_ptr⟩, hkeeps⟩

/-! ## The page of stack that `load` allocates -/

theorem stackGrowth_entry {n : ℕ} {va : Vaddr} (h : Sound k) (hx : NoneExiting k)
    (hgrow : stackGrowth env n k t va = .ok (true, k')) :
    ∃ p, Entry k' t p (stackEntry (pgRoundDown va)) := by
  rcases stackGrowth_cases h hx hgrow with
    ⟨hno, -⟩ | ⟨p, k₁, frame, -, ⟨hno, -⟩ | ⟨hno, -⟩ | ⟨-, -, rfl⟩⟩
  · cases hno
  · cases hno
  · cases hno
  · exact ⟨p, mem_insertEntry.mpr (.inr ⟨rfl, rfl⟩), Function.update_self ..⟩

theorem load_entry {exe : Inode} {segments : List Segment} (h : Settled k)
    (hs : Step k (.load t exe segments env) k') : ∃ p, Entry k' t p (stackEntry (physBase - 4096)) := by
  obtain ⟨file, n, k₂, -, h₀, hx₀, hsegments, hgrow⟩ :=
    load_cases h.sound h.noneExiting hs.1 hs.2
  have hc := loadSegments_changes (R := ⟨fun _ _ => True, fun _ _ => True, fun _ _ => True,
    fun _ => True⟩) h₀ (Function.update_self ..) (Function.update_self ..)
    (fun _ _ _ _ => trivial) hsegments
  refine stackGrowth_entry (h₀.changes hc) (fun u => ?_) hgrow
  rw [hc.status]
  exact hx₀ u

/-! ## Runs of the kernel -/

/-- The kernel executes the label: nobody calls `unpin_ptr`. -/
def Act.Executed (a : Act) : Prop := ∀ t va, a ≠ .unpinPtr t va

/-- A step of the kernel. -/
def KernelStep (k : Kernel) (a : Act) (k' : Kernel) : Prop := Step k a k' ∧ a.Executed

/-- Every process in user mode has an entry for the first page of its stack, which is
pinned. -/
def StackPinned (k : Kernel) : Prop :=
  ∀ t, k.status t = .alive → ∃ p, Entry k t p (stackEntry (physBase - 4096))

/-- A page fault is for a page that is not present, and a pinned page is. -/
theorem not_unpins (h : Settled k) (he : Entry k t p e) (hl : e.isLoaded = true)
    (ha : a.Executed) : ¬ (a.scope k).unpins p := by
  cases a with
  | pageFault u faultAddr esp env =>
      rintro ⟨hget, hpte⟩
      have hmem : p ∈ k.spt u := List.mem_of_find?_eq_some hget
      obtain rfl : u = t := h.sound.tables.apart u t p hmem he.mem
      have haddr : addressOf k p = some (pgRoundDown faultAddr) := by
        simpa using List.find?_some hget
      unfold addressOf at haddr
      rw [he.at_ptr] at haddr
      obtain ⟨fte, pte, -, -, -, hpte', -⟩ := h.sound.tables.loaded_pte he hl
      rw [← Option.some.inj haddr] at hpte
      rw [hpte] at hpte'
      cases hpte'
  | unpinPtr u va => exact absurd rfl (ha u va)
  | _ => exact fun hno => hno

/-- A process that has not been in user mode before a step is there after it only if
the step has loaded it. -/
theorem loaded_of_alive (h : Settled k) (hs : Step k a k') (ht : k.status t ≠ .alive)
    (ht' : k'.status t = .alive) : ∃ exe segments env, a = .load t exe segments env := by
  have hprocess : t = a.process := by
    by_contra hne
    rw [h.status_of_ne hs hne] at ht'
    exact ht ht'
  have heff := step_effect h.sound h.noneExiting hs
  cases heff with
  | changes ha hc =>
      rw [hc.status] at ht'
      exact absurd ht' ht
  | killed ha hta hc =>
      rw [setStatus_status, if_pos hprocess] at ht'
      cases ht'
  | @store u va byte =>
      have halive : k.status u = .alive := hs.1
      exact absurd (hprocess ▸ halive) ht
  | @write u fd data size ofs =>
      have halive : k.status u = .alive := hs.1
      exact absurd (hprocess ▸ halive) ht
  | @start u exe segments env =>
      obtain rfl : t = u := hprocess
      exact ⟨exe, segments, env, rfl⟩
  | @leave u k₁ hu hc =>
      obtain rfl : t = u := hprocess
      rw [setStatus_status, if_pos rfl] at ht'
      cases ht'

theorem StackPinned.step (hset : Settled k) (h : StackPinned k) (hs : KernelStep k a k') :
    StackPinned k' := by
  intro t ht'
  by_cases ht : k.status t = .alive
  · obtain ⟨p, he⟩ := h t ht
    obtain ⟨e', he', hkeeps⟩ := hs.1.keeps hset he rfl ht ht'
    have hsame := hkeeps.pinned rfl rfl (not_unpins hset he rfl hs.2)
    exact ⟨p, hsame ▸ he'⟩
  · obtain ⟨exe, segments, env, rfl⟩ := loaded_of_alive hset hs.1 ht ht'
    exact load_entry hset hs.1

theorem stackPinned_of_run (h : Lts.Run KernelStep m.boot as k) : StackPinned k := by
  have hgen : Settled k ∧ StackPinned k := by
    refine h.invariant (P := fun x => Settled x ∧ StackPinned x) ?_ ⟨settled_boot m, ?_⟩
    · rintro x a y hs ⟨hx, hpin⟩
      exact ⟨hx.step hs.1, hpin.step hx hs⟩
    · intro t ht
      cases ht
  exact hgen.2

/-- The discipline: no page of a process in user mode is pinned. -/
def PinDiscipline (k : Kernel) : Prop :=
  ∀ t, k.status t = .alive → ∀ p e, Entry k t p e → e.pinned = false

/-- No process ever gets to user mode without a pinned page. -/
theorem pin_discipline (h : Lts.Run KernelStep m.boot as k) :
    PinDiscipline k ↔ ∀ t, k.status t ≠ .alive := by
  constructor
  · intro hpin t ht
    obtain ⟨p, he⟩ := stackPinned_of_run h t ht
    have hno := hpin t ht p _ he
    cases hno
  · intro hnone t ht
    exact absurd ht (hnone t)

/-! ## A run -/

instance (a : Act) : Decidable a.Executed :=
  match a with
  | .unpinPtr t va => .isFalse fun h => h t va rfl
  | .load .. => .isTrue fun _ _ h => by cases h
  | .userLoad .. => .isTrue fun _ _ h => by cases h
  | .userStore .. => .isTrue fun _ _ h => by cases h
  | .pageFault .. => .isTrue fun _ _ h => by cases h
  | .checkValidPtr .. => .isTrue fun _ _ h => by cases h
  | .openFile .. => .isTrue fun _ _ h => by cases h
  | .closeFile .. => .isTrue fun _ _ h => by cases h
  | .writeFile .. => .isTrue fun _ _ h => by cases h
  | .mmap .. => .isTrue fun _ _ h => by cases h
  | .munmap .. => .isTrue fun _ _ h => by cases h
  | .exit .. => .isTrue fun _ _ h => by cases h
  | .processExit .. => .isTrue fun _ _ h => by cases h

theorem run_of_executed (hrun : runActs k as = .ok k') (ha : ∀ a ∈ as, a.Executed) :
    Lts.Run KernelStep k as k' :=
  (run_of_runActs hrun).mono_of_mem fun _ a _ hmem hs => ⟨hs, ha a hmem⟩

/-- A process that has only been started has a pinned page. -/
theorem pin_discipline_broken : ∃ k, Lts.Run KernelStep twoFrames.boot (swapRun.take 1) k ∧
    ¬ PinDiscipline k := by
  have hrun : (runActs twoFrames.boot (swapRun.take 1)).toOption.map
      (fun k => decide (k.status 1 = .alive ∧ 102 ∈ k.spt 1 ∧
        k.sptes 102 = some (stackEntry (physBase - 4096)))) = some true := by decide +kernel
  obtain ⟨k, hk, hstate⟩ := Option.map_eq_some_iff.mp hrun
  obtain ⟨halive, hmem, hentry⟩ := of_decide_eq_true hstate
  refine ⟨k, run_of_executed (Lts.eq_ok_of_toOption hk) (by decide), ?_⟩
  intro hpin
  have hno := hpin 1 halive 102 _ ⟨hmem, hentry⟩
  cases hno

/-- So has one after page faults that evict pages. -/
theorem pin_discipline_run : ∃ k, Lts.Run KernelStep twoFrames.boot swapRun k ∧
    k.status 1 = .alive ∧ (PinDiscipline k ↔ ∀ t, k.status t ≠ .alive) := by
  have hrun : (runActs twoFrames.boot swapRun).toOption.map
      (fun k => decide (k.status 1 = .alive)) = some true := by decide +kernel
  obtain ⟨k, hk, hstate⟩ := Option.map_eq_some_iff.mp hrun
  have hsteps := run_of_executed (Lts.eq_ok_of_toOption hk) (by decide)
  exact ⟨k, hsteps, of_decide_eq_true hstate, pin_discipline hsteps⟩

end Pintos.Vm
