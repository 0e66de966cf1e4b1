import Pintos.Vm.Permissions
import Pintos.Vm.PinnedPages

/-! # Buffers of system calls

`check_valid_buffer` brings in the pages of a buffer byte by byte and leaves them
pinned; `unpin_buffer` unpins them. Before every byte other processes may run, whose
faults evict pages as the page-ins of the buffer itself do.
-/

namespace Pintos.Vm

variable {k k' k₁ k₂ : Kernel} {t u : Tid} {p q : Ptr} {e x : Spte} {env : Env}
  {va esp buffer : Vaddr} {toWrite : Bool} {a : Act} {m : Machine} {n : ℕ}

/-! ## `check_valid_buffer` and `unpin_buffer` -/

/-- The body of the loop of `check_valid_buffer`. The entry it looks at is what
`check_valid_ptr` returns; where `exit` is called the process is killed. -/
def checkByte (env : Env) (k : Kernel) (t : Tid) (va esp : Vaddr) (toWrite : Bool) :
    Except String Kernel := do
  let spte := getSpte k t va
  let k ← checkValidPtr env k t va esp
  if k.status t ≠ .alive then
    return k
  else
    match spte with
    | none => return k
    | some p => do
        let e ← deref (k.sptes p)
        return if toWrite = true ∧ e.writable = false then k.setStatus t .killed else k

/-- The loop of `check_valid_buffer` from byte `i` on, for `n` bytes; `others i` is
what other processes do before the byte. -/
def checkBufferLoop (others : ℕ → List Act) (env : ℕ → Env) (t : Tid) (esp : Vaddr)
    (toWrite : Bool) : ℕ → ℕ → Vaddr → Kernel → Except String Kernel
  | _, 0, _, k => .ok k
  | i, n + 1, va, k => do
      let k ← runActs k (others i)
      let k ← checkByte (env i) k t va esp toWrite
      if k.status t ≠ .alive then
        return k
      else
        checkBufferLoop others env t esp toWrite (i + 1) n (va + 1) k

/-- `check_valid_buffer`. -/
def checkValidBuffer (others : ℕ → List Act) (env : ℕ → Env) (k : Kernel) (t : Tid)
    (buffer : Vaddr) (size : UInt32) (esp : Vaddr) (toWrite : Bool) : Except String Kernel :=
  checkBufferLoop others env t esp toWrite 0 size.toNat buffer k

/-- The loop of `unpin_buffer`. -/
def unpinBufferLoop (t : Tid) : ℕ → Vaddr → Kernel → Except String Kernel
  | 0, _, k => .ok k
  | n + 1, va, k => do
      let k ← unpinPtr k t va
      unpinBufferLoop t n (va + 1) k

/-- `unpin_buffer`. -/
def unpinBuffer (k : Kernel) (t : Tid) (buffer : Vaddr) (size : UInt32) : Except String Kernel :=
  unpinBufferLoop t size.toNat buffer k

/-- The address of a byte of a buffer. -/
def byteAt (buffer : Vaddr) (i : ℕ) : Vaddr := buffer + UInt32.ofNat i

/-! ## A page of a buffer -/

/-- The entry at `p` is for the page of `va`, which is loaded and pinned, and may be
written if it is to be. -/
structure PinnedBy (k : Kernel) (t : Tid) (va : Vaddr) (toWrite : Bool) (p : Ptr) (e : Spte) :
    Prop where
  entry : Entry k t p e
  address : e.unusedVirtualAddress = pgRoundDown va
  loaded : e.isLoaded = true
  pinned : e.pinned = true
  writable : toWrite = true → e.writable = true

/-- The page of `va` is pinned by an entry and present in the page directory, and
writable there too. -/
def PinnedPage (k : Kernel) (t : Tid) (va : Vaddr) (toWrite : Bool) (p : Ptr) : Prop :=
  ∃ e pte, PinnedBy k t va toWrite p e ∧ k.pteOf t (pgRoundDown va) = some pte ∧
    (toWrite = true → pte.writable = true)

theorem PinnedBy.page (h : PinnedBy k t va toWrite p e) (hk : Sound k) (hw : Permits k) :
    PinnedPage k t va toWrite p := by
  obtain ⟨-, pte, -, -, -, hpte, -⟩ := hk.tables.loaded_pte h.entry h.loaded
  have hpte' : k.pteOf t (pgRoundDown va) = some pte := h.address ▸ hpte
  exact ⟨e, pte, h, hpte', fun hwrite => (hw t p e h.entry pte hpte).trans (h.writable hwrite)⟩

theorem PinnedBy.step (h : PinnedBy k t va toWrite p e) (hset : Settled k) (hs : Step k a k')
    (hR : ∀ j, ¬ (a.scope k).removes t j) (hun : ¬ a.Unpins k p) : PinnedBy k' t va toWrite p e :=
  ⟨hs.spares hset hR hun h.entry h.pinned h.loaded, h.address, h.loaded, h.pinned, h.writable⟩

/-! ## One byte -/

/-- If `check_valid_ptr` does not end the process, the page is loaded and pinned. -/
theorem checkValidPtr_pins (h : Settled k) (ht : k.status t = .alive)
    (hcheck : checkValidPtr env k t va esp = .ok k') (halive : k'.status t = .alive) :
    isUserVaddr va ∧ ∃ p e, PinnedBy k' t va false p e ∧
      (getSpte k t va = some p ∨ getSpte k t va = none ∧ e.writable = true) := by
  have hstep : Step k (.checkValidPtr t va esp env) k' := ⟨ht, hcheck⟩
  have hkilled : ∀ (load : Bool) (k₁ : Kernel),
      (if load then k₁ else k₁.setStatus t .killed) = k' → load = true ∧ k₁ = k' := by
    intro load k₁ hk'
    cases load with
    | true => exact ⟨rfl, hk'⟩
    | false =>
        rw [← hk', show (if false = true then k₁ else k₁.setStatus t .killed) =
          k₁.setStatus t .killed from rfl, setStatus_status, if_pos rfl] at halive
        cases halive
  unfold checkValidPtr at hcheck
  by_cases hbad : ¬ isUserVaddr va ∨ va < userVaddrBottom
  · rw [if_pos hbad] at hcheck
    exact absurd (hkilled false k (Except.ok.inj hcheck)).1 Bool.false_ne_true
  · rw [if_neg hbad] at hcheck
    rw [not_or, not_not] at hbad
    refine ⟨hbad.1, ?_⟩
    cases hget : getSpte k t va with
    | some p =>
        rw [hget] at hcheck
        obtain ⟨⟨b, k₁⟩, hload, hrest⟩ := Lts.bind_eq_ok.mp hcheck
        obtain ⟨e₁, he₁, hret⟩ := Lts.bind_eq_ok.mp hrest
        obtain ⟨hloaded, rfl⟩ := hkilled _ _ (Except.ok.inj hret)
        obtain ⟨hmem, haddr⟩ := getSpte_address hget
        obtain ⟨e, he⟩ := getSpte_some h.sound hget
        have hat := loadPage_entry he.at_ptr hload
        obtain rfl := Option.some.inj (hat.symm.trans (deref_ok he₁))
        have hmem' := hstep.mem_spt h (fun _ => id) hmem
        exact ⟨p, _, ⟨⟨hmem', hat⟩, haddr e he.at_ptr, hloaded, rfl, nofun⟩, .inl rfl⟩
    | none =>
        rw [hget] at hcheck
        dsimp only at hcheck
        split at hcheck
        next =>
          obtain ⟨⟨b, k₁⟩, hgrow, hret⟩ := Lts.bind_eq_ok.mp hcheck
          obtain ⟨rfl, rfl⟩ := hkilled _ _ (Except.ok.inj hret)
          obtain ⟨p, he⟩ := stackGrowth_entry h.sound h.noneExiting hgrow
          exact ⟨p, _, ⟨he, rfl, rfl, rfl, nofun⟩, .inr ⟨rfl, rfl⟩⟩
        next => exact absurd (hkilled false k (Except.ok.inj hcheck)).1 Bool.false_ne_true

/-- So does the check of a byte, which also looks at the `writable` of the entry. -/
theorem checkByte_pins (h : Settled k) (ht : k.status t = .alive)
    (hcheck : checkByte env k t va esp toWrite = .ok k') (halive : k'.status t = .alive) :
    Step k (.checkValidPtr t va esp env) k' ∧ isUserVaddr va ∧
      ∃ p e, PinnedBy k' t va toWrite p e := by
  unfold checkByte at hcheck
  obtain ⟨k₁, hptr, hrest⟩ := Lts.bind_eq_ok.mp hcheck
  have hk₁ : k₁.status t = .alive := by
    by_contra hdead
    rw [if_pos hdead] at hrest
    cases hrest
    exact hdead halive
  obtain ⟨huser, p, e, hp, hget⟩ := checkValidPtr_pins h ht hptr hk₁
  rw [if_neg (not_not.mpr hk₁)] at hrest
  rcases hget with hget | ⟨hget, hw⟩
  · rw [hget] at hrest
    obtain ⟨e₁, he₁, hret⟩ := Lts.bind_eq_ok.mp hrest
    obtain rfl := hp.entry.eq_of_at (deref_ok he₁)
    have hgo : ¬ (toWrite = true ∧ e.writable = false) := by
      intro hno
      rw [if_pos hno] at hret
      cases hret
      rw [setStatus_status, if_pos rfl] at halive
      cases halive
    rw [if_neg hgo] at hret
    cases hret
    refine ⟨⟨ht, hptr⟩, huser, p, e, hp.entry, hp.address, hp.loaded, hp.pinned, fun hwrite => ?_⟩
    cases hew : e.writable with
    | true => rfl
    | false => exact absurd ⟨hwrite, hew⟩ hgo
  · rw [hget] at hrest
    cases hrest
    exact ⟨⟨ht, hptr⟩, huser, p, e, hp.entry, hp.address, hp.loaded, hp.pinned, fun _ => hw⟩

/-! ## The whole buffer -/

/-- Every page that `k` has pinned for `t` is pinned in `k'`. -/
def KeepsPins (k k' : Kernel) (t : Tid) : Prop :=
  ∀ va w p e, PinnedBy k t va w p e → PinnedBy k' t va w p e

/-- Other processes run. -/
theorem others_keep {as : List Act} (h : Settled k) (ht : k.status t = .alive)
    (hothers : ∀ a ∈ as, a.process ≠ t) (hrun : runActs k as = .ok k') :
    Lts.Reaches Step k k' ∧ k'.status t = .alive ∧ KeepsPins k k' t := by
  have hsteps := run_of_runActs hrun
  have hgen : Settled k' ∧ k'.status t = .alive ∧ KeepsPins k k' t := by
    refine hsteps.invariant_of_mem
      (P := fun x => Settled x ∧ x.status t = .alive ∧ KeepsPins k x t) ?_
      ⟨h, ht, fun _ _ _ _ hp => hp⟩
    rintro x a y ha hxy ⟨hx, htx, hpins⟩
    have hne := hothers a ha
    refine ⟨hx.step hxy, (hx.status_of_ne hxy hne.symm).trans htx, ?_⟩
    intro va w p e hp
    have hpx := hpins va w p e hp
    exact hpx.step hx hxy (not_removes_of_ne hne) (not_unpins_of_ne hx hpx.entry hne)
  exact ⟨⟨as, hsteps⟩, hgen.2⟩

theorem byteAt_succ (va : Vaddr) (j : ℕ) : byteAt va (j + 1) = byteAt (va + 1) j := by
  unfold byteAt
  rw [UInt32.ofNat_add, UInt32.add_assoc, UInt32.add_comm 1]
  rfl

/-- The pages of the bytes that have been checked stay pinned while the others are
brought in. -/
theorem checkBufferLoop_pins {others : ℕ → List Act} {envs : ℕ → Env} {i : ℕ}
    (hothers : ∀ i, ∀ a ∈ others i, a.process ≠ t) (h : Settled k) (ht : k.status t = .alive)
    (hloop : checkBufferLoop others envs t esp toWrite i n va k = .ok k')
    (halive : k'.status t = .alive) :
    Lts.Reaches Step k k' ∧ KeepsPins k k' t ∧
      ∀ j < n, isUserVaddr (byteAt va j) ∧ ∃ p e, PinnedBy k' t (byteAt va j) toWrite p e := by
  induction n generalizing i va k with
  | zero =>
      cases hloop
      exact ⟨.refl _, fun _ _ _ _ hp => hp, fun j hj => absurd hj (Nat.not_lt_zero j)⟩
  | succ n ih =>
      unfold checkBufferLoop at hloop
      obtain ⟨k₁, hrun, hloop⟩ := Lts.bind_eq_ok.mp hloop
      obtain ⟨k₂, hbyte, hloop⟩ := Lts.bind_eq_ok.mp hloop
      obtain ⟨hreach, ht₁, hkeep⟩ := others_keep h ht (hothers i) hrun
      have h₁ : Settled k₁ := hreach.invariant (fun _ _ _ hs hx => hx.step hs) h
      have ht₂ : k₂.status t = .alive := by
        by_contra hdead
        rw [if_pos hdead] at hloop
        cases hloop
        exact hdead halive
      rw [if_neg (not_not.mpr ht₂)] at hloop
      obtain ⟨hstep, huser, p, e, hp⟩ := checkByte_pins h₁ ht₁ hbyte ht₂
      obtain ⟨hreach', hkeep', hrest⟩ := ih (h₁.step hstep) ht₂ hloop
      refine ⟨(hreach.tail hstep).trans hreach', ?_, ?_⟩
      · intro wa w q x hq
        exact hkeep' wa w q x ((hkeep wa w q x hq).step h₁ hstep (fun _ => id) id)
      · intro j hj
        cases j with
        | zero =>
            have hzero : byteAt va 0 = va := UInt32.add_zero va
            rw [hzero]
            exact ⟨huser, p, e, hkeep' va toWrite p e hp⟩
        | succ j =>
            rw [byteAt_succ]
            exact hrest j (Nat.lt_of_succ_lt_succ hj)

/-! ## Until the page is unpinned -/

/-- The entry at `p` is still in the table of `t`, and pinned. -/
def StillPinned (t : Tid) (p : Ptr) (k : Kernel) : Prop := ∃ e, Entry k t p e ∧ e.pinned = true

/-- As long as the entry is pinned, no step of any process takes the frame away. -/
theorem PinnedBy.run {as : List Act} (h : Settled k) (hp : PinnedBy k t va toWrite p e)
    (hrun : Lts.Run (fun k a k' => Step k a k' ∧ StillPinned t p k') k as k') :
    PinnedBy k' t va toWrite p e := by
  have hgen : Settled k' ∧ PinnedBy k' t va toWrite p e := by
    refine hrun.invariant (P := fun x => Settled x ∧ PinnedBy x t va toWrite p e) ?_ ⟨h, hp⟩
    rintro x a y ⟨hs, e', he', hpin'⟩ ⟨hx, hpx⟩
    refine ⟨hx.step hs, ⟨⟨he'.mem, ?_⟩, hpx.address, hpx.loaded, hpx.pinned, hpx.writable⟩⟩
    rcases hs.keepsLoaded hx p e hpx.entry.at_ptr hpx.pinned hpx.loaded with hnone | heq | ⟨-, heq⟩
    · rw [he'.at_ptr] at hnone
      cases hnone
    · exact heq
    · rw [he'.eq_of_at heq] at hpin'
      cases hpin'
  exact hgen.2

/-! ## `unpin_buffer` -/

/-- The page of the entry is one of the buffer. -/
def OfBuffer (va : Vaddr) (n : ℕ) (e : Spte) : Prop :=
  ∃ j < n, e.unusedVirtualAddress = pgRoundDown (byteAt va j)

/-- `k'` is `k` with the pages of the buffer unpinned, and nothing else changed. -/
structure Unpinned (k : Kernel) (t : Tid) (va : Vaddr) (n : ℕ) (k' : Kernel) : Prop where
  pages : ∀ p e, Entry k t p e → OfBuffer va n e → Entry k' t p { e with pinned := false }
  others : ∀ u p e, Entry k u p e → ¬ (u = t ∧ OfBuffer va n e) → Entry k' u p e
  rest : k' = { k with sptes := k'.sptes }

theorem ofBuffer_one : OfBuffer va 1 e ↔ e.unusedVirtualAddress = pgRoundDown va := by
  have hzero : byteAt va 0 = va := UInt32.add_zero va
  constructor
  · rintro ⟨j, hj, haddr⟩
    obtain rfl : j = 0 := Nat.lt_one_iff.mp hj
    rw [hzero] at haddr
    exact haddr
  · intro haddr
    exact ⟨0, Nat.one_pos, haddr.trans (by rw [hzero])⟩

theorem ofBuffer_succ : OfBuffer va (n + 1) e ↔ OfBuffer va 1 e ∨ OfBuffer (va + 1) n e := by
  rw [ofBuffer_one]
  constructor
  · rintro ⟨j, hj, haddr⟩
    cases j with
    | zero => exact .inl (haddr.trans (congrArg pgRoundDown (UInt32.add_zero va)))
    | succ j =>
        rw [byteAt_succ] at haddr
        exact .inr ⟨j, Nat.lt_of_succ_lt_succ hj, haddr⟩
  · rintro (haddr | ⟨j, hj, haddr⟩)
    · exact ⟨0, Nat.succ_pos n, haddr.trans (congrArg pgRoundDown (UInt32.add_zero va)).symm⟩
    · refine ⟨j + 1, Nat.succ_lt_succ hj, ?_⟩
      rw [byteAt_succ]
      exact haddr

theorem unpinPtr_unpinned (h : Sound k) (t : Tid) (va : Vaddr) :
    ∃ k', unpinPtr k t va = .ok k' ∧ Sound k' ∧ Unpinned k t va 1 k' := by
  unfold unpinPtr
  cases hget : getSpte k t va with
  | none =>
      refine ⟨k, rfl, h, ⟨?_, fun _ _ _ he _ => he, rfl⟩⟩
      intro p e he hof
      exact absurd (ofBuffer_one.mp hof) (Tables.not_entry_of_hashFind hget he)
  | some p =>
      obtain ⟨x, hx⟩ := getSpte_some h hget
      have haddr := (getSpte_address hget).2 x hx.at_ptr
      refine ⟨k.setSpte p (some { x with pinned := false }), ?_, h.pin hx.at_ptr false,
        ⟨?_, ?_, rfl⟩⟩
      · dsimp only
        rw [hx.at_ptr]
        rfl
      · intro q e he hof
        obtain rfl : q = p :=
          h.tables.addressUnique t q p e x he hx ((ofBuffer_one.mp hof).trans haddr.symm)
        obtain rfl : e = x := he.eq_of_at hx.at_ptr
        exact ⟨he.mem, Function.update_self ..⟩
      · intro u q e he hno
        have hne : q ≠ p := by
          rintro rfl
          obtain rfl : e = x := he.eq_of_at hx.at_ptr
          exact hno ⟨h.tables.apart _ _ _ he.mem hx.mem, ofBuffer_one.mpr haddr⟩
        exact ⟨he.mem, (Function.update_of_ne hne ..).trans he.at_ptr⟩

/-- `unpin_buffer` always returns. -/
theorem unpinBufferLoop_unpinned (h : Sound k) (t : Tid) (n : ℕ) (va : Vaddr) :
    ∃ k', unpinBufferLoop t n va k = .ok k' ∧ Unpinned k t va n k' := by
  induction n generalizing va k with
  | zero =>
      refine ⟨k, rfl, ⟨?_, fun _ _ _ he _ => he, rfl⟩⟩
      rintro p e - ⟨j, hj, -⟩
      exact absurd hj (Nat.not_lt_zero j)
  | succ n ih =>
      obtain ⟨k₁, hptr, h₁, hone⟩ := unpinPtr_unpinned h t va
      obtain ⟨k₂, hloop, hrest⟩ := ih h₁ (va + 1)
      refine ⟨k₂, Lts.bind_eq_ok.mpr ⟨k₁, hptr, hloop⟩, ⟨?_, ?_, ?_⟩⟩
      · intro p e he hof
        by_cases hfirst : OfBuffer va 1 e
        · have he₁ := hone.pages p e he hfirst
          by_cases hlater : OfBuffer (va + 1) n { e with pinned := false }
          · have htwice := hrest.pages p _ he₁ hlater
            exact htwice
          · exact hrest.others t p _ he₁ fun hno => hlater hno.2
        · have he₁ := hone.others t p e he fun hno => hfirst hno.2
          exact hrest.pages p e he₁ ((ofBuffer_succ.mp hof).resolve_left hfirst)
      · intro u p e he hno
        have he₁ := hone.others u p e he fun hyes => hno ⟨hyes.1, ofBuffer_succ.mpr (.inl hyes.2)⟩
        exact hrest.others u p e he₁ fun hyes => hno ⟨hyes.1, ofBuffer_succ.mpr (.inr hyes.2)⟩
      · have hk₂ := hrest.rest
        rw [hone.rest] at hk₂
        exact hk₂

/-! ## The result -/

/-- After `check_valid_buffer` has returned, every page of the buffer is present,
pinned and writable if it is to be, all at the same time. As long as such a page is
pinned it stays so, whatever the processes do. `unpin_buffer` unpins exactly these
pages. -/
theorem buffer_pinned {others : ℕ → List Act} {envs : ℕ → Env} {size : UInt32}
    (h : Reachable m k) (ht : k.status t = .alive)
    (hothers : ∀ i, ∀ a ∈ others i, a.process ≠ t)
    (hcheck : checkValidBuffer others envs k t buffer size esp toWrite = .ok k')
    (halive : k'.status t = .alive) :
    (∃ p : ℕ → Ptr, (∀ j < size.toNat, isUserVaddr (byteAt buffer j) ∧
        PinnedPage k' t (byteAt buffer j) toWrite (p j)) ∧
      ∀ j < size.toNat, ∀ as k₁,
        Lts.Run (fun k a k' => Step k a k' ∧ StillPinned t (p j) k') k' as k₁ →
          PinnedPage k₁ t (byteAt buffer j) toWrite (p j)) ∧
    ∀ k₁, Reachable m k₁ →
      ∃ k₂, unpinBuffer k₁ t buffer size = .ok k₂ ∧ Unpinned k₁ t buffer size.toNat k₂ := by
  obtain ⟨hreach, -, hpins⟩ :=
    checkBufferLoop_pins hothers (settled_of_reachable h) ht hcheck halive
  have h' : Reachable m k' := h.trans hreach
  have hset := settled_of_reachable h'
  have hw := permits_of_reachable h'
  refine ⟨?_, fun k₁ h₁ =>
    unpinBufferLoop_unpinned (settled_of_reachable h₁).sound t size.toNat buffer⟩
  choose! huser p e hp using hpins
  refine ⟨p, fun j hj => ⟨huser j hj, (hp j hj).page hset.sound hw⟩, ?_⟩
  intro j hj as k₁ hrun
  have h₁ : Reachable m k₁ := h'.trans ⟨as, hrun.mono fun _ _ _ hs => hs.1⟩
  exact ((hp j hj).run hset hrun).page (settled_of_reachable h₁).sound (permits_of_reachable h₁)

/-- Two bytes of the second page of the executable are checked for writing. To bring the
page in, the first page is evicted. -/
theorem buffer_pinned_run : ∃ k k', Reachable twoFrames k ∧
    checkValidBuffer (fun _ => []) (fun _ => generous 300) k 1 0x0804a010 2 0xbffffff0 true =
      .ok k' ∧
    k.frameTblList = [⟨0, 1, 102⟩, ⟨1, 1, 100⟩] ∧ k'.frameTblList = [⟨0, 1, 102⟩, ⟨1, 1, 101⟩] ∧
    ∃ p : ℕ → Ptr, ∀ j < 2, PinnedPage k' 1 (byteAt 0x0804a010 j) true (p j) := by
  have hrun : (runActs twoFrames.boot (swapRun.take 3)).toOption.map
      (fun k => decide (k.status 1 = .alive ∧ k.frameTblList = [⟨0, 1, 102⟩, ⟨1, 1, 100⟩] ∧
        (checkValidBuffer (fun _ => []) (fun _ => generous 300) k 1 0x0804a010 2 0xbffffff0
          true).toOption.map (fun k' => (k'.status 1, k'.frameTblList)) =
            some (.alive, [⟨0, 1, 102⟩, ⟨1, 1, 101⟩]))) = some true := by
    decide +kernel
  obtain ⟨k, hk, hstate⟩ := Option.map_eq_some_iff.mp hrun
  obtain ⟨halive, htable, hresult⟩ := of_decide_eq_true hstate
  have hreach : Reachable twoFrames k :=
    ⟨swapRun.take 3, run_of_runActs (Lts.eq_ok_of_toOption hk)⟩
  obtain ⟨k', hk', hend⟩ := Option.map_eq_some_iff.mp hresult
  obtain ⟨halive', htable'⟩ := Prod.mk.inj hend
  have hcheck := Lts.eq_ok_of_toOption hk'
  obtain ⟨⟨p, hp, -⟩, -⟩ := buffer_pinned hreach halive (fun _ _ ha => by cases ha) hcheck halive'
  exact ⟨k, k', hreach, hcheck, htable, htable', p, fun j hj => (hp j hj).2⟩

end Pintos.Vm
