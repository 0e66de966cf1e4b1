import Pintos.Vm.FreshPages
import Pintos.Vm.PinnedPages

/-! # The two ways to bring a page in

`page_fault` and `check_valid_ptr` decide in the same way whether a page can be brought
in, but the handler only takes addresses above `USER_VADDR_BOTTOM`, and the check
`USER_VADDR_BOTTOM` itself as well.
-/

namespace Pintos.Vm

variable {k k' k₁ k₂ : Kernel} {t : Tid} {p q : Ptr} {e x : Spte} {env : Env} {a va esp : Vaddr}
  {frame : Frame} {b : Bool} {m : Machine}

/-! ## When a page gets loaded -/

theorem deref_some {α : Type} {o : Option α} {a : α} (h : o = some a) : deref o = .ok a := by
  rw [h]
  rfl

theorem Changes.length {R : Scope} {i : Inode} (h : Sound k) (hc : Changes R k k') :
    (k'.bytesOf i).length = (k.bytesOf i).length := by
  have hgen : Sound k' ∧ (k'.bytesOf i).length = (k.bytesOf i).length :=
    hc.invariant (P := fun x => Sound x ∧ (x.bytesOf i).length = (k.bytesOf i).length)
      (fun _ _ hxy hx => ⟨hx.1.change hxy, (hxy.length hx.1).trans hx.2⟩) ⟨h, rfl⟩
  exact hgen.2

/-- What `load_file` reads is there. -/
def Covered (k : Kernel) (e : Spte) : Prop :=
  e.readBytes.toNat = 0 ∨ ∃ o, k.files.lookup e.file = some o ∧
    e.offset.toNat + e.readBytes.toNat ≤ (k.bytesOf o.inode).length

theorem Covered.congr (h : Covered k e) (hfiles : k'.files = k.files)
    (hlength : ∀ i, (k'.bytesOf i).length = (k.bytesOf i).length) : Covered k' e := by
  rcases h with hzero | ⟨o, ho, hle⟩
  · exact .inl hzero
  · refine .inr ⟨o, by rw [hfiles, ho], ?_⟩
    rw [hlength]
    exact hle

theorem readPage_true : (∃ k', readPage k frame e = .ok (true, k')) ↔ Covered k e := by
  by_cases hzero : e.readBytes.toNat = 0
  · unfold readPage
    rw [if_pos hzero]
    exact ⟨fun _ => .inl hzero, fun _ => ⟨k, rfl⟩⟩
  · cases ho : k.files.lookup e.file with
    | none =>
        constructor
        · rintro ⟨k', hread⟩
          unfold readPage at hread
          rw [if_neg hzero] at hread
          obtain ⟨⟨count, page⟩, hat, -⟩ := Lts.bind_eq_ok.mp hread
          obtain ⟨o, hd, -⟩ := Lts.bind_eq_ok.mp hat
          rw [ho] at hd
          cases hd
        · rintro (hz | ⟨o, ho', -⟩)
          · exact absurd hz hzero
          · rw [ho] at ho'
            cases ho'
    | some o =>
        let count := min e.readBytes.toNat ((k.bytesOf o.inode).length - e.offset.toNat)
        let page : Page := fun b =>
          if b.val < count then (k.bytesOf o.inode).getD (e.offset.toNat + b.val) 0
          else k.mem frame b
        have hread : readPage k frame e = if count = e.readBytes.toNat then
              .ok (true, k.setMem frame (memsetZero page e.readBytes.toNat e.zeroBytes.toNat))
            else .ok (false, k.setMem frame page) := by
          unfold readPage fileReadAt
          rw [if_neg hzero, ho]
          rfl
        rw [hread]
        constructor
        · rintro ⟨k', hk'⟩
          split at hk'
          next hmin =>
            have hle : min e.readBytes.toNat ((k.bytesOf o.inode).length - e.offset.toNat) =
                e.readBytes.toNat := hmin
            exact .inr ⟨o, ho, by omega⟩
          next => cases hk'
        · rintro (hz | ⟨o', ho', hle⟩)
          · exact absurd hz hzero
          · obtain rfl := Option.some.inj (ho.symm.trans ho')
            exact ⟨_, if_pos (Nat.min_eq_left (by omega))⟩

theorem readPage_frame (hread : readPage k frame e = .ok (b, k')) :
    ∃ mem, k' = { k with mem := mem } := by
  unfold readPage at hread
  split at hread
  · cases hread
    exact ⟨k.mem, rfl⟩
  · obtain ⟨⟨count, page⟩, -, hret⟩ := Lts.bind_eq_ok.mp hread
    dsimp only at hret
    split at hret <;> cases hret <;> exact ⟨_, rfl⟩

/-- A page that is not present is installed if its page table can be allocated. -/
theorem installPage_of_none (hnone : k.pteOf t va = none) {w : Bool} :
    installPage env k t va frame w = if env.setPage then
      (true, k.setPte t va { frame := frame, writable := w, accessed := false, dirty := false })
    else (false, k) := by
  unfold installPage pagedirGetPage pagedirSetPage
  rw [hnone]
  rfl

/-- `load_file` succeeds if there is a frame, the file is long enough and the page
directory takes the page. -/
theorem loadFile_true (h : Sound k) (hx : NoneExiting k) (he : Entry k t p e)
    (hl : e.isLoaded = false) : (∃ k', loadFile env k t p = .ok (true, k')) ↔
      env.setPage = true ∧ Covered k e ∧
        ∃ r, frameAlloc env (e.readBytes.toNat = 0) k t p = .ok r := by
  -- the state in which the file is read
  have hframe : ∀ frame k₂, frameAlloc env (e.readBytes.toNat = 0) k t p = .ok (frame, k₂) →
      k₂.sptes p = some e ∧ (Covered k₂ e ↔ Covered k e) ∧
        k₂.pteOf t e.unusedVirtualAddress = none := by
    intro frame k₂ halloc
    obtain ⟨k₁, hev, -, rfl⟩ := frameAlloc_ok h hx halloc
    have h₁ : Sound k₁ := h.changes (hev.changes .none)
    have hent := hev.entry h he hl
    have hlength : ∀ i, (k₁.bytesOf i).length = (k.bytesOf i).length :=
      fun i => Changes.length h (hev.changes .none)
    exact ⟨hent.at_ptr, ⟨fun hc => hc.congr hev.reshapes.files.symm fun i => (hlength i).symm,
      fun hc => hc.congr hev.reshapes.files hlength⟩, h₁.tables.pteOf_none hent hl⟩
  constructor
  · rintro ⟨k', hload⟩
    obtain ⟨e₀, he₀, hload⟩ := Lts.bind_eq_ok.mp hload
    obtain rfl := he.eq_of_at (deref_ok he₀)
    obtain ⟨⟨frame, k₂⟩, halloc, hload⟩ := Lts.bind_eq_ok.mp hload
    obtain ⟨hat, hcov, hnone⟩ := hframe frame k₂ halloc
    obtain ⟨e₁, he₁, hload⟩ := Lts.bind_eq_ok.mp hload
    obtain rfl := Option.some.inj (hat.symm.trans (deref_ok he₁))
    obtain ⟨⟨b₁, k₃⟩, hread, hload⟩ := Lts.bind_eq_ok.mp hload
    cases b₁ with
    | false => cases hload
    | true =>
        obtain ⟨mem, rfl⟩ := readPage_frame hread
        refine ⟨?_, hcov.mp (readPage_true.mp ⟨_, hread⟩), _, halloc⟩
        by_contra hset
        dsimp only at hload
        rw [installPage_of_none (k := { k₂ with mem := mem }) hnone, if_neg hset] at hload
        cases hload
  · rintro ⟨hset, hcover, ⟨frame, k₂⟩, halloc⟩
    obtain ⟨hat, hcov, hnone⟩ := hframe frame k₂ halloc
    obtain ⟨k₃, hread⟩ := readPage_true.mpr (hcov.mpr hcover)
    obtain ⟨mem, rfl⟩ := readPage_frame hread
    let pte : Pte := { frame := frame, writable := e.writable, accessed := false, dirty := false }
    refine ⟨(({ k₂ with mem := mem } : Kernel).setPte t e.unusedVirtualAddress pte).setSpte p
      (some { e with isLoaded := true }), ?_⟩
    refine Lts.bind_eq_ok.mpr ⟨e, deref_some he.at_ptr, Lts.bind_eq_ok.mpr ⟨_, halloc, ?_⟩⟩
    refine Lts.bind_eq_ok.mpr ⟨e, deref_some hat, Lts.bind_eq_ok.mpr ⟨_, hread, ?_⟩⟩
    dsimp only
    rw [installPage_of_none (k := { k₂ with mem := mem }) hnone, if_pos hset]
    rfl

/-- A slot in use is read into a page that has just been installed and may be written. -/
theorem swapIn_succeeds {s : Swap} {index : ℕ} {pte : Pte} (hs : k.swap = some s)
    (hidx : s.map[index]? = some true) :
    (∃ k', swapIn (k.setPte t va pte) t index va = .ok k') ↔ pte.writable = true := by
  let k₁ : Kernel := { k.setPte t va pte with swap := some (s.setSlot index false) }
  have hstore : swapIn (k.setPte t va pte) t index va =
      storeUserPage k₁ t va (blockReadPage s.disk index) := by
    unfold swapIn
    rw [show (k.setPte t va pte).swap = some s from hs]
    dsimp only
    rw [hidx]
  have hpte : k₁.pteOf t va = some pte :=
    pteOf_setPte.trans (if_pos ⟨rfl, rfl⟩)
  rw [hstore]
  constructor
  · rintro ⟨k', hk'⟩
    exact (storeUserPage_ok hpte hk').1
  · intro hw
    exact ⟨_, Lts.bind_eq_ok.mpr ⟨pte, deref_some hpte, if_pos hw⟩⟩

/-- `load_swap` succeeds if there is a frame, the page directory takes the page and the
page may be written, for `swap_in` stores through the user address. -/
theorem loadSwap_true (h : Sound k) (hx : NoneExiting k) (hi : (slots k).Exclusive)
    (ht : k.status t = .alive) (he : Entry k t p e) (hl : e.isLoaded = false)
    (hty : e.type = .swap) : (∃ k', loadSwap env k t p = .ok (true, k')) ↔
      env.setPage = true ∧ e.writable = true ∧ ∃ r, frameAlloc env false k t p = .ok r := by
  -- the state in which the page is swapped in
  have hframe : ∀ frame k₂, frameAlloc env false k t p = .ok (frame, k₂) →
      k₂.sptes p = some e ∧ k₂.pteOf t e.unusedVirtualAddress = none ∧
        ∃ s, k₂.swap = some s ∧ s.map[e.swapIndex]? = some true := by
    intro frame k₂ halloc
    obtain ⟨k₁, hev, -, rfl⟩ := frameAlloc_ok h hx halloc
    have h₁ : Sound k₁ := h.changes (hev.changes .none)
    have hent := hev.entry h he hl
    have hlive : k₁.Live t := .inl (by rw [hev.reshapes.status]; exact ht)
    have hslot := (slots_exclusive_changes h hi (hev.changes .none)).1 (t, p) e.swapIndex
      ⟨hlive, swappedOut_of_entry hent hty hl⟩
    exact ⟨hent.at_ptr, h₁.tables.pteOf_none hent hl, hslot⟩
  constructor
  · rintro ⟨k', hload⟩
    obtain ⟨⟨frame, k₂⟩, halloc, hload⟩ := Lts.bind_eq_ok.mp hload
    obtain ⟨hat, hnone, s, hs, hidx⟩ := hframe frame k₂ halloc
    obtain ⟨e₁, he₁, hload⟩ := Lts.bind_eq_ok.mp hload
    obtain rfl := Option.some.inj (hat.symm.trans (deref_ok he₁))
    rw [installPage_of_none hnone] at hload
    by_cases hset : env.setPage = true
    · rw [if_pos hset] at hload
      obtain ⟨k₃, hin, -⟩ := Lts.bind_eq_ok.mp hload
      exact ⟨hset, (swapIn_succeeds hs hidx).mp ⟨k₃, hin⟩, _, halloc⟩
    · rw [if_neg hset] at hload
      cases hload
  · rintro ⟨hset, hw, ⟨frame, k₂⟩, halloc⟩
    obtain ⟨hat, hnone, s, hs, hidx⟩ := hframe frame k₂ halloc
    let pte : Pte := { frame := frame, writable := e.writable, accessed := false, dirty := false }
    have hstore : pte.writable = true := hw
    obtain ⟨k₃, hin⟩ : ∃ k₃, swapIn (k₂.setPte t e.unusedVirtualAddress pte) t e.swapIndex
        e.unusedVirtualAddress = .ok k₃ := (swapIn_succeeds hs hidx).mpr hstore
    refine ⟨k₃.setSpte p (some { e with isLoaded := true }), ?_⟩
    refine Lts.bind_eq_ok.mpr ⟨_, halloc, Lts.bind_eq_ok.mpr ⟨e, deref_some hat, ?_⟩⟩
    rw [installPage_of_none hnone, if_pos hset]
    exact Lts.bind_eq_ok.mpr ⟨k₃, hin, rfl⟩

/-- The entry of a page that `load_page` is called for, once it is pinned. -/
def pinEntry (k : Kernel) (p : Ptr) (e : Spte) : Kernel :=
  k.setSpte p (some { e with pinned := true })

/-- The page of the entry `e` at `p` can be loaded: the page directory takes it, there is
a frame, and the file it is read from is long enough, or the page in its swap slot may
be written. -/
structure Loadable (env : Env) (k : Kernel) (t : Tid) (p : Ptr) (e : Spte) : Prop where
  setPage : env.setPage = true
  source : if e.type = .swap then e.writable = true else Covered k e
  frame : ∃ r, frameAlloc env (e.type ≠ .swap ∧ e.readBytes.toNat = 0) (pinEntry k p e) t p = .ok r

/-- `load_page` returns true for the entries that can be loaded. -/
theorem loadPage_true (h : Sound k) (hx : NoneExiting k) (hi : (slots k).Exclusive)
    (ht : k.status t = .alive) (he : Entry k t p e) (hl : e.isLoaded = false) :
    (∃ k', loadPage env k t p = .ok (true, k')) ↔ Loadable env k t p e := by
  have hpin : Change .none k (pinEntry k p e) := .pin true he.at_ptr nofun
  have h₁ : Sound (pinEntry k p e) := h.change hpin
  have hi₁ : (slots (pinEntry k p e)).Exclusive := slots_exclusive_changes h hi (.single hpin)
  have hent : Entry (pinEntry k p e) t p { e with pinned := true } :=
    ⟨he.mem, Function.update_self ..⟩
  by_cases hty : e.type = .swap
  · have heq : loadPage env k t p = loadSwap env (pinEntry k p e) t p := by
      have hnot : ¬ e.isLoaded = true := by
        rw [hl]
        exact Bool.false_ne_true
      unfold loadPage
      rw [he.at_ptr]
      refine (if_neg hnot).trans ?_
      split
      next hother => exact absurd (hty.symm.trans hother) (by decide)
      next => rfl
      next hother => exact absurd (hty.symm.trans hother) (by decide)
      next hother => exact absurd (hty.symm.trans hother) (by decide)
    rw [heq, loadSwap_true h₁ hx hi₁ ht hent hl hty]
    have hzero : decide (e.type ≠ .swap ∧ e.readBytes.toNat = 0) = false :=
      decide_eq_false fun hno => hno.1 hty
    constructor
    · rintro ⟨hset, hw, hframe⟩
      exact ⟨hset, by rw [if_pos hty]; exact hw, by rw [hzero]; exact hframe⟩
    · rintro ⟨hset, hsource, hframe⟩
      rw [if_pos hty] at hsource
      rw [hzero] at hframe
      exact ⟨hset, hsource, hframe⟩
  · have hfile : e.type = .file ∨ e.type = .mmap := by
      obtain ⟨x, hx, herr⟩ := h.tables.allocated t p he.mem
      obtain rfl := he.eq_of_at hx
      cases htype : e.type with
      | file => exact .inl rfl
      | swap => exact absurd htype hty
      | mmap => exact .inr rfl
      | hashError => exact absurd htype herr
    rw [loadPage_file he.at_ptr hl hfile]
    have hzero : decide (e.type ≠ .swap ∧ e.readBytes.toNat = 0) = decide (e.readBytes.toNat = 0) :=
      decide_eq_decide.mpr ⟨fun hyes => hyes.2, fun hyes => ⟨hty, hyes⟩⟩
    refine (loadFile_true h₁ hx hent hl).trans ?_
    constructor
    · rintro ⟨hset, hcover, hframe⟩
      exact ⟨hset, by rw [if_neg hty]; exact hcover, by rw [hzero]; exact hframe⟩
    · rintro ⟨hset, hsource, hframe⟩
      rw [if_neg hty] at hsource
      rw [hzero] at hframe
      exact ⟨hset, hsource, hframe⟩

/-- A page that is not present is not loaded. -/
theorem notLoaded_of_getSpte (h : Sound k) (hnone : k.pteOf t (pgRoundDown a) = none)
    (hget : getSpte k t a = some p) (he : Entry k t p e) : e.isLoaded = false := by
  cases hl : e.isLoaded with
  | false => rfl
  | true =>
      obtain ⟨-, pte, -, -, -, hpte, -⟩ := h.tables.loaded_pte he hl
      rw [(getSpte_address hget).2 e he.at_ptr, hnone] at hpte
      cases hpte

/-! ## The two paths -/

/-- The page has been brought in: the handler's `load` flag is true, or the check has
returned. -/
def Resolves (r : Except String Kernel) (t : Tid) (k' : Kernel) : Prop :=
  r = .ok k' ∧ k'.status t = .alive

theorem not_resolves_killed : ¬ Resolves (.ok (k.setStatus t .killed)) t k' := by
  rintro ⟨heq, halive⟩
  cases heq
  rw [setStatus_status, if_pos rfl] at halive
  cases halive

/-- The process goes on if and only if the page has been loaded. -/
theorem resolves_load (ht : k₁.status t = .alive) :
    Resolves (.ok (if b then k₁ else k₁.setStatus t .killed)) t k' ↔ b = true ∧ k₁ = k' := by
  cases b with
  | true =>
      constructor
      · rintro ⟨heq, -⟩
        exact ⟨rfl, Except.ok.inj heq⟩
      · rintro ⟨-, rfl⟩
        exact ⟨rfl, ht⟩
  | false =>
      constructor
      · intro hres
        exact absurd hres not_resolves_killed
      · rintro ⟨hb, -⟩
        cases hb

/-- The handler takes addresses of users above `USER_VADDR_BOTTOM`. -/
theorem pageFault_refused (ha : ¬ (a > userVaddrBottom ∧ isUserVaddr a)) :
    pageFault env k t a esp = .ok (k.setStatus t .killed) := by
  unfold pageFault
  dsimp only
  rw [if_neg fun hno => ha hno.2]
  rfl

/-- The check takes addresses of users from `USER_VADDR_BOTTOM` on. -/
theorem checkValidPtr_refused (ha : ¬ isUserVaddr a ∨ a < userVaddrBottom) :
    checkValidPtr env k t a esp = .ok (k.setStatus t .killed) := by
  unfold checkValidPtr
  rw [if_pos ha]

/-- The handler brings in a page with an entry. -/
theorem pageFault_entry (h : Sound k) (hx : NoneExiting k) (ht : k.status t = .alive)
    (hnone : k.pteOf t (pgRoundDown a) = none) (ha : a > userVaddrBottom) (hu : isUserVaddr a)
    (hget : getSpte k t a = some p) :
    Resolves (pageFault env k t a esp) t k' ↔ ∃ k₁ e₁, loadPage env k t p = .ok (true, k₁) ∧
      k₁.sptes p = some e₁ ∧ k' = k₁.setSpte p (some { e₁ with pinned := false }) := by
  obtain ⟨e, he⟩ := getSpte_some h hget
  have hfault : pageFault env k t a esp = (do
      let r ← loadPage env k t p
      let e ← deref (r.2.sptes p)
      let k := r.2.setSpte p (some { e with pinned := false })
      return if r.1 then k else k.setStatus t .killed) := by
    unfold pageFault
    dsimp only
    rw [if_pos ⟨by rw [hnone]; rfl, ha, hu⟩, hget]
    rfl
  rw [hfault]
  constructor
  · rintro ⟨hok, halive⟩
    obtain ⟨⟨load, k₁⟩, hload, hrest⟩ := Lts.bind_eq_ok.mp hok
    obtain ⟨e₁, he₁, hret⟩ := Lts.bind_eq_ok.mp hrest
    have hst : k₁.status t = .alive := by
      rw [(loadPage_changes (R := .none) h hx he ht hload).status]
      exact ht
    have hst' : (k₁.setSpte p (some { e₁ with pinned := false })).status t = .alive := hst
    obtain ⟨rfl, hk'⟩ := (resolves_load hst').mp ⟨hret, halive⟩
    exact ⟨k₁, e₁, hload, deref_ok he₁, hk'.symm⟩
  · rintro ⟨k₁, e₁, hload, he₁, rfl⟩
    refine ⟨Lts.bind_eq_ok.mpr ⟨_, hload, Lts.bind_eq_ok.mpr ⟨e₁, deref_some he₁, rfl⟩⟩, ?_⟩
    show k₁.status t = .alive
    rw [(loadPage_changes (R := .none) h hx he ht hload).status]
    exact ht

/-- So does the check, which asks the entry whether the page is loaded. -/
theorem checkValidPtr_entry (h : Sound k) (hx : NoneExiting k) (ht : k.status t = .alive)
    (hnone : k.pteOf t (pgRoundDown a) = none) (ha : a ≥ userVaddrBottom) (hu : isUserVaddr a)
    (hget : getSpte k t a = some p) :
    Resolves (checkValidPtr env k t a esp) t k' ↔ loadPage env k t p = .ok (true, k') := by
  obtain ⟨e, he⟩ := getSpte_some h hget
  have hl := notLoaded_of_getSpte h hnone hget he
  have hcheck : checkValidPtr env k t a esp = (do
      let r ← loadPage env k t p
      let e ← deref (r.2.sptes p)
      return if e.isLoaded then r.2 else r.2.setStatus t .killed) := by
    unfold checkValidPtr
    rw [if_neg, hget]
    · rfl
    · rintro (hno | hlt)
      · exact hno hu
      · exact UInt32.not_lt.mpr ha hlt
  rw [hcheck]
  constructor
  · rintro ⟨hok, halive⟩
    obtain ⟨⟨load, k₁⟩, hload, hrest⟩ := Lts.bind_eq_ok.mp hok
    obtain ⟨e₁, he₁, hret⟩ := Lts.bind_eq_ok.mp hrest
    have hst : k₁.status t = .alive := by
      rw [(loadPage_changes (R := .none) h hx he ht hload).status]
      exact ht
    obtain ⟨hloaded, rfl⟩ := (resolves_load hst).mp ⟨hret, halive⟩
    rw [← Option.some.inj ((loadPage_entry he.at_ptr hload).symm.trans (deref_ok he₁))] at hloaded
    have hb : (e.isLoaded || load) = true := hloaded
    rw [hl, Bool.false_or] at hb
    rw [hload, hb]
  · intro hload
    have hat := loadPage_entry he.at_ptr hload
    refine ⟨Lts.bind_eq_ok.mpr ⟨_, hload, Lts.bind_eq_ok.mpr ⟨_, deref_some hat, ?_⟩⟩, ?_⟩
    · dsimp only
      rw [Bool.or_true]
      rfl
    · rw [(loadPage_changes (R := .none) h hx he ht hload).status]
      exact ht

/-- Without an entry both paths leave it to `stack_growth`. -/
theorem pageFault_stack (hnone : k.pteOf t (pgRoundDown a) = none) (ha : a > userVaddrBottom)
    (hu : isUserVaddr a) (hget : getSpte k t a = none) :
    pageFault env k t a esp = checkValidPtr env k t a esp := by
  have hok : ¬ (¬ isUserVaddr a ∨ a < userVaddrBottom) := by
    rintro (hno | hlt)
    · exact hno hu
    · exact UInt32.lt_asymm ha hlt
  unfold pageFault checkValidPtr
  dsimp only
  rw [if_pos ⟨by rw [hnone]; rfl, ha, hu⟩, if_neg hok, hget]

/-- `USER_VADDR_BOTTOM` is too far below `PHYS_BASE` for the stack. -/
theorem checkValidPtr_bottom (hget : getSpte k t userVaddrBottom = none) :
    checkValidPtr env k t userVaddrBottom esp = .ok (k.setStatus t .killed) := by
  have hok : ¬ (¬ isUserVaddr userVaddrBottom ∨ userVaddrBottom < userVaddrBottom) := by decide
  have hgrow : stackGrowth env 0 k t userVaddrBottom = .ok (false, k) := by
    unfold stackGrowth
    exact if_pos (by decide)
  unfold checkValidPtr
  rw [if_neg hok, hget]
  dsimp only
  split
  · rw [hgrow]
    rfl
  · rfl

/-! ## Agreement -/

/-- The tables agree, but for pinned flags. -/
structure SameButPins (k₁ k₂ : Kernel) : Prop where
  spt : k₁.spt = k₂.spt
  addresses : ∀ q, addressOf k₁ q = addressOf k₂ q
  pagedir : k₁.pagedir = k₂.pagedir
  frameTblList : k₁.frameTblList = k₂.frameTblList
  entries : ∀ q, (k₁.sptes q).map (fun e => { e with pinned := false }) =
    (k₂.sptes q).map fun e => { e with pinned := false }

theorem sameButPins_setSpte (he : k.sptes p = some e) :
    SameButPins (k.setSpte p (some { e with pinned := false })) k := by
  have hat : ∀ q, q ≠ p → (k.setSpte p (some { e with pinned := false })).sptes q = k.sptes q :=
    fun q hq => Function.update_of_ne hq ..
  have hself : (k.setSpte p (some { e with pinned := false })).sptes p =
      some { e with pinned := false } := Function.update_self ..
  refine ⟨rfl, fun q => ?_, rfl, rfl, fun q => ?_⟩
  · unfold addressOf
    by_cases hq : q = p
    · rw [hq, hself, he]
      rfl
    · rw [hat q hq]
  · by_cases hq : q = p
    · rw [hq, hself, he]
      rfl
    · rw [hat q hq]

theorem SameButPins.refl (k : Kernel) : SameButPins k k :=
  ⟨rfl, fun _ => rfl, rfl, rfl, fun _ => rfl⟩

/-- One path brings the page in if and only if the other one does, with the same tables. -/
structure PathsAgree (env : Env) (k : Kernel) (t : Tid) (a esp : Vaddr) : Prop where
  resolves : (∃ k₁, Resolves (pageFault env k t a esp) t k₁) ↔
    ∃ k₂, Resolves (checkValidPtr env k t a esp) t k₂
  tables : ∀ k₁ k₂, Resolves (pageFault env k t a esp) t k₁ →
    Resolves (checkValidPtr env k t a esp) t k₂ → SameButPins k₁ k₂

/-- What gives the same result agrees. -/
theorem pathsAgree_of_eq (heq : pageFault env k t a esp = checkValidPtr env k t a esp) :
    PathsAgree env k t a esp := by
  refine ⟨by rw [heq], ?_⟩
  rintro k₁ k₂ ⟨h₁, -⟩ ⟨h₂, -⟩
  rw [heq] at h₁
  obtain rfl := Except.ok.inj (h₁.symm.trans h₂)
  exact .refl k₁

theorem pathsAgree_entry (h : Sound k) (hx : NoneExiting k) (ht : k.status t = .alive)
    (hnone : k.pteOf t (pgRoundDown a) = none) (ha : a > userVaddrBottom) (hu : isUserVaddr a)
    (hget : getSpte k t a = some p) : PathsAgree env k t a esp := by
  have hge : a ≥ userVaddrBottom := UInt32.le_of_lt ha
  obtain ⟨e, he⟩ := getSpte_some h hget
  constructor
  · constructor
    · rintro ⟨k₁, hres⟩
      obtain ⟨k₂, -, hload, -, -⟩ := (pageFault_entry h hx ht hnone ha hu hget).mp hres
      exact ⟨k₂, (checkValidPtr_entry h hx ht hnone hge hu hget).mpr hload⟩
    · rintro ⟨k₂, hres⟩
      have hload := (checkValidPtr_entry h hx ht hnone hge hu hget).mp hres
      exact ⟨_, (pageFault_entry h hx ht hnone ha hu hget).mpr
        ⟨k₂, _, hload, loadPage_entry he.at_ptr hload, rfl⟩⟩
  · intro k₁ k₂ hres₁ hres₂
    obtain ⟨k₃, e₁, hload, he₁, rfl⟩ := (pageFault_entry h hx ht hnone ha hu hget).mp hres₁
    have hload₂ := (checkValidPtr_entry h hx ht hnone hge hu hget).mp hres₂
    obtain rfl := (Prod.mk.inj (Except.ok.inj (hload.symm.trans hload₂))).2
    exact sameButPins_setSpte he₁

/-- At `USER_VADDR_BOTTOM` the handler refuses every page. -/
theorem pathsAgree_bottom (h : Sound k) (hx : NoneExiting k) (hi : (slots k).Exclusive)
    (ht : k.status t = .alive) (hnone : k.pteOf t (pgRoundDown userVaddrBottom) = none) :
    PathsAgree env k t userVaddrBottom esp ↔
      ∀ p e, getSpte k t userVaddrBottom = some p → k.sptes p = some e →
        ¬ Loadable env k t p e := by
  have hfault : pageFault env k t userVaddrBottom esp = .ok (k.setStatus t .killed) :=
    pageFault_refused fun hno => UInt32.lt_irrefl _ hno.1
  cases hget : getSpte k t userVaddrBottom with
  | none =>
      constructor
      · intro _ p e hp
        cases hp
      · intro _
        exact pathsAgree_of_eq (hfault.trans (checkValidPtr_bottom hget).symm)
  | some p =>
      obtain ⟨e, he⟩ := getSpte_some h hget
      have hl := notLoaded_of_getSpte h hnone hget he
      have hcheck : ∀ k', Resolves (checkValidPtr env k t userVaddrBottom esp) t k' ↔
          loadPage env k t p = .ok (true, k') := fun _ =>
        checkValidPtr_entry h hx ht hnone (UInt32.le_refl _) (by decide) hget
      have hload : (∃ k', loadPage env k t p = .ok (true, k')) ↔ Loadable env k t p e :=
        loadPage_true h hx hi ht he hl
      constructor
      · intro hagree q x hq hx' hloadable
        obtain rfl := Option.some.inj hq
        obtain rfl := he.eq_of_at hx'
        obtain ⟨k', hk'⟩ := hload.mpr hloadable
        obtain ⟨k₁, hres⟩ := hagree.resolves.mpr ⟨k', (hcheck k').mpr hk'⟩
        rw [hfault] at hres
        exact not_resolves_killed hres
      · intro hno
        constructor
        · constructor
          · rintro ⟨k₁, hres⟩
            rw [hfault] at hres
            exact absurd hres not_resolves_killed
          · rintro ⟨k₂, hres⟩
            exact absurd (hload.mp ⟨k₂, (hcheck k₂).mp hres⟩) (hno p e rfl he.at_ptr)
        · intro k₁ k₂ hres
          rw [hfault] at hres
          exact absurd hres not_resolves_killed

/-- The two paths agree on every address except `USER_VADDR_BOTTOM`, and there if its
page cannot be loaded. -/
theorem page_in_paths_agree (h : Reachable m k) (ht : k.status t = .alive)
    (hnone : k.pteOf t (pgRoundDown a) = none) (env : Env) (esp : Vaddr) :
    PathsAgree env k t a esp ↔ (a = userVaddrBottom →
      ∀ p e, getSpte k t a = some p → k.sptes p = some e → ¬ Loadable env k t p e) := by
  obtain ⟨hsound, hx⟩ := settled_of_reachable h
  by_cases hbottom : a = userVaddrBottom
  · subst hbottom
    rw [pathsAgree_bottom hsound hx (slots_exclusive_of_reachable h) ht hnone]
    exact ⟨fun hno _ => hno, fun hno => hno rfl⟩
  · refine ⟨fun _ heq => absurd heq hbottom, fun _ => ?_⟩
    by_cases hu : isUserVaddr a
    · rcases UInt32.lt_or_lt_of_ne hbottom with hlt | hgt
      · -- below the bottom both refuse
        refine pathsAgree_of_eq ?_
        rw [pageFault_refused fun hno => UInt32.lt_asymm hlt hno.1,
          checkValidPtr_refused (.inr hlt)]
      · cases hget : getSpte k t a with
        | none => exact pathsAgree_of_eq (pageFault_stack hnone hgt hu hget)
        | some p => exact pathsAgree_entry hsound hx ht hnone hgt hu hget
    · refine pathsAgree_of_eq ?_
      rw [pageFault_refused fun hno => hu hno.2, checkValidPtr_refused (.inl hu)]

/-! ## The first page of an executable -/

/-- A process whose executable begins at `USER_VADDR_BOTTOM`, as executables do. -/
def bottomRun : List Act := [.load 1 1 [⟨0, 0x08048000, 3, 4093, true⟩] (generous 100)]

/-- The handler kills the process for its first byte, which the check brings in. -/
theorem page_in_paths_disagree : ∃ k, Reachable twoFrames k ∧ k.status 1 = .alive ∧
    k.pteOf 1 (pgRoundDown userVaddrBottom) = none ∧
    ¬ PathsAgree (generous 200) k 1 userVaddrBottom 0xbffffff0 := by
  have hrun : (runActs twoFrames.boot bottomRun).toOption.map
      (fun k => decide (k.status 1 = .alive ∧ k.pteOf 1 (pgRoundDown userVaddrBottom) = none ∧
        (checkValidPtr (generous 200) k 1 userVaddrBottom 0xbffffff0).toOption.map (·.status 1) =
          some .alive)) = some true := by decide +kernel
  obtain ⟨k, hk, hstate⟩ := Option.map_eq_some_iff.mp hrun
  obtain ⟨halive, hnone, hcheck⟩ := of_decide_eq_true hstate
  obtain ⟨k₂, hk₂, halive₂⟩ := Option.map_eq_some_iff.mp hcheck
  refine ⟨k, ⟨bottomRun, run_of_runActs (Lts.eq_ok_of_toOption hk)⟩, halive, hnone, ?_⟩
  intro hagree
  obtain ⟨k₁, hres⟩ := hagree.resolves.mpr ⟨k₂, Lts.eq_ok_of_toOption hk₂, halive₂⟩
  rw [pageFault_refused fun hno => UInt32.lt_irrefl _ hno.1] at hres
  exact not_resolves_killed hres

/-- They agree on its second byte. -/
theorem page_in_paths_agree_run : ∃ k, Reachable twoFrames k ∧ k.status 1 = .alive ∧
    PathsAgree (generous 200) k 1 0x08048001 0xbffffff0 := by
  have hrun : (runActs twoFrames.boot bottomRun).toOption.map
      (fun k => decide (k.status 1 = .alive ∧ k.pteOf 1 (pgRoundDown 0x08048001) = none)) =
      some true := by decide +kernel
  obtain ⟨k, hk, hstate⟩ := Option.map_eq_some_iff.mp hrun
  obtain ⟨halive, hnone⟩ := of_decide_eq_true hstate
  have hreach : Reachable twoFrames k := ⟨bottomRun, run_of_runActs (Lts.eq_ok_of_toOption hk)⟩
  have hne : (0x08048001 : Vaddr) ≠ userVaddrBottom := by decide
  exact ⟨k, hreach, halive, (page_in_paths_agree hreach halive hnone (generous 200)
    0xbffffff0).mpr fun heq => absurd heq hne⟩

end Pintos.Vm
