import Pintos.Lib.Ownership
import Pintos.Vm.FrameTable

/-! # Swap slots

A slot belongs to a page that is swapped out. In every reachable state a page
that is swapped out owns its slot alone, so `swap_in` never finds it free and
`swap_out` never takes it. The other direction fails: `page_function` does not
give the slot of a page back, so a slot can stay in use after its process.
-/

namespace Pintos.Vm

open Ownership

variable {k k' k₁ : Kernel} {t u : Tid} {p q : Ptr} {e e' : Spte} {fte : FrameTblEnt} {a : Act}
  {m : Machine} {as : List Act} {i : ℕ}
  {R : Scope}

/-- An entry says that its page is in slot `i`. -/
def InSlot (o : Option Spte) (i : ℕ) : Prop :=
  ∃ e, o = some e ∧ e.type = .swap ∧ e.isLoaded = false ∧ e.swapIndex = i

/-- The page of process `t` with the entry at `p` is swapped out to slot `i`. -/
def SwappedOut (k : Kernel) (t : Tid) (p : Ptr) (i : ℕ) : Prop :=
  p ∈ k.spt t ∧ InSlot (k.sptes p) i

/-- The slot is `SWAP_IN_USE`. -/
def InUse (k : Kernel) (i : ℕ) : Prop := ∃ s, k.swap = some s ∧ s.map[i]? = some true

/-- The slots, owned by the pages of live processes that are in them. -/
def slots (k : Kernel) : Ledger (Tid × Ptr) ℕ where
  used := InUse k
  owns := fun o i => k.Live o.1 ∧ SwappedOut k o.1 o.2 i

theorem swappedOut_of_entry (he : Entry k t p e) (hty : e.type = .swap)
    (hl : e.isLoaded = false) : SwappedOut k t p e.swapIndex :=
  ⟨he.mem, e, he.at_ptr, hty, hl, rfl⟩

/-- A page that is swapped out is in one slot. -/
theorem SwappedOut.unique {j : ℕ} (h : SwappedOut k t p i) (h' : SwappedOut k t p j) : i = j := by
  rcases h.2 with ⟨e, he, _, _, rfl⟩
  rcases h'.2 with ⟨e', he', _, _, rfl⟩
  rw [Option.some.inj (he.symm.trans he')]

theorem SwappedOut.congr (h : SwappedOut k u q i) (hspt : q ∈ k.spt u → q ∈ k'.spt u)
    (hsptes : k'.sptes q = k.sptes q) : SwappedOut k' u q i :=
  ⟨hspt h.1, hsptes.symm ▸ h.2⟩

theorem not_inSlot_of_loaded (h : ∀ e, k.sptes p = some e → e.isLoaded = true) :
    ¬ InSlot (k.sptes p) i := by
  rintro ⟨e, he, _, hl, _⟩
  rw [h e he] at hl
  cases hl

theorem not_inSlot_of_type (h : ∀ e, k.sptes p = some e → e.type ≠ .swap) :
    ¬ InSlot (k.sptes p) i := by
  rintro ⟨e, he, hty, _⟩
  exact h e he hty

/-- A process inside `process_exit` is not live any more. -/
theorem not_live_of_exiting (h : k.status t = .exiting) : ¬ k.Live t := by
  unfold Kernel.Live
  rw [h]
  rintro (hno | hno)
  · cases hno
  · cases hno

/-- An entry that has been set to loaded is in no slot. -/
theorem not_inSlot_update {f : Ptr → Option Spte} (hl : e.isLoaded = true) :
    ¬ InSlot (Function.update f p (some e) p) i := by
  rw [Function.update_self]
  rintro ⟨y, hy, _, hno, _⟩
  rw [← Option.some.inj hy, hl] at hno
  cases hno

/-! ## What a change does to the slots -/

/-- Only the page at `p` changes, and it is swapped out neither before nor
after. -/
theorem slots_stay (hswap : k'.swap = k.swap) (hstatus : k'.status = k.status)
    (hspt : ∀ u q, q ≠ p → (q ∈ k'.spt u ↔ q ∈ k.spt u))
    (hsptes : ∀ q, q ≠ p → k'.sptes q = k.sptes q)
    (hold : ∀ u i, k.Live u → ¬ SwappedOut k u p i)
    (hnew : ∀ u i, k.Live u → ¬ SwappedOut k' u p i) : (slots k).Move (slots k') := by
  refine .stay ?_ ?_
  · intro i
    unfold slots InUse
    dsimp only
    rw [hswap]
  · rintro ⟨u, q⟩ i
    show k'.Live u ∧ SwappedOut k' u q i ↔ k.Live u ∧ SwappedOut k u q i
    unfold Kernel.Live
    rw [hstatus]
    by_cases hq : q = p
    · subst hq
      constructor
      · rintro ⟨hlive, hout⟩
        exact absurd hout (hnew u i hlive)
      · rintro ⟨hlive, hout⟩
        exact absurd hout (hold u i hlive)
    · constructor
      · rintro ⟨hlive, hout⟩
        exact ⟨hlive, hout.congr (hspt u q hq).mp (hsptes q hq).symm⟩
      · rintro ⟨hlive, hout⟩
        exact ⟨hlive, hout.congr (hspt u q hq).mpr (hsptes q hq)⟩

/-- No page is swapped out or in. -/
theorem slots_same (hswap : k'.swap = k.swap) (hstatus : k'.status = k.status)
    (hspt : k'.spt = k.spt) (hsptes : k'.sptes = k.sptes) : (slots k).Move (slots k') := by
  refine .stay ?_ ?_
  · intro i
    unfold slots InUse
    dsimp only
    rw [hswap]
  · rintro ⟨u, q⟩ i
    unfold slots SwappedOut Kernel.Live
    dsimp only
    rw [hstatus, hspt, hsptes]

theorem inUse_setSlot {s : Swap} {b : Bool} {j : ℕ} (disk : ℕ → Sector) (hs : k.swap = some s)
    (hk' : k'.swap = some { s.setSlot i b with disk := disk }) (hi : i < s.map.length) :
    InUse k' j ↔ if j = i then b = true else InUse k j := by
  unfold InUse
  rw [hk', hs]
  have hmap : ∀ x : Option Bool, (∃ y, some { s.setSlot i b with disk := disk } = some y ∧
      y.map[j]? = x) ↔ (s.map.set i b)[j]? = x := by
    intro x
    constructor
    · rintro ⟨y, hy, hx⟩
      cases hy
      exact hx
    · exact fun hx => ⟨_, rfl, hx⟩
  rw [hmap, List.getElem?_set]
  by_cases hj : j = i
  · subst hj
    simp [hi]
  · rw [if_neg (fun heq => hj heq.symm), if_neg hj]
    constructor
    · exact fun hx => ⟨s, rfl, hx⟩
    · rintro ⟨y, hy, hx⟩
      rw [Option.some.inj hy]
      exact hx

theorem write_fields {i : Inode} {data : ℕ → UInt8} {size ofs : ℕ} :
    (inodeWriteAt k i data size ofs).swap = k.swap ∧
      (inodeWriteAt k i data size ofs).status = k.status ∧
      (inodeWriteAt k i data size ofs).spt = k.spt ∧
      (inodeWriteAt k i data size ofs).sptes = k.sptes := by
  unfold inodeWriteAt
  split <;> exact ⟨rfl, rfl, rfl, rfl⟩

theorem lt_of_slot {s : Swap} {b : Bool} (h : s.map[i]? = some b) : i < s.map.length :=
  (List.getElem?_eq_some_iff.mp h).1

/-- A page is evicted: it keeps out of the swap block, or takes a free slot. -/
theorem slots_evict (h : Sound k) (hfte : fte ∈ k.frameTblList) (he : k.sptes fte.spte = some e)
    (hx : k.status fte.thread ≠ .exiting ∨ e.type = .mmap)
    (hs : savePage k fte e = .ok (e', k')) :
    (slots k).Move (slots (unmapPage k' fte { e' with isLoaded := false })) := by
  rcases h.tables.resident_at hfte he with ⟨hentry, hl, _⟩
  have hold : ∀ u i, k.Live u → ¬ SwappedOut k u fte.spte i := by
    rintro u i _ ⟨_, hin⟩
    refine not_inSlot_of_loaded (fun y hy => ?_) hin
    rw [he] at hy
    rw [← Option.some.inj hy]
    exact hl
  have hkeep : ∀ (k₁ : Kernel) (e₁ : Spte), k₁.sptes = k.sptes →
      ∀ q, q ≠ fte.spte → (unmapPage k₁ fte e₁).sptes q = k.sptes q := by
    intro k₁ e₁ hsptes q hq
    show Function.update k₁.sptes fte.spte (some e₁) q = _
    rw [Function.update_of_ne hq, hsptes]
  -- a page of the executable that is clean, or a page of a mapping, takes no slot
  have hnoSlot : ∀ (k₁ : Kernel) (u : Tid) (i : ℕ), e.type ≠ .swap →
      ¬ SwappedOut (unmapPage k₁ fte { e with isLoaded := false }) u fte.spte i := by
    rintro k₁ u i hty ⟨_, y, hy, htype, _⟩
    have hupd : (unmapPage k₁ fte { e with isLoaded := false }).sptes fte.spte =
        some { e with isLoaded := false } := Function.update_self ..
    rw [hupd] at hy
    rw [← Option.some.inj hy] at htype
    exact hty htype
  cases saved_of_savePage hs with
  | clean hd hty =>
      exact slots_stay rfl rfl (fun _ _ _ => Iff.rfl) (hkeep k _ rfl) hold
        fun u i _ => hnoSlot k u i hty
  | @written o hd hty ho =>
      rcases write_fields with ⟨hswap, hstatus, hspt, hsptes⟩
      refine slots_stay hswap hstatus (fun u q _ => ?_) (hkeep _ _ hsptes) hold
        fun u i _ => hnoSlot _ u i (by rw [hty]; decide)
      show q ∈ (inodeWriteAt k _ _ _ _).spt u ↔ _
      rw [hspt]
  | @swapped s index hd hty hs' hfree =>
      have hlive : k.Live fte.thread := by
        have habs := h.tables.living fte.thread fte.spte hentry.mem
        have hexit := hx.resolve_right hty
        unfold Kernel.Live
        cases hst : k.status fte.thread with
        | absent => exact absurd hst habs
        | alive => exact .inl rfl
        | killed => exact .inr rfl
        | exiting => exact absurd hst hexit
      refine .take (fte.thread, fte.spte) index ?_ ?_ ?_
      · rintro ⟨y, hy, htrue⟩
        rw [hs'] at hy
        rw [← Option.some.inj hy, hfree] at htrue
        cases htrue
      · intro j
        show InUse _ j ↔ InUse k j ∨ j = index
        rw [inUse_setSlot _ hs' rfl (lt_of_slot hfree)]
        by_cases hj : j = index
        · simp [hj]
        · simp [hj]
      · rintro ⟨u, q⟩ j
        show k.Live u ∧ SwappedOut _ u q j ↔ (k.Live u ∧ SwappedOut k u q j) ∨ _
        by_cases hq : q = fte.spte
        · subst hq
          constructor
          · rintro ⟨_, hm, y, hy, _, _, hidx⟩
            have hu : u = fte.thread := h.tables.apart u _ _ hm hentry.mem
            have hupd := (Function.update_self (f := k.sptes) fte.spte _).symm.trans hy
            cases hupd
            exact .inr ⟨by rw [hu], hidx.symm⟩
          · rintro (⟨hu, hout⟩ | ⟨heq, rfl⟩)
            · exact absurd hout (hold u j hu)
            · cases heq
              exact ⟨hlive, hentry.mem, _, Function.update_self .., rfl, rfl, rfl⟩
        · constructor
          · rintro ⟨hu, hout⟩
            exact .inl ⟨hu, hout.congr id (Function.update_of_ne hq ..).symm⟩
          · rintro (⟨hu, hout⟩ | ⟨heq, _⟩)
            · exact ⟨hu, hout.congr id (Function.update_of_ne hq ..)⟩
            · exact absurd (congrArg Prod.snd heq) hq

/-- A new entry that is not of type `SWAP` is in no slot. -/
theorem slots_insert {upage : Vaddr} {page : Page} (hp : Unused k p) (he : k.sptes p = some e)
    (hty : e.type ≠ .swap) (hswap : k₁.swap = k.swap) (hstatus : k₁.status = k.status)
    (hspt : k₁.spt = k.spt) (hsptes : k₁.sptes = k.sptes) :
    (slots k).Move (slots (insertEntry k₁ t p upage page)) := by
  refine slots_stay (p := p) hswap hstatus (fun u q hq => ?_) (fun q _ => congrFun hsptes q)
    (fun u _ _ hout => hp.spt u hout.1) ?_
  · rw [mem_insertEntry, hspt]
    exact or_iff_left fun heq => hq heq.2
  · rintro u i _ ⟨_, hin⟩
    have hin' : InSlot (k.sptes p) i := hsptes ▸ hin
    refine not_inSlot_of_type (fun y hy => ?_) hin'
    rwa [← Option.some.inj (he.symm.trans hy)]

/-- A page is read back from its slot, which becomes free. -/
theorem slots_swapIn {frame : Frame} {page : Page} {s : Swap} (h : Sound k) (he : Entry k t p e)
    (hl : e.isLoaded = false) (hty : e.type = .swap) (ht : k.status t = .alive)
    (hs : k.swap = some s) (hidx : s.map[e.swapIndex]? = some true) :
    (slots k).Move (slots (mapPage (releaseSlot k s e.swapIndex) t p e frame page true)) := by
  have hown : (slots k).owns (t, p) e.swapIndex := ⟨.inl ht, swappedOut_of_entry he hty hl⟩
  refine .give (t, p) e.swapIndex hown (fun j hj => hj.2.unique hown.2) ?_ ?_
  · intro j
    show InUse _ j ↔ InUse k j ∧ j ≠ e.swapIndex
    rw [inUse_setSlot s.disk hs rfl (lt_of_slot hidx)]
    by_cases hj : j = e.swapIndex
    · simp [hj]
    · simp [hj]
  · rintro ⟨u, q⟩ j
    show k.Live u ∧ SwappedOut _ u q j ↔ (k.Live u ∧ SwappedOut k u q j) ∧ _
    by_cases hq : q = p
    · subst hq
      constructor
      · rintro ⟨_, _, hin⟩
        exact absurd hin (not_inSlot_update rfl)
      · rintro ⟨⟨_, hout⟩, hne⟩
        exact absurd (by rw [h.tables.apart u t q hout.1 he.mem]) hne
    · constructor
      · rintro ⟨hu, hout⟩
        exact ⟨⟨hu, hout.congr id (Function.update_of_ne hq ..).symm⟩,
          fun heq => hq (congrArg Prod.snd heq)⟩
      · rintro ⟨⟨hu, hout⟩, _⟩
        exact ⟨hu, hout.congr id (Function.update_of_ne hq ..)⟩

/-- Pages of live processes take slots and give them back, one page at a time. -/
theorem slots_change (h : Sound k) (hi : (slots k).Exclusive) (hc : Change R k k') :
    (slots k).Move (slots k') := by
  cases hc with
  | access accessed hpte => exact slots_same rfl rfl rfl rfl
  | @pin p e pinned he =>
      refine .stay (fun i => Iff.rfl) ?_
      rintro ⟨u, q⟩ i
      show k.Live u ∧ SwappedOut _ u q i ↔ k.Live u ∧ SwappedOut k u q i
      unfold SwappedOut InSlot
      by_cases hq : q = p
      · subst hq
        have hupd : (k.setSpte q (some { e with pinned := pinned })).sptes q =
            some { e with pinned := pinned } := Function.update_self ..
        rw [hupd, he]
        simp [Kernel.setSpte]
      · have hupd : (k.setSpte p (some { e with pinned := pinned })).sptes q = k.sptes q :=
          Function.update_of_ne hq ..
        rw [hupd]
        rfl
  | @cell p o hp =>
      exact slots_stay (p := p) rfl rfl (fun _ _ _ => Iff.rfl)
        (fun q hq => Function.update_of_ne hq ..) (fun u _ _ hout => hp.spt u hout.1)
        fun u _ _ hout => hp.spt u hout.1
  | free hl hm => exact slots_same rfl rfl rfl rfl
  | evict hfte he hx hs => exact slots_evict h hfte he hx hs
  | @discard fte e hfte he hx hm =>
      rcases h.tables.resident fte hfte with ⟨x, pte, hentry, _⟩
      have hdead : ∀ u, fte.spte ∈ k.spt u → ¬ k.Live u := by
        intro u hu
        rw [h.tables.apart u _ _ hu hentry.mem]
        exact not_live_of_exiting hx
      exact slots_stay rfl rfl (fun _ _ _ => Iff.rfl) (fun q hq => Function.update_of_ne hq ..)
        (fun u i hu hout => hdead u hout.1 hu) fun u i hu hout => hdead u hout.1 hu
  | @readIn t p e frame he hl hty hf hpte =>
      refine slots_stay (p := p) rfl rfl (fun _ _ _ => Iff.rfl)
        (fun q hq => Function.update_of_ne hq ..) ?_ ?_
      · rintro u i _ ⟨_, hin⟩
        refine not_inSlot_of_type (fun y hy => ?_) hin
        rw [← he.eq_of_at hy]
        rcases hty with hty | hty <;> rw [hty] <;> decide
      · rintro u i _ ⟨_, hin⟩
        exact not_inSlot_update rfl hin
  | swapIn he hl hty hf hpte ht hs hidx => exact slots_swapIn h he hl hty ht hs hidx
  | @swapInNothing t p e frame page he hl hty hf hpte ht hs =>
      -- there is a swap block, since the page is in one of its slots
      rcases hi.used (t, p) e.swapIndex ⟨.inl ht, swappedOut_of_entry he hty hl⟩ with ⟨s, hs', _⟩
      rw [hs] at hs'
      cases hs'
  | @growStack t p e frame page hp he hl hty hf hpte hnew ht =>
      refine slots_stay (p := p) rfl rfl
        (fun u q hq => mem_insertEntry.trans (or_iff_left fun heq => hq heq.2))
        (fun q hq => Function.update_of_ne hq ..) (fun u _ _ hout => hp.spt u hout.1) ?_
      rintro u i _ ⟨_, hin⟩
      exact not_inSlot_update rfl hin
  | addFile hp he hl hty hnew ht =>
      refine slots_insert hp he ?_ rfl rfl rfl rfl
      rw [hty]
      decide
  | addMmap hp he hl hty hnew ht =>
      refine slots_insert hp he ?_ rfl rfl rfl rfl
      rw [hty]
      decide
  | addHashError hp he hl hty ht => exact slots_same rfl rfl rfl rfl
  | @removeMapping t mm e hmm he hl =>
      have hr := h.removes_forgetMapping hmm he
      have hrest := hr.rest
      refine slots_stay (p := mm.spte) (by rw [hrest]) (by rw [hrest]) (fun u q hq => ?_)
        hr.sptes ?_ ?_
      · rw [hr.spt]
        exact and_iff_left hq
      · -- pages of mappings are never swapped out
        rintro u i _ ⟨hm, hin⟩
        refine not_inSlot_of_type (fun y hy => ?_) hin
        rcases h.mappings.entry t mm hmm with ⟨x, hx, ⟨hty, _⟩ | ⟨_, _, hno⟩⟩
        · rw [← Option.some.inj (hx.symm.trans hy), hty]
          decide
        · exact absurd hm (hno u)
      · rintro u i _ ⟨hm, _⟩
        exact ((hr.spt u _).mp hm).2 rfl
  | @destroy t p rest e hx hspt he hl hm =>
      have hr := h.removes_destroy hspt hm
      refine slots_stay (p := p) rfl rfl ?_ hr.sptes ?_ ?_
      · intro u q hq
        rw [hr.spt]
        exact and_iff_left hq
      · rintro u i hlive ⟨hmem, _⟩
        have hut : u = t := h.tables.apart u t p hmem (by rw [hspt]; exact List.mem_cons_self)
        rw [hut] at hlive
        exact not_live_of_exiting hx hlive
      · rintro u i _ ⟨hmem, _⟩
        exact ((hr.spt u _).mp hmem).2 rfl
  | openFile i hf => exact slots_same rfl rfl rfl rfl
  | closeFile hf => exact slots_same rfl rfl rfl rfl
  | addDescriptor ht hopen hf => exact slots_same rfl rfl rfl rfl
  | removeDescriptor hpf => exact slots_same rfl rfl rfl rfl
  | newMapid t => exact slots_same rfl rfl rfl rfl

/-! ## Every page that is swapped out owns its slot -/

theorem slots_exclusive_changes (h : Sound k) (hi : (slots k).Exclusive) (hc : Changes R k k') :
    (slots k').Exclusive := by
  have hgen : Sound k' ∧ (slots k').Exclusive :=
    hc.invariant (P := fun x => Sound x ∧ (slots x).Exclusive)
      (fun _ _ hc hx => ⟨hx.1.change hc, (slots_change hx.1 hx.2 hc).exclusive hx.2⟩) ⟨h, hi⟩
  exact hgen.2

theorem store_fields {va : Vaddr} {byte : UInt8} (hs : userStore k t va byte = .ok k') :
    k'.swap = k.swap ∧ k'.status = k.status ∧ k'.spt = k.spt ∧ k'.sptes = k.sptes := by
  rcases userStore_ok hs with ⟨pte, _, _, rfl⟩
  exact ⟨rfl, rfl, rfl, rfl⟩

/-- A process that was live stays live when another one changes its status. -/
theorem live_setStatus_iff {s : ProcessStatus} (hs : s = .killed ∨ s = .exiting ∨ s = .absent) :
    (k.setStatus t s).Live u ↔ if u = t then s = .killed else k.Live u := by
  unfold Kernel.Live
  rw [setStatus_status]
  by_cases hu : u = t
  · rw [if_pos hu, if_pos hu]
    rcases hs with rfl | rfl | rfl <;> simp
  · rw [if_neg hu, if_neg hu]

/-- A process that leaves has no slots of its own any more. -/
theorem slots_exclusive_setStatus {s : ProcessStatus} (hi : (slots k).Exclusive)
    (hs : s = .exiting ∨ s = .absent) : (slots (k.setStatus t s)).Exclusive := by
  refine hi.drop (fun _ hu => hu) ?_
  rintro ⟨u, q⟩ i ⟨hlive, hout⟩
  refine ⟨?_, hout⟩
  have hl := (live_setStatus_iff (.inr hs)).mp hlive
  by_cases hu : u = t
  · rw [if_pos hu] at hl
    rcases hs with rfl | rfl <;> cases hl
  · rwa [if_neg hu] at hl

/-- A new process has none yet. -/
theorem slots_exclusive_start (h : Sound k) (hi : (slots k).Exclusive) {file : FilePtr}
    {exe : Inode} (ht : k.status t = .absent) : (slots (startProcess k t file exe)).Exclusive := by
  refine hi.drop (fun _ hu => hu) ?_
  rintro ⟨u, q⟩ i ⟨hlive, hout⟩
  have hout' : SwappedOut k u q i := hout
  refine ⟨?_, hout'⟩
  have hu : u ≠ t := by
    rintro rfl
    have hq := hout'.1
    rw [(h.bare ht).1] at hq
    cases hq
  unfold Kernel.Live at hlive ⊢
  rwa [show (startProcess k t file exe).status u = k.status u from
    Function.update_of_ne hu ..] at hlive

theorem slots_exclusive_step (h : Settled k) (hi : (slots k).Exclusive) (hs : Step k a k') :
    (slots k').Exclusive := by
  have heff := step_effect h.sound h.noneExiting hs
  cases heff with
  | changes ha hc => exact slots_exclusive_changes h.sound hi hc
  | @killed _ k₁ ha ht hc =>
      refine (slots_exclusive_changes h.sound hi hc).drop (fun _ hu => hu) ?_
      rintro ⟨u, q⟩ i ⟨hlive, hout⟩
      refine ⟨?_, hout⟩
      by_cases hu : u = a.process
      · subst hu
        left
        rw [hc.status]
        exact ht
      · have hl := (live_setStatus_iff (.inl rfl)).mp hlive
        rwa [if_neg hu] at hl
  | store hst =>
      rcases store_fields hst with ⟨hswap, hstatus, hspt, hsptes⟩
      exact (slots_same hswap hstatus hspt hsptes).exclusive hi
  | write hf ho =>
      rcases write_fields with ⟨hswap, hstatus, hspt, hsptes⟩
      exact (slots_same hswap hstatus hspt hsptes).exclusive hi
  | start ht hfile hc =>
      exact slots_exclusive_changes (h.sound.start ht hfile) (slots_exclusive_start h.sound hi ht) hc
  | @leave t k₁ ht hc hspt hmmap hfiles =>
      have h₀ := h.sound.setStatus (.inr ht) (s := .exiting) (by decide)
      have hi₁ := slots_exclusive_changes h₀ (slots_exclusive_setStatus (t := t) hi (.inl rfl)) hc
      exact slots_exclusive_setStatus (k := pagedirDestroy k₁ t) hi₁ (.inr rfl)

theorem slots_exclusive_of_reachable (h : Reachable m k) : (slots k).Exclusive := by
  have hgen : Settled k ∧ (slots k).Exclusive := by
    refine h.invariant (P := fun x => Settled x ∧ (slots x).Exclusive)
      (fun _ _ _ hs hi => ⟨hi.1.step hs, slots_exclusive_step hi.1 hi.2 hs⟩) ⟨settled_boot m, ?_⟩
    constructor
    · rintro o i ⟨_, hm, _⟩
      cases hm
    · rintro o o' i ⟨_, hm, _⟩
      cases hm
  exact hgen.2

/-! ## The panic of `swap_in` -/

theorem deref_ne {α : Type} (o : Option α) : deref o ≠ .error swapInFree := by
  cases o with
  | none =>
      intro h
      exact absurd (Except.error.inj h) (by decide)
  | some a => exact fun h => by cases h

theorem savePage_ne : savePage k fte e ≠ .error swapInFree := by
  unfold savePage
  split
  next =>
    split
    next =>
      refine Lts.bind_ne_error ?_ fun _ _ h => by cases h
      exact Lts.bind_ne_error (deref_ne _) fun _ _ h => by cases h
    next =>
      refine Lts.bind_ne_error ?_ fun _ _ h => by cases h
      unfold swapOut
      split
      next => exact fun h => absurd (Except.error.inj h) (by decide)
      next =>
        split
        next => exact fun h => absurd (Except.error.inj h) (by decide)
        next => exact fun h => by cases h
  next => exact fun h => by cases h

theorem evictLoop_ne {n : ℕ} {l : List FrameTblEnt} : evictLoop n l k ≠ .error swapInFree := by
  induction n generalizing l k with
  | zero => exact fun h => absurd (Except.error.inj h) (by decide)
  | succ n ih =>
      cases l with
      | nil => exact fun h => absurd (Except.error.inj h) (by decide)
      | cons fte rest =>
          unfold evictLoop
          refine Lts.bind_ne_error (deref_ne _) ?_
          intro e _
          dsimp only
          split
          next => exact ih
          next =>
            split
            next => exact ih
            next => exact Lts.bind_ne_error savePage_ne fun _ _ h => by cases h

theorem frameAlloc_ne {env : Env} {zero : Bool} :
    frameAlloc env zero k t p ≠ .error swapInFree := by
  have huntil : ∀ n k, evictUntilFree env zero n k ≠ .error swapInFree := by
    intro n
    induction n with
    | zero => exact fun _ h => absurd (Except.error.inj h) (by decide)
    | succ n ih =>
        intro k
        unfold evictUntilFree
        refine Lts.bind_ne_error ?_ ?_
        · exact Lts.bind_ne_error evictLoop_ne fun _ _ h => by cases h
        · rintro ⟨o, k₁⟩ _
          cases o with
          | none => exact ih k₁
          | some f => exact fun h => by cases h
  unfold frameAlloc
  refine Lts.bind_ne_error ?_ fun x _ => Lts.bind_ne_error ?_ fun _ _ h => by cases h
  · unfold frameGet
    split
    next => exact fun h => by cases h
    next => exact huntil _ _
  · unfold addFrameToTbl
    split
    next => exact fun h => by cases h
    next => exact fun h => absurd (Except.error.inj h) (by decide)

theorem loadFile_ne {env : Env} : loadFile env k t p ≠ .error swapInFree := by
  unfold loadFile
  refine Lts.bind_ne_error (deref_ne _) fun e _ => Lts.bind_ne_error frameAlloc_ne fun x _ =>
    Lts.bind_ne_error (deref_ne _) fun e' _ => Lts.bind_ne_error ?_ ?_
  · unfold readPage
    split
    next => exact fun h => by cases h
    next =>
      refine Lts.bind_ne_error ?_ ?_
      · exact Lts.bind_ne_error (deref_ne _) fun _ _ h => by cases h
      · intro y _
        dsimp only
        split <;> exact fun h => by cases h
  · rintro ⟨b, k₁⟩ _
    cases b with
    | false => exact fun h => by cases h
    | true =>
        dsimp only
        split <;> exact fun h => by cases h

theorem swapIn_ne {index : ℕ} {va : Vaddr}
    (h : ∀ s, k.swap = some s → s.map[index]? = some true) :
    swapIn k t index va ≠ .error swapInFree := by
  unfold swapIn
  cases hs : k.swap with
  | none => exact fun h => by cases h
  | some s =>
      dsimp only
      rw [h s hs]
      dsimp only
      unfold storeUserPage
      refine Lts.bind_ne_error (deref_ne _) ?_
      intro pte _
      split
      next => exact fun h => by cases h
      next => exact fun h => absurd (Except.error.inj h) (by decide)

/-- `load_page` never gets to the panic of `swap_in`. -/
theorem loadPage_ne {env : Env} (h : Sound k) (hx : NoneExiting k) (hi : (slots k).Exclusive)
    (he : Entry k t p e) (ht : k.status t = .alive) :
    loadPage env k t p ≠ .error swapInFree := by
  unfold loadPage
  refine Lts.bind_ne_error (deref_ne _) ?_
  intro e₁ hd
  have hee : e₁ = e := Option.some.inj ((deref_ok hd).symm.trans he.at_ptr)
  subst hee
  set k₀ := k.setSpte p (some { e₁ with pinned := true }) with hk₀
  have hpin : Changes .none k k₀ := .single (.pin true he.at_ptr fun hf => by cases hf)
  have h₀ := h.changes hpin
  have hi₀ := slots_exclusive_changes h hi hpin
  have hent : Entry k₀ t p { e₁ with pinned := true } := ⟨he.mem, Function.update_self ..⟩
  dsimp only
  split
  next => exact fun h => by cases h
  next hl =>
    have hl' : e₁.isLoaded = false := by simpa using hl
    split
    next => exact loadFile_ne
    next hty =>
      -- the page still owns its slot when `frame_alloc` is done
      unfold loadSwap
      refine Lts.bind_ne_error frameAlloc_ne ?_
      rintro ⟨frame, k₂⟩ halloc
      rcases frameAlloc_ok h₀ hx halloc with ⟨k₁, hev, _, rfl⟩
      have hent₁ := hev.entry h₀ hent hl'
      have hlive : k₁.Live t := by
        left
        rw [(hev.changes .none).status]
        exact ht
      have hout : SwappedOut k₁ t p e₁.swapIndex :=
        swappedOut_of_entry (e := { e₁ with pinned := true }) hent₁ hty hl'
      have hused := (slots_exclusive_changes h₀ hi₀ (hev.changes .none)).used (t, p) _ ⟨hlive, hout⟩
      refine Lts.bind_ne_error (deref_ne _) ?_
      intro e₂ hd₂
      have hee₂ : e₂ = { e₁ with pinned := true } :=
        Option.some.inj ((deref_ok hd₂).symm.trans hent₁.at_ptr)
      subst hee₂
      split
      next => exact fun h => by cases h
      next k₃ hinst =>
        refine Lts.bind_ne_error (swapIn_ne fun s hs => ?_) fun _ _ h => by cases h
        rw [installPage_true hinst] at hs
        rcases hused with ⟨s', hs', htrue⟩
        have hsame : s = s' := Option.some.inj (hs.symm.trans hs')
        rw [hsame]
        exact htrue
    next => exact loadFile_ne
    next => exact fun h => by cases h

/-! ## Ownership in every reachable state -/

/-- Every page that is swapped out has a slot to itself. -/
structure SlotsOwned (k : Kernel) : Prop where
  inUse : ∀ t p e, Entry k t p e → e.type = .swap → e.isLoaded = false → InUse k e.swapIndex
  distinct : ∀ t p e u q e', Entry k t p e → e.type = .swap → e.isLoaded = false →
    Entry k u q e' → e'.type = .swap → e'.isLoaded = false → e.swapIndex = e'.swapIndex →
    t = u ∧ p = q

/-- In every reachable state the pages that are swapped out own their slots; so
`load_page` never finds a slot free, and in no state inside an operation (those
are the states that changes lead to) does `swap_out` take the slot of a page of
a live process. -/
theorem swap_slots_owned (h : Reachable m k) : SlotsOwned k ∧
    (∀ t p e env, Entry k t p e → k.status t = .alive →
      loadPage env k t p ≠ .error swapInFree) ∧
    ∀ R k₁, Changes R k k₁ → ∀ frame index k₂, swapOut k₁ frame = .ok (index, k₂) →
      ∀ t p, k₁.Live t → ¬ SwappedOut k₁ t p index := by
  have hset := settled_of_reachable h
  have hi := slots_exclusive_of_reachable h
  refine ⟨⟨?_, ?_⟩, ?_, ?_⟩
  · intro t p e he hty hl
    exact hi.used (t, p) _ ⟨hset.live he, swappedOut_of_entry he hty hl⟩
  · intro t p e u q e' he hty hl he' hty' hl' heq
    have hown := swappedOut_of_entry he hty hl
    rw [heq] at hown
    have hsame := hi.unique (t, p) (u, q) _ ⟨hset.live he, hown⟩
      ⟨hset.live he', swappedOut_of_entry he' hty' hl'⟩
    exact ⟨congrArg Prod.fst hsame, congrArg Prod.snd hsame⟩
  · intro t p e env he ht
    exact loadPage_ne hset.sound hset.noneExiting hi he ht
  · intro R k₁ hc frame index k₂ hout t p hlive hslot
    rcases (slots_exclusive_changes hset.sound hi hc).used (t, p) index ⟨hlive, hslot⟩ with
      ⟨s, hs, htrue⟩
    unfold swapOut at hout
    rw [hs] at hout
    dsimp only at hout
    cases hidx : s.map.findIdx? (fun inUse => !inUse) with
    | none =>
        rw [hidx] at hout
        cases hout
    | some j =>
        rw [hidx] at hout
        cases hout
        rcases List.findIdx?_eq_some_iff_getElem.mp hidx with ⟨hlt, hfree, _⟩
        rw [List.getElem?_eq_getElem hlt] at htrue
        rw [Option.some.inj htrue] at hfree
        simp at hfree

/-- In the middle of `swapRun` the page that was stored to is in slot 0. -/
theorem swap_slots_owned_run : ∃ k, Reachable twoFrames k ∧
    (k.sptes 100).map (fun e => (e.type, e.isLoaded, e.swapIndex)) = some (.swap, false, 0) ∧
    SlotsOwned k := by
  have hrun : (runActs twoFrames.boot (swapRun.take 4)).toOption.map (fun k =>
      (k.sptes 100).map fun e => (e.type, e.isLoaded, e.swapIndex)) =
      some (some (.swap, false, 0)) := by decide +kernel
  rcases Option.map_eq_some_iff.mp hrun with ⟨k, hk, hslot⟩
  have hreach : Reachable twoFrames k := ⟨_, run_of_runActs (Lts.eq_ok_of_toOption hk)⟩
  exact ⟨k, hreach, hslot, (swap_slots_owned hreach).1⟩

/-! ## Slots without an owner -/

/-- Every slot in use belongs to a page of a live process that is swapped out. -/
def SlotsAccounted (k : Kernel) : Prop :=
  ∀ i, InUse k i → ∃ t p e, k.Live t ∧ Entry k t p e ∧ e.type = .swap ∧ e.isLoaded = false ∧
    e.swapIndex = i

/-- A step in which no process runs `process_exit` while one of its pages is
swapped out. -/
def CleanStep (k : Kernel) (a : Act) (k' : Kernel) : Prop :=
  Step k a k' ∧ ∀ t, a = .processExit t →
    ∀ p e, Entry k t p e → ¬ (e.type = .swap ∧ e.isLoaded = false)

theorem slotsAccounted_iff : SlotsAccounted k ↔ (slots k).Accounted := by
  constructor
  · intro h i hi
    rcases h i hi with ⟨t, p, e, hlive, he, hty, hl, rfl⟩
    exact ⟨(t, p), hlive, swappedOut_of_entry he hty hl⟩
  · intro h i hi
    rcases h i hi with ⟨⟨t, p⟩, hlive, hm, e, he, hty, hl, rfl⟩
    exact ⟨t, p, e, hlive, ⟨hm, he⟩, hty, hl, rfl⟩

theorem slots_accounted_changes (h : Sound k) (hi : (slots k).Exclusive)
    (ha : (slots k).Accounted) (hc : Changes R k k') : (slots k').Accounted := by
  have hgen : Sound k' ∧ (slots k').Exclusive ∧ (slots k').Accounted := by
    refine hc.invariant (P := fun x => Sound x ∧ (slots x).Exclusive ∧ (slots x).Accounted)
      (fun x y hc hx => ?_) ⟨h, hi, ha⟩
    have hmove := slots_change hx.1 hx.2.1 hc
    exact ⟨hx.1.change hc, hmove.exclusive hx.2.1, hmove.accounted hx.2.2⟩
  exact hgen.2.2

theorem slots_accounted_step (h : Settled k) (hi : (slots k).Exclusive)
    (hacc : (slots k).Accounted) (hs : CleanStep k a k') : (slots k').Accounted := by
  have heff := step_effect h.sound h.noneExiting hs.1
  cases heff with
  | changes ha hc => exact slots_accounted_changes h.sound hi hacc hc
  | @killed _ k₁ ha ht hc =>
      intro i hu
      rcases slots_accounted_changes h.sound hi hacc hc i hu with ⟨⟨u, q⟩, hlive, hout⟩
      refine ⟨(u, q), ?_, hout⟩
      refine (live_setStatus_iff (.inl rfl)).mpr ?_
      by_cases hua : u = a.process
      · rw [if_pos hua]
      · rw [if_neg hua]
        exact hlive
  | store hst =>
      rcases store_fields hst with ⟨hswap, hstatus, hspt, hsptes⟩
      exact (slots_same hswap hstatus hspt hsptes).accounted hacc
  | write hf ho =>
      rcases write_fields with ⟨hswap, hstatus, hspt, hsptes⟩
      exact (slots_same hswap hstatus hspt hsptes).accounted hacc
  | @start t exe _ _ file _ ht hfile hc =>
      have hstart : ∀ u q i, (slots k).owns (u, q) i ↔
          (slots (startProcess k t file exe)).owns (u, q) i := by
        intro u q i
        have hout : SwappedOut (startProcess k t file exe) u q i ↔ SwappedOut k u q i := Iff.rfl
        show k.Live u ∧ _ ↔ (startProcess k t file exe).Live u ∧ _
        rw [hout]
        have hlive : u ≠ t → ((startProcess k t file exe).Live u ↔ k.Live u) := by
          intro hu
          unfold Kernel.Live
          rw [show (startProcess k t file exe).status u = k.status u from
            Function.update_of_ne hu ..]
        by_cases hu : u = t
        · -- the new process has no pages yet
          subst hu
          constructor <;> rintro ⟨_, hm, _⟩ <;> rw [(h.sound.bare ht).1] at hm <;> cases hm
        · rw [hlive hu]
      have hi' : (slots (startProcess k t file exe)).Exclusive :=
        hi.drop (fun _ hu => hu) fun o i hown => (hstart o.1 o.2 i).mpr hown
      refine slots_accounted_changes (h.sound.start ht hfile) hi' (fun i hu => ?_) hc
      rcases hacc i hu with ⟨o, hown⟩
      exact ⟨o, (hstart o.1 o.2 i).mp hown⟩
  | @leave t k₁ ht hc hspt hmmap hfiles =>
      have h₀ := h.sound.setStatus (.inr ht) (s := .exiting) (by decide)
      -- the process owns no slot, so nothing changes when it stops being live
      have hnone : ∀ u q i, (slots k).owns (u, q) i ↔
          (slots (k.setStatus t .exiting)).owns (u, q) i := by
        intro u q i
        have hlive := live_setStatus_iff (k := k) (t := t) (u := u) (s := .exiting) (.inr (.inl rfl))
        have hout : SwappedOut (k.setStatus t .exiting) u q i ↔ SwappedOut k u q i := Iff.rfl
        show k.Live u ∧ _ ↔ (k.setStatus t .exiting).Live u ∧ _
        rw [hlive, hout]
        by_cases hu : u = t
        · subst hu
          constructor
          · rintro ⟨_, hm, e, he, hty, hl, _⟩
            exact absurd ⟨hty, hl⟩ (hs.2 u rfl q e ⟨hm, he⟩)
          · rintro ⟨hno, _⟩
            rw [if_pos rfl] at hno
            cases hno
        · rw [if_neg hu]
      have hi₀ : (slots (k.setStatus t .exiting)).Exclusive :=
        hi.drop (fun _ hu => hu) fun o i hown => (hnone o.1 o.2 i).mpr hown
      have hacc₀ : (slots (k.setStatus t .exiting)).Accounted := by
        intro i hu
        rcases hacc i hu with ⟨o, hown⟩
        exact ⟨o, (hnone o.1 o.2 i).mp hown⟩
      intro i hu
      rcases slots_accounted_changes h₀ hi₀ hacc₀ hc i hu with ⟨⟨u, q⟩, hlive, hout⟩
      refine ⟨(u, q), ?_, hout⟩
      refine (live_setStatus_iff (k := pagedirDestroy k₁ t) (.inr (.inr rfl))).mpr ?_
      have hut : u ≠ t := by
        rintro rfl
        have hq := hout.1
        rw [hspt] at hq
        cases hq
      rw [if_neg hut]
      exact hlive

/-- As long as no process exits with a page swapped out, every slot in use has
an owner; so when all processes are gone, all slots are free. -/
theorem swap_slots_accounted (h : Lts.Run CleanStep m.boot as k) : SlotsAccounted k ∧
    ((∀ t, k.status t = .absent) → ∀ i, ¬ InUse k i) := by
  have hgen : Settled k ∧ (slots k).Exclusive ∧ (slots k).Accounted := by
    refine h.invariant (P := fun x => Settled x ∧ (slots x).Exclusive ∧ (slots x).Accounted)
      (fun x a y hs hx => ?_) ⟨settled_boot m, ?_, ?_⟩
    · exact ⟨hx.1.step hs.1, slots_exclusive_step hx.1 hx.2.1 hs.1,
        slots_accounted_step hx.1 hx.2.1 hx.2.2 hs⟩
    · exact slots_exclusive_of_reachable (.refl m.boot)
    · -- `start_swap` frees every slot
      rintro i ⟨s, hs, htrue⟩
      rcases Option.map_eq_some_iff.mp hs with ⟨b, _, rfl⟩
      have hmem := List.mem_of_getElem? htrue
      cases List.eq_of_mem_replicate hmem
  refine ⟨slotsAccounted_iff.mpr hgen.2.2, ?_⟩
  intro habs i hu
  rcases hgen.2.2 i hu with ⟨⟨t, p⟩, hlive, _⟩
  rcases hlive with hst | hst <;> rw [habs t] at hst <;> cases hst

/-- The process of `swapRun` exits when no page of it is swapped out. -/
theorem swap_slots_accounted_run : ∃ k,
    Lts.Run CleanStep twoFrames.boot (swapRun ++ [.exit 1, .processExit 1]) k ∧
    SlotsAccounted k ∧ ((∀ t, k.status t = .absent) → ∀ i, ¬ InUse k i) := by
  have hrun : (runActs twoFrames.boot (swapRun ++ [.exit 1])).toOption.map (fun k =>
      ((k.spt 1).all fun p => (k.sptes p).all fun e => e.type = .swap → e.isLoaded,
        (next k (.processExit 1)).toOption.isSome)) = some (true, true) := by decide +kernel
  rcases hk : runActs twoFrames.boot (swapRun ++ [.exit 1]) with err | k
  · rw [hk] at hrun
    cases hrun
  · rw [hk] at hrun
    have hpair := Option.some.inj hrun
    rw [Prod.mk.injEq] at hpair
    rcases hk' : next k (.processExit 1) with err | k'
    · rw [hk'] at hpair
      cases hpair.2
    · have hclean : Lts.Run CleanStep twoFrames.boot (swapRun ++ [.exit 1]) k := by
        refine (run_of_runActs hk).mono_of_mem fun x a y ha hs => ⟨hs, ?_⟩
        rintro t rfl
        simp [swapRun] at ha
      have hlast : CleanStep k (.processExit 1) k' := by
        refine ⟨step_of_next hk', ?_⟩
        intro t ht p e he
        cases ht
        have hall := List.all_eq_true.mp hpair.1 p he.mem
        rw [he.at_ptr] at hall
        rintro ⟨hty, hl⟩
        simp [hty, hl] at hall
      have hsteps : Lts.Run CleanStep twoFrames.boot (swapRun ++ [.exit 1, .processExit 1]) k' :=
        hclean.snoc hlast
      exact ⟨k', hsteps, swap_slots_accounted hsteps⟩

/-- The process of `swapRun` exits while the page it stored to is swapped out. -/
def leakRun : List Act := swapRun.take 4 ++ [.exit 1, .processExit 1]

/-- All processes are gone, but a slot is still in use. -/
theorem swap_slot_leaked : ∃ k, Lts.Run Step twoFrames.boot leakRun k ∧
    (∀ t, k.status t = .absent) ∧ InUse k 0 ∧ ¬ SlotsAccounted k := by
  have hrun : (runActs twoFrames.boot leakRun).toOption.map (fun k =>
      (k.status 1, k.swap.map (·.map))) = some (.absent, some [true, false]) := by decide +kernel
  rcases Option.map_eq_some_iff.mp hrun with ⟨k, hk, hstate⟩
  rcases Prod.mk.inj hstate with ⟨hstatus, hswap⟩
  have hsteps := run_of_runActs (Lts.eq_ok_of_toOption hk)
  have habs : ∀ t, k.status t = .absent := by
    intro t
    by_cases ht : t = 1
    · rw [ht]
      exact hstatus
    · -- the run is one of process 1
      have hmine : ∀ a ∈ leakRun, a.process = 1 := by decide
      have hgen : Settled k ∧ k.status t = .absent := by
        refine hsteps.invariant_of_mem (P := fun x => Settled x ∧ x.status t = .absent)
          (fun x a y ha hs hx => ⟨hx.1.step hs, ?_⟩) ⟨settled_boot _, rfl⟩
        rw [hx.1.status_of_ne hs (by rw [hmine a ha]; exact ht)]
        exact hx.2
      exact hgen.2
  have huse : InUse k 0 := by
    rcases Option.map_eq_some_iff.mp hswap with ⟨s, hs, hmap⟩
    exact ⟨s, hs, by rw [hmap]; rfl⟩
  refine ⟨k, hsteps, habs, huse, ?_⟩
  intro hacc
  rcases hacc 0 huse with ⟨t, p, e, hlive, _⟩
  rcases hlive with hst | hst
  · rw [habs t] at hst
    cases hst
  · rw [habs t] at hst
    cases hst

end Pintos.Vm
