import Pintos.Vm.SwapSlots

/-! # Page directories and entries agree on what may be written

`install_page` passes the `writable` of the entry on to the page directory, and no
operation changes either of the two afterwards.
-/

namespace Pintos.Vm

variable {k k' k₁ : Kernel} {t u : Tid} {p q : Ptr} {e x y : Spte} {fte : FrameTblEnt}
  {frame : Frame} {page : Page} {m : Machine} {a : Act} {R : Scope}

/-- A page that is present may be written if and only if its entry says so. -/
def Permits (k : Kernel) : Prop :=
  ∀ t p e, Entry k t p e → ∀ pte, k.pteOf t e.unusedVirtualAddress = some pte →
    pte.writable = e.writable

/-! ## Changes -/

/-- Every entry and what is present are as before. -/
theorem Permits.congr (h : Permits k) (hspt : ∀ u q, q ∈ k'.spt u → q ∈ k.spt u)
    (hsptes : ∀ u q, q ∈ k'.spt u → k'.sptes q = k.sptes q)
    (hpte : ∀ u va pte', k'.pteOf u va = some pte' →
      ∃ pte, k.pteOf u va = some pte ∧ pte'.writable = pte.writable) : Permits k' := by
  intro u q x hx pte' hpte'
  obtain ⟨pte, hold, hw⟩ := hpte u _ pte' hpte'
  have hx' : Entry k u q x := ⟨hspt u q hx.mem, (hsptes u q hx.mem).symm.trans hx.at_ptr⟩
  exact hw.trans (h u q x hx' pte hold)

theorem Permits.same (h : Permits k) (hspt : k'.spt = k.spt) (hsptes : k'.sptes = k.sptes)
    (hpagedir : k'.pagedir = k.pagedir) : Permits k' := by
  refine h.congr (fun u q hq => hspt ▸ hq) (fun _ _ _ => by rw [hsptes]) ?_
  intro u va pte hpte
  unfold Kernel.pteOf at hpte
  rw [hpagedir] at hpte
  exact ⟨pte, hpte, rfl⟩

/-- The bits of a page that is present are set. -/
theorem Permits.setPte {va : Vaddr} {pte pte' : Pte} (h : Permits k)
    (hpte : k.pteOf t va = some pte) (hw : pte'.writable = pte.writable) : Permits (k.setPte t va pte') := by
  refine h.congr (fun _ _ hq => hq) (fun _ _ _ => rfl) ?_
  intro u wa set hset
  rw [pteOf_setPte] at hset
  split at hset
  next heq =>
    obtain ⟨rfl, rfl⟩ := heq
    rw [← Option.some.inj hset]
    exact ⟨pte, hpte, hw⟩
  next => exact ⟨set, hset, rfl⟩

/-- The entry that was set is found. -/
theorem eq_of_update {o : Option Spte} (h : Function.update k.sptes p o p = some x) :
    o = some x := by
  rwa [Function.update_self] at h

/-- A page loses its frame. -/
theorem Permits.unmap (h : Permits k) (hk : Tables k) (hfte : fte ∈ k.frameTblList) :
    Permits (unmapPage k fte e) := by
  intro u q x hx pte hpte
  rw [pteOf_unmapPage] at hpte
  split at hpte
  · cases hpte
  next hno =>
    have hq : q ≠ fte.spte := by
      rintro rfl
      obtain ⟨y, _, hy, _⟩ := hk.resident fte hfte
      have hxe : e = x := Option.some.inj (eq_of_update hx.at_ptr)
      exact hno ⟨hk.apart _ _ _ hx.mem hy.mem, by rw [hxe]⟩
    exact h u q x ⟨hx.mem, (Function.update_of_ne hq ..).symm.trans hx.at_ptr⟩ pte hpte

/-- A page gets a frame. -/
theorem Permits.map (h : Permits k) (hk : Tables k) (he : Entry k t p e) {used : Bool} :
    Permits (mapPage k t p e frame page used) := by
  intro u q x hx pte hpte
  rw [pteOf_mapPage] at hpte
  by_cases hq : q = p
  · subst hq
    have hxe : { e with isLoaded := true } = x := Option.some.inj (eq_of_update hx.at_ptr)
    subst hxe
    rw [if_pos ⟨hk.apart _ _ _ hx.mem he.mem, rfl⟩] at hpte
    rw [← Option.some.inj hpte]
  · have hold : Entry k u q x := ⟨hx.mem, (Function.update_of_ne hq ..).symm.trans hx.at_ptr⟩
    rw [if_neg] at hpte
    · exact h u q x hold pte hpte
    · rintro ⟨rfl, haddr⟩
      exact hq (hk.addressUnique u q p x e hold he haddr)

/-- A new entry is for a page that is not present, or has been mapped for it. -/
theorem Permits.insert (h : ∀ u q x, q ≠ p → Entry k u q x → ∀ pte,
      k.pteOf u x.unusedVirtualAddress = some pte → pte.writable = x.writable)
    (hp : ∀ u, p ∉ k.spt u) (he : k.sptes p = some e)
    (hpte : ∀ pte, k.pteOf t e.unusedVirtualAddress = some pte → pte.writable = e.writable)
    {upage : Vaddr} : Permits (insertEntry k t p upage page) := by
  intro u q x hx pte hpte'
  rcases (entry_insertEntry he).mp hx with hold | ⟨rfl, rfl, rfl⟩
  · have hq : q ≠ p := by
      rintro rfl
      exact hp u hold.mem
    exact h u q x hq hold pte hpte'
  · exact hpte pte hpte'

theorem Permits.change (h : Permits k) (hk : Sound k) (hc : Change R k k') : Permits k' := by
  cases hc with
  | @access t va pte accessed hpte => exact h.setPte hpte rfl
  | @pin p y pinned hy =>
      intro u q x hx pte hpte
      by_cases hq : q = p
      · subst hq
        obtain rfl : { y with pinned := pinned } = x := Option.some.inj (eq_of_update hx.at_ptr)
        exact h u q y ⟨hx.mem, hy⟩ pte hpte
      · exact h u q x ⟨hx.mem, (Function.update_of_ne hq ..).symm.trans hx.at_ptr⟩ pte hpte
  | @cell p o hp =>
      refine h.congr (fun _ _ hq => hq) (fun u q hq => ?_) fun _ _ pte hpte => ⟨pte, hpte, rfl⟩
      have hne : q ≠ p := hp.ne hq
      exact Function.update_of_ne hne ..
  | @evict fte y y' k₁ hfte hy hstatus hs =>
      obtain ⟨swap, inodes, rfl⟩ := (saved_of_savePage hs).frame
      have h₁ : Permits { k with swap := swap, inodes := inodes } := h.same rfl rfl rfl
      have hk₁ : Tables { k with swap := swap, inodes := inodes } :=
        (hk.contents k.mem swap inodes k.hist).tables
      exact h₁.unmap hk₁ hfte
  | discard hfte => exact h.unmap hk.tables hfte
  | readIn he => exact h.map hk.tables he
  | @swapIn t p e frame s he =>
      have h₁ : Permits (releaseSlot k s e.swapIndex) := h.same rfl rfl rfl
      have hk₁ : Tables (releaseSlot k s e.swapIndex) :=
        (hk.contents k.mem _ k.inodes k.hist).tables
      exact h₁.map hk₁ ⟨he.mem, he.at_ptr⟩
  | swapInNothing page he => exact h.map hk.tables he
  | @growStack t p e frame page hp he hl hty hf hpte hnew =>
      refine Permits.insert (k := mapPage k t p e frame page false)
        (e := { e with isLoaded := true }) ?_ hp.spt (Function.update_self ..) ?_
      · -- the other pages of the process are at other addresses
        intro u q x hq hx pte' hpte'
        have hold : Entry k u q x := ⟨hx.mem, (Function.update_of_ne hq ..).symm.trans hx.at_ptr⟩
        rw [pteOf_mapPage, if_neg] at hpte'
        · exact h u q x hold pte' hpte'
        · rintro ⟨rfl, haddr⟩
          exact Tables.not_entry_of_hashFind hnew hold haddr
      · intro pte' hpte'
        rw [pteOf_mapPage, if_pos ⟨rfl, rfl⟩] at hpte'
        rw [← Option.some.inj hpte']
  | addFile hp he hl hty hnew =>
      refine Permits.insert (fun u q x _ => h u q x) hp.spt he ?_
      rw [hk.tables.pteOf_new hnew]
      nofun
  | @addMmap t p e hp he hl hty hnew =>
      refine Permits.insert (k := listMapping k t p) (fun u q x _ hx => h u q x ⟨hx.mem, hx.at_ptr⟩)
        hp.spt he ?_
      intro pte hpte
      rw [show (listMapping k t p).pteOf t e.unusedVirtualAddress = none from
        hk.tables.pteOf_new hnew] at hpte
      cases hpte
  | @removeMapping t mm x hmm hx =>
      have hr := hk.removes_forgetMapping hmm hx
      refine h.congr (fun u q hq => ((hr.spt u q).mp hq).1)
        (fun u q hq => hr.sptes q ((hr.spt u q).mp hq).2) ?_
      intro u va pte hpte
      obtain ⟨spt, heq, -⟩ := forgetMapping_eq k t mm x
      rw [heq] at hpte
      exact ⟨pte, hpte, rfl⟩
  | destroy hexit hspt hx hl hmm =>
      have hr := hk.removes_destroy hspt hmm
      exact h.congr (fun u q hq => ((hr.spt u q).mp hq).1)
        (fun u q hq => hr.sptes q ((hr.spt u q).mp hq).2) fun _ _ pte hpte => ⟨pte, hpte, rfl⟩
  | _ => exact h.same rfl rfl rfl

theorem Permits.changes (h : Permits k) (hk : Sound k) (hc : Changes R k k') : Permits k' :=
  (hc.invariant (P := fun x => Sound x ∧ Permits x)
    (fun _ _ hxy hx => ⟨hx.1.change hxy, hx.2.change hx.1 hxy⟩) ⟨hk, h⟩).2

/-! ## Steps -/

theorem Permits.step (h : Permits k) (hset : Settled k) (hs : Step k a k') : Permits k' := by
  cases step_effect hset.sound hset.noneExiting hs with
  | changes ha hc => exact h.changes hset.sound hc
  | killed ha ht hc => exact (h.changes hset.sound hc).same rfl rfl rfl
  | @store t va byte _ hs =>
      obtain ⟨pte, hpte, -, rfl⟩ := userStore_ok hs
      have hset :
          Permits (k.setPte t (pgRoundDown va) { pte with accessed := true, dirty := true }) :=
        h.setPte hpte rfl
      exact hset.same rfl rfl rfl
  | write hf ho =>
      refine h.same write_fields.2.2.1 write_fields.2.2.2 ?_
      unfold inodeWriteAt
      split <;> rfl
  | @start t exe segments env file _ ht hfile hc =>
      have h₁ : Permits (startProcess k t file exe) := h.same rfl rfl rfl
      exact h₁.changes (hset.sound.start ht hfile) hc
  | @leave t k₁ ht hc hspt hmmap hfiles =>
      have h₁ : Permits (k.setStatus t .exiting) := h.same rfl rfl rfl
      have hk₁ : Sound (k.setStatus t .exiting) := hset.sound.setStatus (.inr ht) nofun
      refine (h₁.changes hk₁ hc).congr (fun _ _ hq => hq) (fun _ _ _ => rfl) ?_
      intro u va pte hpte
      by_cases hu : u = t
      · subst hu
        have hempty : (Function.update k₁.pagedir u ∅ u).lookup va = some pte := hpte
        rw [Function.update_self] at hempty
        cases hempty
      · have hold : (Function.update k₁.pagedir t ∅ u).lookup va = some pte := hpte
        rw [Function.update_of_ne hu] at hold
        exact ⟨pte, hold, rfl⟩

theorem permits_of_reachable (h : Reachable m k) : Permits k := by
  have hgen : Settled k ∧ Permits k := by
    refine h.invariant (P := fun k => Settled k ∧ Permits k) ?_ ⟨settled_boot m, ?_⟩
    · intro k a k' hs hk
      exact ⟨hk.1.step hs, hk.2.step hk.1 hs⟩
    · intro t p e he
      cases he.mem
  exact hgen.2

end Pintos.Vm
