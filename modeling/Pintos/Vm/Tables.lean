import Pintos.Vm.Changes

/-! # Frame table, page directories and supplemental page tables

`Tables` ties the frame table, the user pool, the page directories and the
supplemental page tables to each other: a page is resident if and only if its
entry is marked loaded, and then exactly one frame belongs to it. Every change
keeps this.
-/

namespace Pintos.Vm

variable {k k' : Kernel} {t u : Tid} {p q : Ptr} {e e' : Spte} {fte : FrameTblEnt}
  {frame : Frame} {page : Page} {va wa : Vaddr} {pte : Pte}

/-! ## Page directory lookups -/

theorem lookup_insert_eq {l : AList fun _ : Vaddr => Pte} :
    (l.insert va pte).lookup wa = if wa = va then some pte else l.lookup wa := by
  by_cases h : wa = va
  · subst h
    simp
  · rw [if_neg h, AList.lookup_insert_ne h]

theorem lookup_erase_eq {l : AList fun _ : Vaddr => Pte} :
    (l.erase va).lookup wa = if wa = va then none else l.lookup wa := by
  by_cases h : wa = va
  · subst h
    simp
  · rw [if_neg h, AList.lookup_erase_ne h]

theorem pteOf_setPte : (k.setPte t va pte).pteOf u wa =
    if u = t ∧ wa = va then some pte else k.pteOf u wa := by
  unfold Kernel.pteOf Kernel.setPte
  by_cases hu : u = t
  · subst hu
    simp [lookup_insert_eq]
  · simp [hu]

theorem pteOf_unmapPage : (unmapPage k fte e).pteOf u wa =
    if u = fte.thread ∧ wa = e.unusedVirtualAddress then none else k.pteOf u wa := by
  unfold Kernel.pteOf unmapPage
  by_cases hu : u = fte.thread
  · subst hu
    simp [lookup_erase_eq]
  · simp [hu]

theorem pteOf_mapPage {used : Bool} : (mapPage k t p e frame page used).pteOf u wa =
    if u = t ∧ wa = e.unusedVirtualAddress then
      some { frame := frame, writable := e.writable, accessed := used, dirty := used }
    else k.pteOf u wa := by
  unfold Kernel.pteOf mapPage
  by_cases hu : u = t
  · subst hu
    simp [lookup_insert_eq]
  · simp [hu]

theorem mem_insertEntry {upage : Vaddr} : q ∈ (insertEntry k t p upage page).spt u ↔
    q ∈ k.spt u ∨ u = t ∧ q = p := by
  show q ∈ Function.update k.spt t (k.spt t ++ [p]) u ↔ _
  by_cases hu : u = t
  · subst hu
    simp
  · simp [hu]

/-! ## Entries -/

theorem Unused.ne (hp : Unused k p) (hq : q ∈ k.spt t) : q ≠ p := by
  rintro rfl
  exact hp.spt t hq

/-- One entry of the heap has changed: this one, or another one. -/
theorem entry_update {o : Option Spte} (he : Entry k' u q e) (hspt : k'.spt = k.spt)
    (hsptes : k'.sptes = Function.update k.sptes p o) :
    q = p ∧ p ∈ k.spt u ∧ o = some e ∨ q ≠ p ∧ Entry k u q e := by
  have hmem : q ∈ k.spt u := hspt ▸ he.mem
  have hat := he.at_ptr
  rw [hsptes] at hat
  by_cases hq : q = p
  · subst hq
    rw [Function.update_self] at hat
    exact .inl ⟨rfl, hmem, hat⟩
  · rw [Function.update_of_ne hq] at hat
    exact .inr ⟨hq, hmem, hat⟩

theorem Entry.eq_of_at (he : Entry k t p e) (hat : k.sptes p = some e') : e = e' :=
  Option.some.inj (he.at_ptr.symm.trans hat)

/-- A loaded entry is not one that is not loaded. -/
theorem Entry.ne_of_loaded (he : Entry k t p e) (hl : e.isLoaded = false) (he' : Entry k u q e')
    (hl' : e'.isLoaded = true) : q ≠ p := by
  rintro rfl
  rw [he'.eq_of_at he.at_ptr, hl] at hl'
  cases hl'

/-- An entry was there before or is the one that has been inserted. -/
theorem entry_insertEntry {upage : Vaddr} (he : k.sptes p = some e) :
    Entry (insertEntry k t p upage page) u q e' ↔ Entry k u q e' ∨ u = t ∧ q = p ∧ e' = e := by
  constructor
  · intro he'
    have hat : k.sptes q = some e' := he'.at_ptr
    rcases mem_insertEntry.mp he'.mem with hmem | ⟨rfl, rfl⟩
    · exact .inl ⟨hmem, hat⟩
    · exact .inr ⟨rfl, rfl, Option.some.inj (hat.symm.trans he)⟩
  · rintro (hold | ⟨rfl, rfl, rfl⟩)
    · exact ⟨mem_insertEntry.mpr (.inl hold.mem), hold.at_ptr⟩
    · exact ⟨mem_insertEntry.mpr (.inr ⟨rfl, rfl⟩), he⟩

/-- The same if the entry is listed as part of a mapping, too. -/
theorem entry_addMmap {upage : Vaddr} {l : Tid → List MmapFile} (he : k.sptes p = some e) :
    Entry (insertEntry { k with mmapList := l } t p upage page) u q e' ↔
      Entry k u q e' ∨ u = t ∧ q = p ∧ e' = e := by
  refine (entry_insertEntry (k := { k with mmapList := l }) he).trans (or_congr_left ?_)
  exact ⟨fun h => ⟨h.mem, h.at_ptr⟩, fun h => ⟨h.mem, h.at_ptr⟩⟩

/-- The same if the page of the new entry is resident at once. -/
theorem entry_growStack {upage : Vaddr} {page' : Page} {used : Bool} (hp : Unused k p) :
    Entry (insertEntry (mapPage k t p e frame page used) t p upage page') u q e' ↔
      Entry k u q e' ∨ u = t ∧ q = p ∧ e' = { e with isLoaded := true } := by
  rw [entry_insertEntry (Function.update_self ..)]
  apply or_congr_left
  constructor
  · intro he'
    rcases entry_update (k := k) (p := p) he' rfl rfl with ⟨-, hmem, -⟩ | ⟨-, hold⟩
    · exact absurd hmem (hp.spt u)
    · exact hold
  · intro hold
    exact ⟨hold.mem, (Function.update_of_ne (hp.ne hold.mem) ..).trans hold.at_ptr⟩

/-! ## The invariant -/

/-- The frame table, the user pool, the page directories and the supplemental
page tables agree. -/
structure Tables (k : Kernel) : Prop where
  pool : (k.frameTblList.map (·.frame) ++ k.freePages).Perm k.userPool
  poolNodup : k.userPool.Nodup
  entryNodup : (k.frameTblList.map (·.spte)).Nodup
  /-- What the frame table lists is resident. -/
  resident : ∀ fte ∈ k.frameTblList, ∃ e pte, Entry k fte.thread fte.spte e ∧
    e.isLoaded = true ∧ k.pteOf fte.thread e.unusedVirtualAddress = some pte ∧
    pte.frame = fte.frame
  /-- What is marked loaded is in the frame table. -/
  listed : ∀ t p e, Entry k t p e → e.isLoaded = true →
    ∃ f, { frame := f, thread := t, spte := p } ∈ k.frameTblList
  /-- What is present in a page directory is marked loaded. -/
  mapped : ∀ t va pte, k.pteOf t va = some pte →
    ∃ p e, Entry k t p e ∧ e.unusedVirtualAddress = va ∧ e.isLoaded = true
  allocated : ∀ t p, p ∈ k.spt t → ∃ e, k.sptes p = some e ∧ e.type ≠ .hashError
  apart : ∀ t u p, p ∈ k.spt t → p ∈ k.spt u → t = u
  sptNodup : ∀ t, (k.spt t).Nodup
  addressUnique : ∀ t p q e e', Entry k t p e → Entry k t q e' →
    e.unusedVirtualAddress = e'.unusedVirtualAddress → p = q
  living : ∀ t p, p ∈ k.spt t → k.status t ≠ .absent

/-- What `Tables` reads of an entry. -/
def Spte.key (e : Spte) : Vaddr × Bool × PageType := (e.unusedVirtualAddress, e.isLoaded, e.type)

theorem entry_iff : Entry k t p e ↔ p ∈ k.spt t ∧ k.sptes p = some e :=
  ⟨fun h => ⟨h.1, h.2⟩, fun h => ⟨h.1, h.2⟩⟩

namespace Tables

/-- The entry a pointer of the table points to. -/
theorem exists_entry (h : Tables k) (hp : p ∈ k.spt t) : ∃ e, Entry k t p e := by
  rcases h.allocated t p hp with ⟨e, he, _⟩
  exact ⟨e, hp, he⟩

/-- No entry is filed under an address that `hash_find` does not find. -/
theorem not_entry_of_hashFind (hnew : hashFind k t va = none) (he : Entry k t p e) :
    e.unusedVirtualAddress ≠ va := by
  intro heq
  have hno := List.find?_eq_none.mp hnew p he.mem
  simp [addressOf, he.at_ptr, heq] at hno

/-- Where no entry is, no page is present. -/
theorem pteOf_new (h : Tables k) (hnew : hashFind k t va = none) : k.pteOf t va = none := by
  cases hpte : k.pteOf t va with
  | none => rfl
  | some pte =>
      rcases h.mapped t va pte hpte with ⟨p, e, he, haddr, _⟩
      exact absurd haddr (not_entry_of_hashFind hnew he)

/-- Different entries are for different pages. -/
theorem address_ne (h : Tables k) (he : Entry k t p e) (he' : Entry k u q e') (hne : p ≠ q) :
    ¬ (t = u ∧ e.unusedVirtualAddress = e'.unusedVirtualAddress) := by
  rintro ⟨rfl, heq⟩
  exact hne (h.addressUnique t p q e e' he he' heq)

/-- The page of a frame table entry is resident. -/
theorem resident_at (h : Tables k) (hfte : fte ∈ k.frameTblList)
    (he : k.sptes fte.spte = some e) : Entry k fte.thread fte.spte e ∧ e.isLoaded = true ∧
      ∃ pte, k.pteOf fte.thread e.unusedVirtualAddress = some pte ∧ pte.frame = fte.frame := by
  rcases h.resident fte hfte with ⟨e', pte, he', hl, hpte, hframe⟩
  obtain rfl := he'.eq_of_at he
  exact ⟨he', hl, pte, hpte, hframe⟩

/-- The page directory entry of a loaded page. -/
theorem loaded_pte (h : Tables k) (he : Entry k t p e) (hl : e.isLoaded = true) :
    ∃ fte pte, fte ∈ k.frameTblList ∧ fte.thread = t ∧ fte.spte = p ∧
      k.pteOf t e.unusedVirtualAddress = some pte ∧ pte.frame = fte.frame := by
  rcases h.listed t p e he hl with ⟨f, hf⟩
  rcases h.resident_at hf he.at_ptr with ⟨_, _, pte, hpte, hframe⟩
  exact ⟨_, pte, hf, rfl, rfl, hpte, hframe⟩

theorem frameNodup (h : Tables k) : (k.frameTblList.map (·.frame) ++ k.freePages).Nodup :=
  h.pool.nodup_iff.mpr h.poolNodup

/-- Frame table entries are told apart by their page. -/
theorem fte_eq_of_spte (h : Tables k) {fte' : FrameTblEnt} (h₁ : fte ∈ k.frameTblList)
    (h₂ : fte' ∈ k.frameTblList) (heq : fte.spte = fte'.spte) : fte = fte' :=
  List.inj_on_of_nodup_map h.entryNodup h₁ h₂ heq

/-- Frame table entries are told apart by their frame. -/
theorem fte_eq_of_frame (h : Tables k) {fte' : FrameTblEnt} (h₁ : fte ∈ k.frameTblList)
    (h₂ : fte' ∈ k.frameTblList) (heq : fte.frame = fte'.frame) : fte = fte' :=
  List.inj_on_of_nodup_map (List.Nodup.of_append_left h.frameNodup) h₁ h₂ heq

/-- A used frame is not free. -/
theorem frame_not_free (h : Tables k) (hfte : fte ∈ k.frameTblList) :
    fte.frame ∉ k.freePages := by
  intro hf
  exact List.disjoint_of_nodup_append h.frameNodup (List.mem_map_of_mem hfte) hf

/-- The frames of two present pages differ. -/
theorem frame_unique (h : Tables k) {pte' : Pte} (h₁ : k.pteOf t va = some pte)
    (h₂ : k.pteOf u wa = some pte') (heq : pte.frame = pte'.frame) : t = u ∧ va = wa := by
  rcases h.mapped t va pte h₁ with ⟨p, e, he, rfl, hl⟩
  rcases h.mapped u wa pte' h₂ with ⟨q, e', he', rfl, hl'⟩
  rcases h.loaded_pte he hl with ⟨fte, pte₁, hfte, ht, hp, hpte, hframe⟩
  rcases h.loaded_pte he' hl' with ⟨fte', pte₂, hfte', hu, hq, hpte', hframe'⟩
  have h₃ : pte₁ = pte := Option.some.inj (hpte.symm.trans h₁)
  have h₄ : pte₂ = pte' := Option.some.inj (hpte'.symm.trans h₂)
  subst h₃ h₄
  have hsame : fte = fte' := by
    refine h.fte_eq_of_frame hfte hfte' ?_
    rw [← hframe, ← hframe', heq]
  have hpq : p = q := by rw [← hp, ← hq, hsame]
  have htu : t = u := by rw [← ht, ← hu, hsame]
  subst hpq
  have hee : e = e' := he.eq_of_at he'.at_ptr
  exact ⟨htu, by rw [hee]⟩

/-- The frame of a present page is not free. -/
theorem pte_not_free (h : Tables k) (hpte : k.pteOf t va = some pte) :
    pte.frame ∉ k.freePages := by
  rcases h.mapped t va pte hpte with ⟨p, e, he, rfl, hl⟩
  rcases h.loaded_pte he hl with ⟨fte, pte', hfte, _, _, hpte', hframe⟩
  have heq : pte' = pte := Option.some.inj (hpte'.symm.trans hpte)
  rw [← heq, hframe]
  exact h.frame_not_free hfte

/-- A pointer that no table holds is in no frame table entry. -/
theorem fte_ne_of_unused (h : Tables k) (hfte : fte ∈ k.frameTblList)
    (hp : ∀ t, p ∉ k.spt t) : fte.spte ≠ p := by
  rcases h.resident fte hfte with ⟨e, _, he, _⟩
  intro heq
  exact hp fte.thread (heq ▸ he.mem)

/-- A page that is not loaded has no frame table entry. -/
theorem fte_ne_of_notLoaded (h : Tables k) (he : Entry k t p e) (hl : e.isLoaded = false)
    (hfte : fte ∈ k.frameTblList) : fte.spte ≠ p := by
  rcases h.resident fte hfte with ⟨x, _, hx, hlx, _⟩
  exact he.ne_of_loaded hl hx hlx

/-- An address that is not allocated is not in use. -/
theorem notMem_of_fresh (h : Tables k) (hp : k.sptes p = none) : p ∉ k.spt t := by
  intro hm
  rcases h.allocated t p hm with ⟨e, he, _⟩
  rw [hp] at he
  cases he

/-- Changes of other fields, of flags and of unused parts of the heap. -/
theorem congr (h : Tables k) (hspt : k'.spt = k.spt) (htbl : k'.frameTblList = k.frameTblList)
    (hpool : k'.userPool = k.userPool) (hfree : k'.freePages.Perm k.freePages)
    (hstatus : ∀ t, k'.status t = .absent → k.status t = .absent ∨ k.spt t = [])
    (hsptes : ∀ t p, p ∈ k.spt t → (k'.sptes p).map Spte.key = (k.sptes p).map Spte.key)
    (hpte : ∀ t va, (k'.pteOf t va).map (·.frame) = (k.pteOf t va).map (·.frame)) :
    Tables k' := by
  -- entries correspond to each other, with the same address, type and loaded flag
  have hto : ∀ t p e', Entry k' t p e' → ∃ e, Entry k t p e ∧ e.key = e'.key := by
    intro t p e' he'
    have hp : p ∈ k.spt t := hspt ▸ he'.mem
    have hkey := hsptes t p hp
    rw [he'.at_ptr] at hkey
    rcases h.exists_entry hp with ⟨e, he⟩
    rw [he.at_ptr] at hkey
    exact ⟨e, he, (Option.some.inj hkey).symm⟩
  have hfrom : ∀ t p e, Entry k t p e → ∃ e', Entry k' t p e' ∧ e'.key = e.key := by
    intro t p e he
    have hkey := hsptes t p he.mem
    rw [he.at_ptr] at hkey
    rcases Option.map_eq_some_iff.mp hkey with ⟨e', he', heq⟩
    exact ⟨e', ⟨hspt ▸ he.mem, he'⟩, heq⟩
  have hpteTo : ∀ t va pte, k'.pteOf t va = some pte →
      ∃ pte', k.pteOf t va = some pte' ∧ pte'.frame = pte.frame := by
    intro t va pte heq
    have hmap := hpte t va
    rw [heq] at hmap
    exact Option.map_eq_some_iff.mp hmap.symm
  have hpteFrom : ∀ t va pte, k.pteOf t va = some pte →
      ∃ pte', k'.pteOf t va = some pte' ∧ pte'.frame = pte.frame := by
    intro t va pte heq
    have hmap := hpte t va
    rw [heq] at hmap
    exact Option.map_eq_some_iff.mp hmap
  refine
    { pool := ?_, poolNodup := hpool ▸ h.poolNodup, entryNodup := htbl ▸ h.entryNodup,
      resident := ?_, listed := ?_, mapped := ?_, allocated := ?_, apart := ?_, sptNodup := ?_,
      addressUnique := ?_, living := ?_ }
  · rw [htbl, hpool]
    exact (List.Perm.append_left _ hfree).trans h.pool
  · intro fte hfte
    rcases h.resident fte (htbl ▸ hfte) with ⟨e, pte, he, hl, hpte', hframe⟩
    rcases hfrom _ _ e he with ⟨e', he', hkey⟩
    simp only [Spte.key, Prod.mk.injEq] at hkey
    rcases hpteFrom _ _ pte hpte' with ⟨pte', hpte'', hframe'⟩
    exact ⟨e', pte', he', hkey.2.1.trans hl, hkey.1 ▸ hpte'', hframe'.trans hframe⟩
  · intro t p e' he' hl
    rcases hto t p e' he' with ⟨e, he, hkey⟩
    simp only [Spte.key, Prod.mk.injEq] at hkey
    rw [htbl]
    exact h.listed t p e he (hkey.2.1.trans hl)
  · intro t va pte hpte'
    rcases hpteTo t va pte hpte' with ⟨pte', hpte'', _⟩
    rcases h.mapped t va pte' hpte'' with ⟨p, e, he, hva, hl⟩
    rcases hfrom t p e he with ⟨e', he', hkey⟩
    simp only [Spte.key, Prod.mk.injEq] at hkey
    exact ⟨p, e', he', hkey.1.trans hva, hkey.2.1.trans hl⟩
  · intro t p hp
    rcases h.allocated t p (hspt ▸ hp) with ⟨e, he, hty⟩
    rcases hfrom t p e ⟨hspt ▸ hp, he⟩ with ⟨e', he', hkey⟩
    simp only [Spte.key, Prod.mk.injEq] at hkey
    exact ⟨e', he'.at_ptr, fun heq => hty (hkey.2.2 ▸ heq)⟩
  · intro t u p ht hu
    exact h.apart t u p (hspt ▸ ht) (hspt ▸ hu)
  · intro t
    rw [hspt]
    exact h.sptNodup t
  · intro t p q e₁ e₂ he₁ he₂ heq
    rcases hto t p e₁ he₁ with ⟨e₁', he₁', hkey₁⟩
    rcases hto t q e₂ he₂ with ⟨e₂', he₂', hkey₂⟩
    simp only [Spte.key, Prod.mk.injEq] at hkey₁ hkey₂
    exact h.addressUnique t p q e₁' e₂' he₁' he₂' (by rw [hkey₁.1, hkey₂.1, heq])
  · intro t p hp habs
    rw [hspt] at hp
    rcases hstatus t habs with hold | hnil
    · exact h.living t p hp hold
    · rw [hnil] at hp
      cases hp

/-- The entry at `p` of the table of `t` is replaced. -/
theorem entry_replaced {x : Spte} (h : Tables k) (he : Entry k t p e) (hspt : k'.spt = k.spt)
    (hsptes : k'.sptes = Function.update k.sptes p (some e')) :
    Entry k' u q x ↔ if q = p then u = t ∧ x = e' else Entry k u q x := by
  rw [entry_iff, hspt, hsptes]
  split
  · rename_i hq
    subst hq
    rw [Function.update_self]
    constructor
    · rintro ⟨hm, hx⟩
      exact ⟨h.apart _ _ _ hm he.mem, (Option.some.inj hx).symm⟩
    · rintro ⟨rfl, rfl⟩
      exact ⟨he.mem, rfl⟩
  · rename_i hq
    rw [Function.update_of_ne hq]
    exact entry_iff.symm

theorem allocated_replaced (h : Tables k) (hspt : k'.spt = k.spt)
    (hsptes : k'.sptes = Function.update k.sptes p (some e')) (hty : e'.type ≠ .hashError)
    (hq : q ∈ k'.spt u) : ∃ x, k'.sptes q = some x ∧ x.type ≠ .hashError := by
  rw [hspt] at hq
  rw [hsptes]
  by_cases hqp : q = p
  · subst hqp
    exact ⟨e', Function.update_self .., hty⟩
  · rw [Function.update_of_ne hqp]
    exact h.allocated u q hq

/-- Addresses are compared through the old entries, which have the same ones. -/
theorem address_replaced {q₁ q₂ : Ptr} {x₁ x₂ : Spte} (h : Tables k) (he : Entry k t p e)
    (hspt : k'.spt = k.spt) (hsptes : k'.sptes = Function.update k.sptes p (some e'))
    (haddr : e'.unusedVirtualAddress = e.unusedVirtualAddress)
    (hx₁ : Entry k' u q₁ x₁) (hx₂ : Entry k' u q₂ x₂)
    (heq : x₁.unusedVirtualAddress = x₂.unusedVirtualAddress) : q₁ = q₂ := by
  have hold : ∀ q x, Entry k' u q x →
      ∃ y, Entry k u q y ∧ y.unusedVirtualAddress = x.unusedVirtualAddress := by
    intro q x hx
    rw [h.entry_replaced he hspt hsptes] at hx
    split at hx
    · rename_i hq
      exact ⟨e, by rw [hq, hx.1]; exact he, by rw [hx.2, haddr]⟩
    · exact ⟨x, hx, rfl⟩
  rcases hold q₁ x₁ hx₁ with ⟨y₁, hy₁, ha₁⟩
  rcases hold q₂ x₂ hx₂ with ⟨y₂, hy₂, ha₂⟩
  exact h.addressUnique u q₁ q₂ y₁ y₂ hy₁ hy₂ (by rw [ha₁, ha₂, heq])

/-- A page loses its frame. -/
theorem unmap (h : Tables k) (hfte : fte ∈ k.frameTblList) (he : k.sptes fte.spte = some e)
    (haddr : e'.unusedVirtualAddress = e.unusedVirtualAddress) (hl : e'.isLoaded = false)
    (hty : e'.type ≠ .hashError) : Tables (unmapPage k fte e') := by
  have hentry := (h.resident_at hfte he).1
  have hentries : ∀ t q x, Entry (unmapPage k fte e') t q x ↔
      if q = fte.spte then t = fte.thread ∧ x = e' else Entry k t q x :=
    fun _ _ _ => h.entry_replaced hentry rfl rfl
  have hother : ∀ fte' ∈ k.frameTblList.erase fte, fte' ∈ k.frameTblList ∧
      fte'.spte ≠ fte.spte := by
    intro fte' hm
    have hnd : k.frameTblList.Nodup := List.Nodup.of_map _ h.entryNodup
    rcases (List.Nodup.mem_erase_iff hnd).mp hm with ⟨hne, hmem⟩
    exact ⟨hmem, fun heq => hne (h.fte_eq_of_spte hmem hfte heq)⟩
  refine
    { pool := ?_, poolNodup := h.poolNodup, entryNodup := ?_, resident := ?_, listed := ?_,
      mapped := ?_, allocated := fun _ _ => h.allocated_replaced rfl rfl hty, apart := h.apart,
      sptNodup := h.sptNodup,
      addressUnique := fun _ _ _ _ _ => h.address_replaced hentry rfl rfl haddr,
      living := h.living }
  · -- the frame moves from the table to the free pages
    have hperm : (k.frameTblList.map (·.frame)).Perm
        (fte.frame :: (k.frameTblList.erase fte).map (·.frame)) :=
      (List.perm_cons_erase hfte).map (·.frame)
    refine List.Perm.trans ?_ h.pool
    exact List.perm_middle.trans (List.Perm.append_right k.freePages hperm.symm)
  · exact h.entryNodup.sublist (List.Sublist.map _ List.erase_sublist)
  · intro fte' hm
    rcases hother fte' hm with ⟨hmem, hne⟩
    rcases h.resident fte' hmem with ⟨x, pte', hx, hlx, hptex, hframex⟩
    refine ⟨x, pte', (hentries _ _ _).mpr (by rw [if_neg hne]; exact hx), hlx, ?_, hframex⟩
    rw [pteOf_unmapPage, if_neg]
    · exact hptex
    · rintro ⟨hth, hva⟩
      refine hne (h.addressUnique fte.thread _ _ x e (hth ▸ hx) hentry ?_)
      rw [hva, haddr]
  · intro t q x hx hlx
    rw [hentries] at hx
    by_cases hq : q = fte.spte
    · rw [if_pos hq] at hx
      rw [hx.2, hl] at hlx
      cases hlx
    · rw [if_neg hq] at hx
      rcases h.listed t q x hx hlx with ⟨f, hf⟩
      refine ⟨f, (List.mem_erase_of_ne ?_).mpr hf⟩
      intro heq
      exact hq (by rw [← heq])
  · intro t va pte' hpte'
    rw [pteOf_unmapPage] at hpte'
    split at hpte'
    next => cases hpte'
    next hne =>
      rcases h.mapped t va pte' hpte' with ⟨q, x, hx, hva, hlx⟩
      have hq : q ≠ fte.spte := by
        intro heq
        subst heq
        have hxe : x = e := hx.eq_of_at hentry.at_ptr
        have ht : t = fte.thread := h.apart _ _ _ hx.mem hentry.mem
        exact hne ⟨ht, by rw [← hva, hxe, haddr]⟩
      exact ⟨q, x, (hentries _ _ _).mpr (by rw [if_neg hq]; exact hx), hva, hlx⟩

/-- A page gets a frame. -/
theorem map (h : Tables k) (he : Entry k t p e) (hl : e.isLoaded = false)
    (hf : frame ∈ k.freePages) (hpte : k.pteOf t e.unusedVirtualAddress = none) {used : Bool} :
    Tables (mapPage k t p e frame page used) := by
  have hentries : ∀ u q x, Entry (mapPage k t p e frame page used) u q x ↔
      if q = p then u = t ∧ x = { e with isLoaded := true } else Entry k u q x :=
    fun _ _ _ => h.entry_replaced he rfl rfl
  have hnew : ∀ fte ∈ k.frameTblList, fte.spte ≠ p := fun _ => h.fte_ne_of_notLoaded he hl
  have hty : e.type ≠ .hashError := by
    rcases h.allocated t p he.mem with ⟨x, hx, hty⟩
    rwa [he.eq_of_at hx]
  refine
    { pool := ?_, poolNodup := h.poolNodup, entryNodup := ?_, resident := ?_, listed := ?_,
      mapped := ?_, allocated := fun _ _ => h.allocated_replaced rfl rfl hty, apart := h.apart,
      sptNodup := h.sptNodup,
      addressUnique := fun _ _ _ _ _ => h.address_replaced he rfl rfl rfl,
      living := h.living }
  · -- the frame moves from the free pages to the table
    show ((k.frameTblList ++ [FrameTblEnt.mk frame t p]).map (·.frame) ++
      k.freePages.erase frame).Perm k.userPool
    rw [List.map_append, List.append_assoc]
    refine List.Perm.trans (List.Perm.append_left _ ?_) h.pool
    exact (List.perm_cons_erase hf).symm
  · show ((k.frameTblList ++ [FrameTblEnt.mk frame t p]).map (·.spte)).Nodup
    rw [List.map_append, List.nodup_append]
    refine ⟨h.entryNodup, List.nodup_singleton _, ?_⟩
    intro a ha b hb hab
    rcases List.mem_map.mp ha with ⟨fte, hfte, rfl⟩
    have hbp : b = p := by simpa using hb
    exact hnew fte hfte (hab.trans hbp)
  · intro fte hfte
    rcases List.mem_append.mp hfte with hold | hlast
    · rcases h.resident fte hold with ⟨x, pte, hx, hlx, hptex, hframe⟩
      have hne := hnew fte hold
      refine ⟨x, pte, (hentries _ _ _).mpr (by rw [if_neg hne]; exact hx), hlx, ?_, hframe⟩
      rw [pteOf_mapPage, if_neg]
      · exact hptex
      · rintro ⟨hth, hva⟩
        rw [hth, hva, hpte] at hptex
        cases hptex
    · have heq : fte = { frame := frame, thread := t, spte := p } := by simpa using hlast
      subst heq
      refine ⟨{ e with isLoaded := true },
        { frame := frame, writable := e.writable, accessed := used, dirty := used },
        (hentries _ _ _).mpr (by rw [if_pos rfl]; exact ⟨rfl, rfl⟩), rfl, ?_, rfl⟩
      rw [pteOf_mapPage, if_pos ⟨rfl, rfl⟩]
  · intro u q x hx hlx
    rw [hentries] at hx
    by_cases hq : q = p
    · rw [if_pos hq] at hx
      refine ⟨frame, List.mem_append.mpr (.inr ?_)⟩
      rw [hx.1, hq]
      exact List.mem_singleton_self _
    · rw [if_neg hq] at hx
      rcases h.listed u q x hx hlx with ⟨f, hmem⟩
      exact ⟨f, List.mem_append.mpr (.inl hmem)⟩
  · intro u va pte hpte'
    rw [pteOf_mapPage] at hpte'
    by_cases hnewPage : u = t ∧ va = e.unusedVirtualAddress
    · refine ⟨p, { e with isLoaded := true }, (hentries _ _ _).mpr ?_, hnewPage.2.symm, rfl⟩
      rw [if_pos rfl]
      exact ⟨hnewPage.1, rfl⟩
    · rw [if_neg hnewPage] at hpte'
      rcases h.mapped u va pte hpte' with ⟨q, x, hx, hva, hlx⟩
      have hq := he.ne_of_loaded hl hx hlx
      exact ⟨q, x, (hentries _ _ _).mpr (by rw [if_neg hq]; exact hx), hva, hlx⟩

/-- An entry that is not loaded enters a supplemental page table. -/
theorem insert (h : Tables k) (hp : ∀ t, p ∉ k.spt t) (he : k.sptes p = some e)
    (hl : e.isLoaded = false) (hty : e.type ≠ .hashError)
    (hnew : hashFind k t e.unusedVirtualAddress = none) (ht : k.status t ≠ .absent) :
    Tables (insertEntry k t p e.unusedVirtualAddress page) := by
  have hspt : ∀ u, (insertEntry k t p e.unusedVirtualAddress page).spt u =
      if u = t then k.spt t ++ [p] else k.spt u := fun u => Function.update_apply ..
  have hmem : ∀ u q, q ∈ (insertEntry k t p e.unusedVirtualAddress page).spt u ↔
      q ∈ k.spt u ∨ u = t ∧ q = p := fun _ _ => mem_insertEntry
  have hentries : ∀ u q x, Entry (insertEntry k t p e.unusedVirtualAddress page) u q x ↔
      Entry k u q x ∨ u = t ∧ q = p ∧ x = e := fun _ _ _ => entry_insertEntry he
  refine
    { pool := h.pool, poolNodup := h.poolNodup, entryNodup := h.entryNodup, resident := ?_,
      listed := ?_, mapped := ?_, allocated := ?_, apart := ?_, sptNodup := ?_,
      addressUnique := ?_, living := ?_ }
  · intro fte hfte
    rcases h.resident fte hfte with ⟨x, pte, hx, hrest⟩
    exact ⟨x, pte, (hentries _ _ _).mpr (.inl hx), hrest⟩
  · intro u q x hx hlx
    -- the new page is not loaded, so it needs no frame
    rcases (hentries u q x).mp hx with hold | ⟨_, _, rfl⟩
    · exact h.listed u q x hold hlx
    · rw [hl] at hlx
      cases hlx
  · intro u va pte hpte
    rcases h.mapped u va pte hpte with ⟨q, x, hx, hrest⟩
    exact ⟨q, x, (hentries _ _ _).mpr (.inl hx), hrest⟩
  · intro u q hq
    rcases (hmem u q).mp hq with hold | ⟨_, rfl⟩
    · exact h.allocated u q hold
    · exact ⟨e, he, hty⟩
  · intro u v q hu hv
    -- nobody else had the entry
    rcases (hmem u q).mp hu with hu' | ⟨rfl, rfl⟩
    · rcases (hmem v q).mp hv with hv' | ⟨rfl, rfl⟩
      · exact h.apart u v q hu' hv'
      · exact absurd hu' (hp u)
    · rcases (hmem v q).mp hv with hv' | ⟨rfl, _⟩
      · exact absurd hv' (hp v)
      · rfl
  · intro u
    rw [hspt]
    by_cases hu : u = t
    · rw [if_pos hu]
      refine List.nodup_append.mpr ⟨h.sptNodup t, List.nodup_singleton _, ?_⟩
      intro a ha b hb hab
      have hbp : b = p := by simpa using hb
      exact hp t (by rw [← hbp, ← hab]; exact ha)
    · rw [if_neg hu]
      exact h.sptNodup u
  · intro u q₁ q₂ x₁ x₂ hx₁ hx₂ heq
    -- `hash_find` has not found an entry for the address
    rcases (hentries u q₁ x₁).mp hx₁ with h₁ | ⟨rfl, rfl, rfl⟩
    · rcases (hentries u q₂ x₂).mp hx₂ with h₂ | ⟨rfl, rfl, rfl⟩
      · exact h.addressUnique u q₁ q₂ x₁ x₂ h₁ h₂ heq
      · exact absurd heq (not_entry_of_hashFind hnew h₁)
    · rcases (hentries _ q₂ x₂).mp hx₂ with h₂ | ⟨_, rfl, _⟩
      · exact absurd heq.symm (not_entry_of_hashFind hnew h₂)
      · rfl
  · intro u q hq
    rcases (hmem u q).mp hq with hold | ⟨rfl, _⟩
    · exact h.living u q hold
    · exact ht

/-- An entry that is not loaded is removed and freed. -/
theorem remove (h : Tables k) (he : Entry k t p e) (hl : e.isLoaded = false)
    (hspt : ∀ u q, q ∈ k'.spt u ↔ q ∈ k.spt u ∧ q ≠ p) (hnodup : ∀ u, (k'.spt u).Nodup)
    (hsptes : ∀ q, q ≠ p → k'.sptes q = k.sptes q) (htbl : k'.frameTblList = k.frameTblList)
    (hpool : k'.userPool = k.userPool) (hfree : k'.freePages = k.freePages)
    (hstatus : k'.status = k.status) (hpte : ∀ u va, k'.pteOf u va = k.pteOf u va) :
    Tables k' := by
  have hentries : ∀ u q x, Entry k' u q x ↔ Entry k u q x ∧ q ≠ p := by
    intro u q x
    rw [entry_iff, entry_iff, hspt]
    constructor
    · rintro ⟨⟨hq, hne⟩, hx⟩
      exact ⟨⟨hq, hsptes q hne ▸ hx⟩, hne⟩
    · rintro ⟨⟨hq, hx⟩, hne⟩
      exact ⟨⟨hq, hne⟩, (hsptes q hne).trans hx⟩
  refine
    { pool := by rw [htbl, hpool, hfree]; exact h.pool, poolNodup := hpool ▸ h.poolNodup,
      entryNodup := htbl ▸ h.entryNodup, resident := ?_, listed := ?_, mapped := ?_,
      allocated := ?_, apart := ?_, sptNodup := hnodup, addressUnique := ?_, living := ?_ }
  · intro fte hfte
    rcases h.resident fte (htbl ▸ hfte) with ⟨x, pte, hx, hlx, hptex, hframe⟩
    exact ⟨x, pte, (hentries _ _ _).mpr ⟨hx, he.ne_of_loaded hl hx hlx⟩, hlx,
      (hpte _ _).trans hptex, hframe⟩
  · intro u q x hx hlx
    rw [htbl]
    exact h.listed u q x ((hentries u q x).mp hx).1 hlx
  · intro u va pte hpte'
    rw [hpte] at hpte'
    rcases h.mapped u va pte hpte' with ⟨q, x, hx, hva, hlx⟩
    exact ⟨q, x, (hentries _ _ _).mpr ⟨hx, he.ne_of_loaded hl hx hlx⟩, hva, hlx⟩
  · intro u q hq
    rcases (hspt u q).mp hq with ⟨hq', hne⟩
    rw [hsptes q hne]
    exact h.allocated u q hq'
  · intro u v q hu hv
    exact h.apart u v q ((hspt u q).mp hu).1 ((hspt v q).mp hv).1
  · intro u q₁ q₂ x₁ x₂ hx₁ hx₂ heq
    exact h.addressUnique u q₁ q₂ x₁ x₂ ((hentries _ _ _).mp hx₁).1 ((hentries _ _ _).mp hx₂).1 heq
  · intro u q hq
    rw [hstatus]
    exact h.living u q ((hspt u q).mp hq).1

end Tables

end Pintos.Vm
