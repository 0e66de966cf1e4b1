import Pintos.Vm.Tables

/-! # Mappings and open files

`Mappings` says what the list of mappings of a process consists of, and
`Handles` that every open file has one use: as the executable of a process, as
a file descriptor, or as the file of one mapping. Together with `Tables` they
make up `Sound`, which every change preserves.
-/

namespace Pintos.Vm

variable {k k' : Kernel} {t u : Tid} {p q : Ptr} {e e' : Spte} {f : FilePtr} {r : Role}

/-- The list of mappings of every process. -/
structure Mappings (k : Kernel) : Prop where
  /-- A listed entry is in the supplemental page table, or in none at all and
  marked `HASH_ERROR`. -/
  entry : ∀ t, ∀ mm ∈ k.mmapList t, ∃ e, k.sptes mm.spte = some e ∧
    (e.type = .mmap ∧ mm.spte ∈ k.spt t ∨
      e.type = .hashError ∧ e.isLoaded = false ∧ ∀ u, mm.spte ∉ k.spt u)
  covered : ∀ t p e, Entry k t p e → e.type = .mmap → ∃ mm ∈ k.mmapList t, mm.spte = p
  nodup : ∀ t, ((k.mmapList t).map (·.spte)).Nodup
  apart : ∀ t u, ∀ mm ∈ k.mmapList t, ∀ mm' ∈ k.mmapList u, mm.spte = mm'.spte → t = u
  sorted : ∀ t, (k.mmapList t).Pairwise fun a b => a.mapid ≤ b.mapid
  bounded : ∀ t, ∀ mm ∈ k.mmapList t, 1 ≤ mm.mapid ∧ mm.mapid ≤ k.mapid t
  mapidNonneg : ∀ t, 0 ≤ k.mapid t
  living : ∀ t, ∀ mm ∈ k.mmapList t, k.status t ≠ .absent

/-- The open files and their uses. -/
structure Handles (k : Kernel) : Prop where
  executable : ∀ t, k.Live t → ∃ f o, k.executable t = some f ∧ k.files.lookup f = some o ∧
    o.denyWrite = true
  filePages : ∀ t p e, k.Live t → Entry k t p e → e.type = .file →
    k.executable t = some e.file
  sizes : ∀ t p e, Entry k t p e → e.type = .file ∨ e.type = .mmap →
    e.readBytes.toNat + e.zeroBytes.toNat = pgSize
  opened : ∀ f r, Holds k f r → f ∈ k.files
  unique : ∀ f r r', Holds k f r → Holds k f r' → r = r'
  fdSorted : ∀ t, (k.fileList t).Pairwise fun a b => a.fd < b.fd
  fdBounded : ∀ t, ∀ pf ∈ k.fileList t, pf.fd < k.fd t
  living : ∀ t, ∀ pf ∈ k.fileList t, k.status t ≠ .absent

/-- What holds between two changes. -/
structure Sound (k : Kernel) : Prop where
  tables : Tables k
  mappings : Mappings k
  handles : Handles k

/-! ## Changes of entries in place -/

/-- `k'` differs from `k` in how entries look, not in where they are. -/
structure Reshapes (k k' : Kernel) : Prop where
  status : k'.status = k.status
  spt : k'.spt = k.spt
  mmapList : k'.mmapList = k.mmapList
  mapid : k'.mapid = k.mapid
  fileList : k'.fileList = k.fileList
  fd : k'.fd = k.fd
  executable : k'.executable = k.executable
  files : k'.files = k.files
  sptes : ∀ p, ¬ Unused k p → Option.Rel Spte.Reshaped (k.sptes p) (k'.sptes p)

namespace Reshapes

theorem rel_refl (o : Option Spte) : Option.Rel Spte.Reshaped o o := by
  cases o with
  | none => exact .none
  | some e => exact .some (.refl e)

/-- The heap did not change. -/
theorem of_sptes (hstatus : k'.status = k.status) (hspt : k'.spt = k.spt)
    (hmmap : k'.mmapList = k.mmapList) (hmapid : k'.mapid = k.mapid)
    (hfileList : k'.fileList = k.fileList) (hfd : k'.fd = k.fd)
    (hexe : k'.executable = k.executable) (hfiles : k'.files = k.files)
    (hsptes : k'.sptes = k.sptes) : Reshapes k k' :=
  ⟨hstatus, hspt, hmmap, hmapid, hfileList, hfd, hexe, hfiles,
    fun p _ => by rw [hsptes]; exact rel_refl _⟩

/-- One entry of the heap changed its looks. -/
theorem rel_update {p q : Ptr} (he : k.sptes p = some e) (h : e.Reshaped e') :
    Option.Rel Spte.Reshaped (k.sptes q) (Function.update k.sptes p (some e') q) := by
  by_cases hq : q = p
  · subst hq
    rw [he, Function.update_self]
    exact .some h
  · rw [Function.update_of_ne hq]
    exact rel_refl _

/-- An entry before the change, from one afterwards. -/
theorem entry_to (h : Reshapes k k') (he : Entry k' t p e') :
    ∃ e, Entry k t p e ∧ e.Reshaped e' := by
  have hp : p ∈ k.spt t := h.spt ▸ he.mem
  have hrel := h.sptes p fun hun => hun.spt t hp
  rw [he.at_ptr] at hrel
  cases hold : k.sptes p with
  | none =>
      rw [hold] at hrel
      cases hrel
  | some e =>
      rw [hold] at hrel
      cases hrel with
      | some hre => exact ⟨e, ⟨hp, hold⟩, hre⟩

theorem mm_from (h : Reshapes k k') {mm : MmapFile} (hmm : mm ∈ k.mmapList t)
    (he : k.sptes mm.spte = some e) : ∃ e', k'.sptes mm.spte = some e' ∧ e.Reshaped e' := by
  have hrel := h.sptes mm.spte fun hun => hun.mmap t mm hmm rfl
  rw [he] at hrel
  cases hnew : k'.sptes mm.spte with
  | none =>
      rw [hnew] at hrel
      cases hrel
  | some e' =>
      rw [hnew] at hrel
      cases hrel with
      | some hre => exact ⟨e', rfl, hre⟩

theorem mm_to (h : Reshapes k k') {mm : MmapFile} (hmm : mm ∈ k.mmapList t)
    (he : k'.sptes mm.spte = some e') : ∃ e, k.sptes mm.spte = some e ∧ e.Reshaped e' := by
  have hrel := h.sptes mm.spte fun hun => hun.mmap t mm hmm rfl
  rw [he] at hrel
  cases hold : k.sptes mm.spte with
  | none =>
      rw [hold] at hrel
      cases hrel
  | some e =>
      rw [hold] at hrel
      cases hrel with
      | some hre => exact ⟨e, rfl, hre⟩

theorem holds (h : Reshapes k k') (hh : Holds k' f r) : Holds k f r := by
  cases r with
  | executable t =>
      unfold Holds Kernel.Live at hh ⊢
      rwa [h.status, h.executable] at hh
  | descriptor t fd =>
      unfold Holds at hh ⊢
      rwa [h.fileList] at hh
  | mapping t m =>
      rcases hh with ⟨mm, hmm, hid, e', he', hfile⟩
      rw [h.mmapList] at hmm
      rcases h.mm_to hmm he' with ⟨e, he, hre⟩
      exact ⟨mm, hmm, hid, e, he, hre.file.symm.trans hfile⟩

theorem mappings (h : Reshapes k k') (hm : Mappings k) : Mappings k' where
  entry := by
    intro t mm hmm
    rw [h.mmapList] at hmm
    rcases hm.entry t mm hmm with ⟨e, he, hcase⟩
    rcases h.mm_from hmm he with ⟨e', he', hre⟩
    refine ⟨e', he', ?_⟩
    rw [h.spt]
    rcases hcase with ⟨hty, hspt⟩ | ⟨hty, hl, hno⟩
    · rcases hre.type with htype | ⟨hne, _⟩
      · exact .inl ⟨htype.trans hty, hspt⟩
      · exact absurd hty hne
    · rcases hre.type with htype | ⟨_, hne, _⟩
      · exact .inr ⟨htype.trans hty, (hre.error hty).trans hl, hno⟩
      · exact absurd hty hne
  covered := by
    intro t p e' he' hty
    rcases h.entry_to he' with ⟨e, he, hre⟩
    rw [h.mmapList]
    rcases hre.type with htype | ⟨_, _, hswap⟩
    · exact hm.covered t p e he (htype.symm.trans hty)
    · rw [hty] at hswap
      cases hswap
  nodup := fun t => by rw [h.mmapList]; exact hm.nodup t
  apart := fun t u mm hmm mm' hmm' =>
    hm.apart t u mm (h.mmapList ▸ hmm) mm' (h.mmapList ▸ hmm')
  sorted := fun t => by rw [h.mmapList]; exact hm.sorted t
  bounded := fun t mm hmm => by rw [h.mapid]; exact hm.bounded t mm (h.mmapList ▸ hmm)
  mapidNonneg := fun t => by rw [h.mapid]; exact hm.mapidNonneg t
  living := fun t mm hmm => by rw [h.status]; exact hm.living t mm (h.mmapList ▸ hmm)

theorem handles (h : Reshapes k k') (hh : Handles k) : Handles k' where
  executable := by
    intro t ht
    unfold Kernel.Live at ht
    rw [h.status] at ht
    rw [h.executable, h.files]
    exact hh.executable t ht
  filePages := by
    intro t p e' ht he' hty
    unfold Kernel.Live at ht
    rw [h.status] at ht
    rcases h.entry_to he' with ⟨e, he, hre⟩
    rw [h.executable, hre.file]
    rcases hre.type with htype | ⟨_, _, hswap⟩
    · exact hh.filePages t p e ht he (htype.symm.trans hty)
    · rw [hty] at hswap
      cases hswap
  sizes := by
    intro t p e' he' hty
    rcases h.entry_to he' with ⟨e, he, hre⟩
    rw [hre.readBytes, hre.zeroBytes]
    rcases hre.type with htype | ⟨_, _, hswap⟩
    · exact hh.sizes t p e he (htype ▸ hty)
    · rw [hswap] at hty
      simp at hty
  opened := fun f r hr => by rw [h.files]; exact hh.opened f r (h.holds hr)
  unique := fun f r r' hr hr' => hh.unique f r r' (h.holds hr) (h.holds hr')
  fdSorted := fun t => by rw [h.fileList]; exact hh.fdSorted t
  fdBounded := fun t pf hpf => by
    rw [h.fd]
    exact hh.fdBounded t pf (h.fileList ▸ hpf)
  living := fun t pf hpf => by
    rw [h.status]
    exact hh.living t pf (h.fileList ▸ hpf)

end Reshapes

/-! ## New entries -/

/-- An entry that belongs to no mapping enters a supplemental page table. -/
theorem Mappings.insert (h : Mappings k) {upage : Vaddr} {page : Page} (hp : Unused k p)
    (he : k.sptes p = some e) (hty : e.type ≠ .mmap) : Mappings (insertEntry k t p upage page) where
  entry := by
    intro u mm hmm
    rcases h.entry u mm hmm with ⟨x, hx, hcase⟩
    refine ⟨x, hx, ?_⟩
    rcases hcase with ⟨hmmap, hm⟩ | ⟨herr, hl, hno⟩
    · exact .inl ⟨hmmap, mem_insertEntry.mpr (.inl hm)⟩
    · refine .inr ⟨herr, hl, ?_⟩
      intro v hv
      rcases mem_insertEntry.mp hv with hv' | ⟨_, hv'⟩
      · exact hno v hv'
      · exact hp.mmap u mm hmm hv'
  covered := by
    intro u q x hx hmmap
    rcases (entry_insertEntry he).mp hx with hold | ⟨-, -, rfl⟩
    · exact h.covered u q x hold hmmap
    · exact absurd hmmap hty
  nodup := h.nodup
  apart := h.apart
  sorted := h.sorted
  bounded := h.bounded
  mapidNonneg := h.mapidNonneg
  living := h.living

theorem Handles.insert (h : Handles k) {upage : Vaddr} {page : Page} (he : k.sptes p = some e)
    (hfile : e.type = .file → k.executable t = some e.file)
    (hsize : e.type = .file ∨ e.type = .mmap → e.readBytes.toNat + e.zeroBytes.toNat = pgSize) :
    Handles (insertEntry k t p upage page) := by
  have hholds : ∀ f r, Holds (insertEntry k t p upage page) f r → Holds k f r := by
    intro f r hr
    cases r with
    | executable u => exact hr
    | descriptor u fd => exact hr
    | mapping u m => exact hr
  exact
    { executable := h.executable
      filePages := by
        intro u q x hu hx hty
        rcases (entry_insertEntry he).mp hx with hold | ⟨rfl, -, rfl⟩
        · exact h.filePages u q x hu hold hty
        · exact hfile hty
      sizes := by
        intro u q x hx hty
        rcases (entry_insertEntry he).mp hx with hold | ⟨rfl, -, rfl⟩
        · exact h.sizes u q x hold hty
        · exact hsize hty
      opened := fun f r hr => h.opened f r (hholds f r hr)
      unique := fun f r r' hr hr' => h.unique f r r' (hholds f r hr) (hholds f r' hr')
      fdSorted := h.fdSorted
      fdBounded := h.fdBounded
      living := h.living }

/-! ## New parts of a mapping -/

theorem mem_listMapping {mm : MmapFile} : mm ∈ (listMapping k t p).mmapList u ↔
    mm ∈ k.mmapList u ∨ u = t ∧ mm = { spte := p, mapid := k.mapid t } := by
  show mm ∈ Function.update k.mmapList t (k.mmapList t ++ [_]) u ↔ _
  by_cases hu : u = t
  · subst hu
    simp
  · simp [hu]

/-- The list of mappings gets one more element. The entry is in the supplemental
page table if it could be inserted there. -/
theorem Mappings.list (h : Mappings k) (hp : Unused k p) (he : k.sptes p = some e)
    (hid : 1 ≤ k.mapid t) (ht : k.status t = .alive)
    (hk' : k'.mmapList = (listMapping k t p).mmapList) (hsptes : k'.sptes = k.sptes)
    (hmapid : k'.mapid = k.mapid) (hstatus : k'.status = k.status)
    (hspt : ∀ u q, q ∈ k'.spt u ↔ q ∈ k.spt u ∨ e.type = .mmap ∧ u = t ∧ q = p)
    (hcase : e.type = .mmap ∨ e.type = .hashError ∧ e.isLoaded = false) : Mappings k' where
  entry := by
    intro u mm hmm
    rw [hk', mem_listMapping] at hmm
    rw [hsptes]
    -- an old element keeps its entry; the new one is inserted if it is of type `MMAP`
    rcases hmm with hmm | ⟨rfl, rfl⟩
    · rcases h.entry u mm hmm with ⟨x, hx, hold⟩
      refine ⟨x, hx, ?_⟩
      rcases hold with ⟨hty, hm⟩ | ⟨hty, hl, hno⟩
      · exact .inl ⟨hty, (hspt u _).mpr (.inl hm)⟩
      · refine .inr ⟨hty, hl, ?_⟩
        intro v hv
        rcases (hspt v _).mp hv with hv' | ⟨_, _, hv'⟩
        · -- an entry marked `HASH_ERROR` is not the one that is inserted
          exact hno v hv'
        · exact hp.mmap u mm hmm hv'
    · refine ⟨e, he, ?_⟩
      rcases hcase with hty | ⟨hty, hl⟩
      · exact .inl ⟨hty, (hspt _ _).mpr (.inr ⟨hty, rfl, rfl⟩)⟩
      · refine .inr ⟨hty, hl, ?_⟩
        intro v hv
        rcases (hspt v _).mp hv with hv' | ⟨hmmap, _⟩
        · exact hp.spt v hv'
        · rw [hty] at hmmap
          cases hmmap
  covered := by
    intro u q x hx hty
    have hx' : k.sptes q = some x := hsptes ▸ hx.at_ptr
    rcases (hspt u q).mp hx.mem with hq | ⟨_, rfl, rfl⟩
    · rcases h.covered u q x ⟨hq, hx'⟩ hty with ⟨mm, hmm, heq⟩
      exact ⟨mm, by rw [hk', mem_listMapping]; exact .inl hmm, heq⟩
    · exact ⟨_, by rw [hk', mem_listMapping]; exact .inr ⟨rfl, rfl⟩, rfl⟩
  nodup := by
    intro u
    rw [hk']
    show ((Function.update k.mmapList t (k.mmapList t ++ [_]) u).map (·.spte)).Nodup
    by_cases hu : u = t
    · subst hu
      rw [Function.update_self, List.map_append]
      refine List.nodup_append.mpr ⟨h.nodup u, List.nodup_singleton _, ?_⟩
      intro a ha b hb hab
      rcases List.mem_map.mp ha with ⟨mm, hmm, rfl⟩
      have hbp : b = p := by simpa using hb
      exact hp.mmap u mm hmm (hab.trans hbp)
    · rw [Function.update_of_ne hu]
      exact h.nodup u
  apart := by
    intro u v mm hmm mm' hmm' heq
    rw [hk', mem_listMapping] at hmm hmm'
    rcases hmm with hmm | ⟨rfl, rfl⟩
    · rcases hmm' with hmm' | ⟨rfl, rfl⟩
      · exact h.apart u v mm hmm mm' hmm' heq
      · exact absurd heq (hp.mmap u mm hmm)
    · rcases hmm' with hmm' | ⟨rfl, _⟩
      · exact absurd heq.symm (hp.mmap v mm' hmm')
      · rfl
  sorted := by
    intro u
    rw [hk']
    show (Function.update k.mmapList t (k.mmapList t ++ [_]) u).Pairwise _
    by_cases hu : u = t
    · subst hu
      rw [Function.update_self]
      refine List.pairwise_append.mpr ⟨h.sorted u, List.pairwise_singleton _ _, ?_⟩
      intro a ha b hb
      -- the number of the mapping is the newest
      have hbp : b.mapid = k.mapid u := by
        have : b = { spte := p, mapid := k.mapid u } := by simpa using hb
        rw [this]
      rw [hbp]
      exact (h.bounded u a ha).2
    · rw [Function.update_of_ne hu]
      exact h.sorted u
  bounded := by
    intro u mm hmm
    rw [hk', mem_listMapping] at hmm
    rw [hmapid]
    rcases hmm with hmm | ⟨rfl, rfl⟩
    · exact h.bounded u mm hmm
    · exact ⟨hid, Int.le_refl _⟩
  mapidNonneg := fun u => by rw [hmapid]; exact h.mapidNonneg u
  living := by
    intro u mm hmm
    rw [hk', mem_listMapping] at hmm
    rw [hstatus]
    rcases hmm with hmm | ⟨rfl, _⟩
    · exact h.living u mm hmm
    · rw [ht]
      decide

/-- The file of a mapping gets one more page. -/
theorem Handles.list (h : Handles k) (he : k.sptes p = some e) (hopen : e.file ∈ k.files)
    (hrole : ∀ r, Holds k e.file r → r = .mapping t (k.mapid t)) :
    Handles (listMapping k t p) := by
  -- the mapping that is listed is the only new holder
  have hholds : ∀ f r, Holds (listMapping k t p) f r →
      Holds k f r ∨ f = e.file ∧ r = .mapping t (k.mapid t) := by
    intro f r hr
    cases r with
    | executable u => exact .inl hr
    | descriptor u fd => exact .inl hr
    | mapping u m =>
        rcases hr with ⟨mm, hmm, hid, x, hx, hfile⟩
        rcases mem_listMapping.mp hmm with hmm' | ⟨rfl, rfl⟩
        · exact .inl ⟨mm, hmm', hid, x, hx, hfile⟩
        · have hxe : x = e := by
            have hx' : k.sptes p = some x := hx
            rw [he] at hx'
            exact (Option.some.inj hx').symm
          exact .inr ⟨by rw [← hfile, hxe], by rw [← hid]⟩
  exact
    { executable := h.executable
      filePages := fun u q x hu hx => h.filePages u q x hu ⟨hx.1, hx.2⟩
      sizes := fun u q x hx => h.sizes u q x ⟨hx.1, hx.2⟩
      opened := by
        intro f r hr
        rcases hholds f r hr with hold | ⟨rfl, _⟩
        · exact h.opened f r hold
        · exact hopen
      unique := by
        intro f r r' hr hr'
        rcases hholds f r hr with hold | ⟨rfl, rfl⟩
        · rcases hholds f r' hr' with hold' | ⟨rfl, rfl⟩
          · exact h.unique f r r' hold hold'
          · exact hrole r hold
        · rcases hholds _ r' hr' with hold' | ⟨_, rfl⟩
          · exact (hrole r' hold').symm
          · rfl
      fdSorted := h.fdSorted
      fdBounded := h.fdBounded
      living := h.living }

/-! ## Entries that go -/

/-- The entry at `p` is gone in `k'`, from every list and from the heap, and
nothing else has changed. -/
structure Removes (k : Kernel) (p : Ptr) (k' : Kernel) : Prop where
  spt : ∀ u q, q ∈ k'.spt u ↔ q ∈ k.spt u ∧ q ≠ p
  sptNodup : ∀ u, (k'.spt u).Nodup
  mmapList : ∀ u, ∀ mm, mm ∈ k'.mmapList u ↔ mm ∈ k.mmapList u ∧ mm.spte ≠ p
  mmapSublist : ∀ u, (k'.mmapList u).Sublist (k.mmapList u)
  sptes : ∀ q, q ≠ p → k'.sptes q = k.sptes q
  rest : k' = { k with spt := k'.spt, mmapList := k'.mmapList, sptes := k'.sptes }

namespace Removes

theorem holds (h : Removes k p k') (hr : Holds k' f r) : Holds k f r := by
  rw [h.rest] at hr
  cases r with
  | executable u => exact hr
  | descriptor u fd => exact hr
  | mapping u m =>
      rcases hr with ⟨mm, hmm, hid, x, hx, hfile⟩
      rcases (h.mmapList u mm).mp hmm with ⟨hold, hne⟩
      exact ⟨mm, hold, hid, x, (h.sptes _ hne).symm.trans hx, hfile⟩

theorem entry (h : Removes k p k') (he : Entry k' t q e) : Entry k t q e ∧ q ≠ p := by
  rcases (h.spt t q).mp he.mem with ⟨hq, hne⟩
  exact ⟨⟨hq, (h.sptes q hne).symm.trans he.at_ptr⟩, hne⟩

theorem mappings (h : Removes k p k') (hm : Mappings k) : Mappings k' where
  entry := by
    intro u mm hmm
    rcases (h.mmapList u mm).mp hmm with ⟨hold, hne⟩
    rcases hm.entry u mm hold with ⟨x, hx, hcase⟩
    refine ⟨x, (h.sptes _ hne).trans hx, ?_⟩
    rcases hcase with ⟨hty, hspt⟩ | ⟨hty, hl, hno⟩
    · exact .inl ⟨hty, (h.spt u _).mpr ⟨hspt, hne⟩⟩
    · exact .inr ⟨hty, hl, fun v hv => hno v ((h.spt v _).mp hv).1⟩
  covered := by
    intro u q x hx hty
    rcases h.entry hx with ⟨hold, hne⟩
    rcases hm.covered u q x hold hty with ⟨mm, hmm, rfl⟩
    exact ⟨mm, (h.mmapList u mm).mpr ⟨hmm, hne⟩, rfl⟩
  nodup := fun u => (hm.nodup u).sublist ((h.mmapSublist u).map _)
  apart := fun u v mm hmm mm' hmm' =>
    hm.apart u v mm ((h.mmapList u mm).mp hmm).1 mm' ((h.mmapList v mm').mp hmm').1
  sorted := fun u => (hm.sorted u).sublist (h.mmapSublist u)
  bounded := by
    intro u mm hmm
    rw [h.rest]
    exact hm.bounded u mm ((h.mmapList u mm).mp hmm).1
  mapidNonneg := by
    rw [h.rest]
    exact hm.mapidNonneg
  living := by
    intro u mm hmm
    rw [h.rest]
    exact hm.living u mm ((h.mmapList u mm).mp hmm).1

theorem handles (h : Removes k p k') (hh : Handles k) : Handles k' where
  executable := by
    rw [h.rest]
    exact hh.executable
  filePages := by
    intro u q x hu hx hty
    have hold := hh.filePages u q x (by rw [h.rest] at hu; exact hu) (h.entry hx).1 hty
    rw [h.rest]
    exact hold
  sizes := fun u q x hx => hh.sizes u q x (h.entry hx).1
  opened := by
    intro f r hr
    rw [h.rest]
    exact hh.opened f r (h.holds hr)
  unique := fun f r r' hr hr' => hh.unique f r r' (h.holds hr) (h.holds hr')
  fdSorted := by
    rw [h.rest]
    exact hh.fdSorted
  fdBounded := by
    rw [h.rest]
    exact hh.fdBounded
  living := by
    rw [h.rest]
    exact hh.living

/-- The removed entry was not loaded, or in no table at all. -/
theorem tables (h : Removes k p k') (ht : Tables k) (he : k.sptes p = some e)
    (hl : e.isLoaded = false) : Tables k' := by
  by_cases hp : ∃ t, p ∈ k.spt t
  · rcases hp with ⟨t, hp⟩
    exact ht.remove ⟨hp, he⟩ hl h.spt h.sptNodup h.sptes (by rw [h.rest]) (by rw [h.rest])
      (by rw [h.rest]) (by rw [h.rest]) (fun u va => by rw [h.rest]; rfl)
  · rw [not_exists] at hp
    -- no table loses an element, so the entries of all of them are the same
    have hspt : ∀ u q, q ∈ k'.spt u ↔ q ∈ k.spt u := by
      intro u q
      rw [h.spt]
      exact ⟨fun hq => hq.1, fun hq => ⟨hq, fun heq => hp u (heq ▸ hq)⟩⟩
    have hentry : ∀ u q x, Entry k' u q x ↔ Entry k u q x := by
      intro u q x
      rw [entry_iff, entry_iff, hspt]
      constructor
      · rintro ⟨hq, hx⟩
        exact ⟨hq, (h.sptes q fun heq => hp u (heq ▸ hq)).symm.trans hx⟩
      · rintro ⟨hq, hx⟩
        exact ⟨hq, (h.sptes q fun heq => hp u (heq ▸ hq)).trans hx⟩
    have hrest := h.rest
    refine
      { pool := by rw [hrest]; exact ht.pool, poolNodup := by rw [hrest]; exact ht.poolNodup,
        entryNodup := by rw [hrest]; exact ht.entryNodup, resident := ?_, listed := ?_,
        mapped := ?_, allocated := ?_, apart := ?_, sptNodup := h.sptNodup,
        addressUnique := ?_, living := ?_ }
    · intro fte hfte
      rw [hrest] at hfte
      rcases ht.resident fte hfte with ⟨x, pte, hx, hlx, hpte, hframe⟩
      refine ⟨x, pte, (hentry _ _ _).mpr hx, hlx, ?_, hframe⟩
      rw [hrest]
      exact hpte
    · intro u q x hx hlx
      rw [hrest]
      exact ht.listed u q x ((hentry u q x).mp hx) hlx
    · intro u va pte hpte
      rw [hrest] at hpte
      rcases ht.mapped u va pte hpte with ⟨q, x, hx, hrest'⟩
      exact ⟨q, x, (hentry u q x).mpr hx, hrest'⟩
    · intro u q hq
      have hq' := (hspt u q).mp hq
      rw [h.sptes q fun heq => hp u (heq ▸ hq')]
      exact ht.allocated u q hq'
    · intro u v q hu hv
      exact ht.apart u v q ((hspt u q).mp hu) ((hspt v q).mp hv)
    · intro u q₁ q₂ x₁ x₂ hx₁ hx₂ heq
      exact ht.addressUnique u q₁ q₂ x₁ x₂ ((hentry _ _ _).mp hx₁) ((hentry _ _ _).mp hx₂) heq
    · intro u q hq
      rw [hrest]
      exact ht.living u q ((hspt u q).mp hq)

end Removes

/-! ## Open files -/

theorem Handles.openFile (h : Handles k) {i : Inode} (hf : f ∉ k.files) :
    Handles { k with files := k.files.insert f { inode := i, denyWrite := false } } where
  executable := by
    intro t ht
    rcases h.executable t ht with ⟨g, o, hexe, ho, hdeny⟩
    have hne : g ≠ f := by
      rintro rfl
      rw [AList.lookup_eq_none.mpr hf] at ho
      cases ho
    exact ⟨g, o, hexe, by rw [AList.lookup_insert_ne hne]; exact ho, hdeny⟩
  filePages := fun t p e ht he => h.filePages t p e ht ⟨he.1, he.2⟩
  sizes := fun t p e he => h.sizes t p e ⟨he.1, he.2⟩
  opened := by
    intro g r hr
    have hold : Holds k g r := by
      cases r <;> exact hr
    exact (AList.mem_insert _).mpr (.inr (h.opened g r hold))
  unique := by
    intro g r r' hr hr'
    have hold : Holds k g r := by
      cases r <;> exact hr
    have hold' : Holds k g r' := by
      cases r' <;> exact hr'
    exact h.unique g r r' hold hold'
  fdSorted := h.fdSorted
  fdBounded := h.fdBounded
  living := h.living

/-- A handle without a use is closed. -/
theorem Handles.closeFile (h : Handles k) (hf : ∀ r, ¬ Holds k f r) :
    Handles { k with files := k.files.erase f } where
  executable := by
    intro t ht
    rcases h.executable t ht with ⟨g, o, hexe, ho, hdeny⟩
    have hne : g ≠ f := by
      rintro rfl
      exact hf (.executable t) ⟨ht, hexe⟩
    exact ⟨g, o, hexe, by rw [AList.lookup_erase_ne hne]; exact ho, hdeny⟩
  filePages := fun t p e ht he => h.filePages t p e ht ⟨he.1, he.2⟩
  sizes := fun t p e he => h.sizes t p e ⟨he.1, he.2⟩
  opened := by
    intro g r hr
    have hold : Holds k g r := by
      cases r <;> exact hr
    refine AList.mem_erase.mpr ⟨?_, h.opened g r hold⟩
    rintro rfl
    exact hf r hold
  unique := by
    intro g r r' hr hr'
    have hold : Holds k g r := by
      cases r <;> exact hr
    have hold' : Holds k g r' := by
      cases r' <;> exact hr'
    exact h.unique g r r' hold hold'
  fdSorted := h.fdSorted
  fdBounded := h.fdBounded
  living := h.living

/-- An open file without a use becomes a descriptor. -/
theorem Handles.addDescriptor (h : Handles k) (ht : k.status t = .alive) (hopen : f ∈ k.files)
    (hf : ∀ r, ¬ Holds k f r) : Handles (processAddFile k t f) := by
  have hmem : ∀ u pf, pf ∈ (processAddFile k t f).fileList u ↔
      pf ∈ k.fileList u ∨ u = t ∧ pf = { file := f, fd := k.fd t } := by
    intro u pf
    show pf ∈ Function.update k.fileList t (k.fileList t ++ [_]) u ↔ _
    by_cases hu : u = t
    · subst hu
      simp
    · simp [hu]
  have hfd : ∀ u, (processAddFile k t f).fd u = if u = t then k.fd t + 1 else k.fd u :=
    fun u => Function.update_apply ..
  -- the new descriptor is the only new use of a file
  have hholds : ∀ g r, Holds (processAddFile k t f) g r →
      Holds k g r ∨ g = f ∧ r = .descriptor t (k.fd t) := by
    intro g r hr
    cases r with
    | executable u => exact .inl hr
    | mapping u m => exact .inl hr
    | descriptor u fd =>
        rcases (hmem u _).mp hr with hold | ⟨rfl, heq⟩
        · exact .inl hold
        · cases heq
          exact .inr ⟨rfl, rfl⟩
  exact
    { executable := h.executable
      filePages := fun u p e hu he => h.filePages u p e hu ⟨he.1, he.2⟩
      sizes := fun u p e he => h.sizes u p e ⟨he.1, he.2⟩
      opened := by
        intro g r hr
        rcases hholds g r hr with hold | ⟨rfl, _⟩
        · exact h.opened g r hold
        · exact hopen
      unique := by
        intro g r r' hr hr'
        -- the file had no use before
        rcases hholds g r hr with hold | ⟨rfl, rfl⟩
        · rcases hholds g r' hr' with hold' | ⟨rfl, rfl⟩
          · exact h.unique g r r' hold hold'
          · exact absurd hold (hf r)
        · rcases hholds _ r' hr' with hold' | ⟨_, rfl⟩
          · exact absurd hold' (hf r')
          · rfl
      fdSorted := by
        intro u
        show (Function.update k.fileList t (k.fileList t ++ [_]) u).Pairwise _
        by_cases hu : u = t
        · subst hu
          rw [Function.update_self]
          refine List.pairwise_append.mpr ⟨h.fdSorted u, List.pairwise_singleton _ _, ?_⟩
          intro a ha b hb
          -- the descriptor is the one with the largest number
          have hbp : b = { file := f, fd := k.fd u } := by simpa using hb
          rw [hbp]
          exact h.fdBounded u a ha
        · rw [Function.update_of_ne hu]
          exact h.fdSorted u
      fdBounded := by
        intro u pf hpf
        rw [hfd]
        rcases (hmem u pf).mp hpf with hold | ⟨rfl, rfl⟩
        · have hlt := h.fdBounded u pf hold
          by_cases hu : u = t
          · subst hu
            rw [if_pos rfl]
            omega
          · rw [if_neg hu]
            exact hlt
        · rw [if_pos rfl]
          show k.fd _ < k.fd _ + 1
          omega
      living := by
        intro u pf hpf
        rcases (hmem u pf).mp hpf with hold | ⟨rfl, _⟩
        · exact h.living u pf hold
        · show k.status _ ≠ _
          rw [ht]
          decide }

/-- A descriptor is removed and its file closed. -/
theorem Handles.removeDescriptor (h : Handles k) {pf : ProcessFile} (hpf : pf ∈ k.fileList t) :
    Handles { k with
      fileList := Function.update k.fileList t ((k.fileList t).erase pf)
      files := k.files.erase pf.file } := by
  set k' : Kernel := { k with
    fileList := Function.update k.fileList t ((k.fileList t).erase pf)
    files := k.files.erase pf.file } with hk'
  have hlist : ∀ u, k'.fileList u = if u = t then (k.fileList t).erase pf else k.fileList u :=
    fun u => Function.update_apply ..
  have hnodup : (k.fileList t).Nodup :=
    (h.fdSorted t).imp fun hlt heq => by
      rw [heq] at hlt
      omega
  have hsub : ∀ u, (k'.fileList u).Sublist (k.fileList u) := by
    intro u
    rw [hlist]
    by_cases hu : u = t
    · rw [if_pos hu, hu]
      exact List.erase_sublist
    · rw [if_neg hu]
  have hholds : ∀ g r, Holds k' g r → Holds k g r := by
    intro g r hr
    cases r with
    | executable u => exact hr
    | mapping u m => exact hr
    | descriptor u fd => exact (hsub u).subset hr
  -- the closed file has no other use, and the descriptor is gone
  have hgone : ∀ r, ¬ Holds k' pf.file r := by
    intro r hr
    have hrole : Role.descriptor t pf.fd = r := h.unique pf.file _ _ hpf (hholds _ _ hr)
    subst hrole
    have hm : pf ∈ k'.fileList t := hr
    rw [hlist, if_pos rfl] at hm
    exact hnodup.not_mem_erase hm
  exact
    { executable := by
        intro u hu
        rcases h.executable u hu with ⟨g, o, hexe, ho, hdeny⟩
        have hne : g ≠ pf.file := by
          rintro rfl
          exact hgone (.executable u) ⟨hu, hexe⟩
        exact ⟨g, o, hexe, by rw [hk', AList.lookup_erase_ne hne]; exact ho, hdeny⟩
      filePages := fun u p e hu he => h.filePages u p e hu ⟨he.1, he.2⟩
      sizes := fun u p e he => h.sizes u p e ⟨he.1, he.2⟩
      opened := by
        intro g r hr
        refine AList.mem_erase.mpr ⟨?_, h.opened g r (hholds g r hr)⟩
        rintro rfl
        exact hgone r hr
      unique := fun g r r' hr hr' => h.unique g r r' (hholds g r hr) (hholds g r' hr')
      fdSorted := fun u => (h.fdSorted u).sublist (hsub u)
      fdBounded := fun u g hg => h.fdBounded u g ((hsub u).subset hg)
      living := fun u g hg => h.living u g ((hsub u).subset hg) }

end Pintos.Vm
