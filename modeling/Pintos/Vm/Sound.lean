import Pintos.Vm.Handles

/-! # Every change keeps the structures consistent

`Sound` is preserved by each of the changes, and by the few transitions that
are not changes: a status that moves on, a store, a write to a file, the start
of a process and its end.
-/

namespace Pintos.Vm

variable {k k' : Kernel} {t u : Tid} {p q : Ptr} {e e' : Spte} {fte : FrameTblEnt}
  {frame : Frame} {page : Page}
  {R : Scope}

/-- The list of mappings does not depend on frames, files and contents. -/
theorem Mappings.congr (h : Mappings k)
    (hstatus : ∀ t, k'.status t = .absent → k.status t = .absent ∨ k.mmapList t = [])
    (hspt : k'.spt = k.spt) (hmmap : k'.mmapList = k.mmapList) (hsptes : k'.sptes = k.sptes)
    (hmapid : ∀ t, k.mapid t ≤ k'.mapid t) : Mappings k' where
  entry := by
    rw [hmmap, hsptes, hspt]
    exact h.entry
  covered := by
    intro t p e he hty
    rw [hmmap]
    exact h.covered t p e ⟨hspt ▸ he.mem, hsptes ▸ he.at_ptr⟩ hty
  nodup := by
    rw [hmmap]
    exact h.nodup
  apart := by
    rw [hmmap]
    exact h.apart
  sorted := by
    rw [hmmap]
    exact h.sorted
  bounded := by
    intro t mm hmm
    rw [hmmap] at hmm
    rcases h.bounded t mm hmm with ⟨hpos, hle⟩
    exact ⟨hpos, Int.le_trans hle (hmapid t)⟩
  mapidNonneg := fun t => Int.le_trans (h.mapidNonneg t) (hmapid t)
  living := by
    intro t mm hmm habs
    rw [hmmap] at hmm
    rcases hstatus t habs with hold | hnil
    · exact h.living t mm hmm hold
    · rw [hnil] at hmm
      cases hmm

/-- The uses of the open files do not depend on them either; a process may stop
being live. -/
theorem Handles.congr (h : Handles k) (hlive : ∀ t, k'.Live t → k.Live t)
    (habs : ∀ t, k'.status t = .absent → k.status t = .absent ∨ k.fileList t = [])
    (hrest : k' = { k with status := k'.status, pagedir := k'.pagedir, mapid := k'.mapid,
                           inodes := k'.inodes, frameTblList := k'.frameTblList,
                           userPool := k'.userPool, freePages := k'.freePages,
                           mem := k'.mem, swap := k'.swap, hist := k'.hist }) :
    Handles k' := by
  have hentry : ∀ t p e, Entry k' t p e → Entry k t p e := by
    intro t p e he
    rw [hrest] at he
    exact ⟨he.mem, he.at_ptr⟩
  -- no file gets a use it did not have
  have hholds : ∀ f r, Holds k' f r → Holds k f r := by
    intro f r hr
    cases r with
    | executable t =>
        refine ⟨hlive t hr.1, ?_⟩
        have hexe := hr.2
        rwa [hrest] at hexe
    | descriptor t fd =>
        rw [hrest] at hr
        exact hr
    | mapping t m =>
        rw [hrest] at hr
        exact hr
  have hfiles : k'.files = k.files := by rw [hrest]
  have hexe : k'.executable = k.executable := by rw [hrest]
  have hlist : k'.fileList = k.fileList := by rw [hrest]
  have hfd : k'.fd = k.fd := by rw [hrest]
  exact
    { executable := by
        intro t ht
        rw [hexe, hfiles]
        exact h.executable t (hlive t ht)
      filePages := by
        intro t p e ht he hty
        rw [hexe]
        exact h.filePages t p e (hlive t ht) (hentry t p e he) hty
      sizes := fun t p e he => h.sizes t p e (hentry t p e he)
      opened := fun f r hr => hfiles ▸ h.opened f r (hholds f r hr)
      unique := fun f r r' hr hr' => h.unique f r r' (hholds f r hr) (hholds f r' hr')
      fdSorted := by
        rw [hlist]
        exact h.fdSorted
      fdBounded := by
        rw [hlist, hfd]
        exact h.fdBounded
      living := by
        intro t pf hpf ht
        rw [hlist] at hpf
        rcases habs t ht with hold | hnil
        · exact h.living t pf hpf hold
        · rw [hnil] at hpf
          cases hpf }

namespace Sound

/-! ## Changes in place -/

/-- The entries and page directories keep what `Sound` reads of them. -/
theorem congr (h : Sound k) (hr : Reshapes k k') (htbl : k'.frameTblList = k.frameTblList)
    (hpool : k'.userPool = k.userPool) (hfree : k'.freePages.Perm k.freePages)
    (hsptes : ∀ t p, p ∈ k.spt t → (k'.sptes p).map Spte.key = (k.sptes p).map Spte.key)
    (hpte : ∀ t va, (k'.pteOf t va).map (·.frame) = (k.pteOf t va).map (·.frame)) :
    Sound k' where
  tables := h.tables.congr hr.spt htbl hpool hfree (fun _ ht => .inl (hr.status ▸ ht)) hsptes hpte
  mappings := hr.mappings h.mappings
  handles := hr.handles h.handles

/-- The frames' contents, the devices and the history. -/
theorem contents (h : Sound k) (mem : Frame → Page) (swap : Option Swap)
    (inodes : Inode → Option FileData) (hist : List Event) :
    Sound { k with mem := mem, swap := swap, inodes := inodes, hist := hist } :=
  h.congr (.of_sptes rfl rfl rfl rfl rfl rfl rfl rfl rfl) rfl rfl (.refl _) (fun _ _ _ => rfl)
    fun _ _ => rfl

/-- The flags of a present page. -/
theorem setFlags (h : Sound k) {va : Vaddr} {pte pte' : Pte} (hpte : k.pteOf t va = some pte)
    (hframe : pte'.frame = pte.frame) : Sound (k.setPte t va pte') := by
  refine h.congr (.of_sptes rfl rfl rfl rfl rfl rfl rfl rfl rfl) rfl rfl (.refl _)
    (fun _ _ _ => rfl) fun u wa => ?_
  rw [pteOf_setPte]
  split
  next heq =>
    rw [heq.1, heq.2, hpte, Option.map_some, Option.map_some, hframe]
  next => rfl

/-- The pin of an entry. -/
theorem pin (h : Sound k) (he : k.sptes p = some e) (pinned : Bool) :
    Sound (k.setSpte p (some { e with pinned := pinned })) := by
  have hre : e.Reshaped { e with pinned := pinned } :=
    ⟨rfl, rfl, rfl, rfl, rfl, .inl rfl, fun _ => rfl⟩
  refine h.congr ⟨rfl, rfl, rfl, rfl, rfl, rfl, rfl, rfl, fun q _ => Reshapes.rel_update he hre⟩
    rfl rfl (.refl _) (fun u q _ => ?_) fun _ _ => rfl
  show (Function.update k.sptes p _ q).map Spte.key = _
  by_cases hq : q = p
  · subst hq
    rw [Function.update_self, he]
    rfl
  · rw [Function.update_of_ne hq]

/-- A part of the heap that nothing refers to. -/
theorem cell (h : Sound k) (hp : Unused k p) (o : Option Spte) : Sound (k.setSpte p o) := by
  have hkeep : ∀ q, ¬ Unused k q → (k.setSpte p o).sptes q = k.sptes q := by
    intro q hq
    refine Function.update_of_ne ?_ ..
    rintro rfl
    exact hq hp
  refine h.congr ⟨rfl, rfl, rfl, rfl, rfl, rfl, rfl, rfl, fun q hq => ?_⟩ rfl rfl (.refl _)
    (fun u q hq => ?_) fun _ _ => rfl
  · rw [hkeep q hq]
    exact Reshapes.rel_refl _
  · rw [hkeep q fun hun => hun.spt u hq]

/-! ## Frames -/

/-- A page loses its frame. -/
theorem unmap (h : Sound k) (hfte : fte ∈ k.frameTblList) (he : k.sptes fte.spte = some e)
    (hre : e.Reshaped e') (hl : e'.isLoaded = false) (hty : e'.type ≠ .hashError) :
    Sound (unmapPage k fte e') := by
  have hr : Reshapes k (unmapPage k fte e') :=
    ⟨rfl, rfl, rfl, rfl, rfl, rfl, rfl, rfl, fun q _ => Reshapes.rel_update he hre⟩
  exact ⟨h.tables.unmap hfte he hre.address hl hty, hr.mappings h.mappings, hr.handles h.handles⟩

/-- The type of a listed page is never `HASH_ERROR`. -/
theorem type_ne_of_fte (h : Sound k) (hfte : fte ∈ k.frameTblList)
    (he : k.sptes fte.spte = some e) : e.type ≠ .hashError := by
  rcases h.tables.resident fte hfte with ⟨x, _, hx, _⟩
  rcases h.tables.allocated _ _ hx.mem with ⟨y, hy, hty⟩
  rw [he] at hy
  rw [Option.some.inj hy]
  exact hty

/-- Saving a page and taking its frame only changes how its entry looks. -/
theorem evict_reshapes (h : Sound k) (hfte : fte ∈ k.frameTblList)
    (he : k.sptes fte.spte = some e) (hs : savePage k fte e = .ok (e', k')) :
    Reshapes k (unmapPage k' fte { e' with isLoaded := false }) := by
  have hsaved := saved_of_savePage hs
  have hspte := hsaved.spte (h.type_ne_of_fte hfte he)
  rcases hsaved.frame with ⟨swap, inodes, rfl⟩
  exact ⟨rfl, rfl, rfl, rfl, rfl, rfl, rfl, rfl, fun q _ => Reshapes.rel_update he hspte.1⟩

/-- A page is saved and loses its frame. -/
theorem evict (h : Sound k) (hfte : fte ∈ k.frameTblList) (he : k.sptes fte.spte = some e)
    (hs : savePage k fte e = .ok (e', k')) :
    Sound (unmapPage k' fte { e' with isLoaded := false }) := by
  have hsaved := saved_of_savePage hs
  rcases hsaved.frame with ⟨swap, inodes, rfl⟩
  rcases hsaved.spte (h.type_ne_of_fte hfte he) with ⟨hre, hty⟩
  have h' : Sound { k with swap := swap, inodes := inodes } := h.contents k.mem swap inodes k.hist
  exact h'.unmap hfte he hre rfl hty

/-- A page gets a frame. -/
theorem map (h : Sound k) (he : Entry k t p e) (hl : e.isLoaded = false)
    (hf : frame ∈ k.freePages) (hpte : k.pteOf t e.unusedVirtualAddress = none) {used : Bool} :
    Sound (mapPage k t p e frame page used) := by
  rcases h.tables.allocated t p he.mem with ⟨x, hx, hty⟩
  have hxe : x = e := Option.some.inj (hx.symm.trans he.at_ptr)
  subst hxe
  have hre : x.Reshaped { x with isLoaded := true } :=
    ⟨rfl, rfl, rfl, rfl, rfl, .inl rfl, fun herr => absurd herr hty⟩
  have hr : Reshapes k (mapPage k t p x frame page used) :=
    ⟨rfl, rfl, rfl, rfl, rfl, rfl, rfl, rfl, fun q _ => Reshapes.rel_update he.at_ptr hre⟩
  exact ⟨h.tables.map he hl hf hpte, hr.mappings h.mappings, hr.handles h.handles⟩

/-! ## Entries -/

/-- An entry that belongs to no mapping enters a supplemental page table. -/
theorem insert (h : Sound k) (hp : Unused k p) (he : k.sptes p = some e)
    (hl : e.isLoaded = false) (hty : e.type ≠ .mmap) (herr : e.type ≠ .hashError)
    (hnew : hashFind k t e.unusedVirtualAddress = none) (ht : k.status t = .alive)
    (hfile : e.type = .file → k.executable t = some e.file)
    (hsize : e.type = .file → e.readBytes.toNat + e.zeroBytes.toNat = pgSize) :
    Sound (insertEntry k t p e.unusedVirtualAddress page) where
  tables := h.tables.insert hp.spt he hl herr hnew (by rw [ht]; decide)
  mappings := h.mappings.insert hp he hty
  handles := h.handles.insert he hfile fun hor => hsize (hor.resolve_right hty)

/-- A new page of the stack: its entry enters the table before the page gets
its frame. -/
theorem growStack (h : Sound k) (hp : Unused k p) (hty : e.type = .swap) (hf : frame ∈ k.freePages)
    (hpte : k.pteOf t e.unusedVirtualAddress = none)
    (hnew : hashFind k t e.unusedVirtualAddress = none) (ht : k.status t = .alive) :
    Sound (insertEntry (mapPage k t p e frame page false) t p e.unusedVirtualAddress page) := by
  set e₀ : Spte := { e with isLoaded := false } with he₀
  have h₁ : Sound (k.setSpte p (some e₀)) := h.cell hp _
  have hcell : (k.setSpte p (some e₀)).sptes p = some e₀ := Function.update_self ..
  have hnew₁ : hashFind (k.setSpte p (some e₀)) t e₀.unusedVirtualAddress = none := by
    unfold hashFind at hnew ⊢
    rw [List.find?_eq_none] at hnew ⊢
    intro q hq
    have hne : q ≠ p := hp.ne hq
    have hsame : (k.setSpte p (some e₀)).sptes q = k.sptes q := Function.update_of_ne hne ..
    unfold addressOf
    rw [hsame]
    exact hnew q hq
  have h₂ : Sound (insertEntry (k.setSpte p (some e₀)) t p e₀.unusedVirtualAddress page) :=
    h₁.insert ⟨hp.spt, hp.mmap⟩ hcell rfl (by rw [he₀]; simp [hty]) (by rw [he₀]; simp [hty])
      hnew₁ ht (by rw [he₀]; simp [hty]) (by rw [he₀]; simp [hty])
  have hentry : Entry (insertEntry (k.setSpte p (some e₀)) t p e₀.unusedVirtualAddress page) t p e₀ := by
    exact ⟨mem_insertEntry.mpr (.inr ⟨rfl, rfl⟩), hcell⟩
  have h₃ : Sound (mapPage (insertEntry (k.setSpte p (some e₀)) t p e₀.unusedVirtualAddress page)
      t p e₀ frame page false) := h₂.map hentry rfl hf hpte
  -- the two orders lead to the same state
  have hstate : mapPage (insertEntry (k.setSpte p (some e₀)) t p e₀.unusedVirtualAddress page)
      t p e₀ frame page false =
      insertEntry (mapPage k t p e frame page false) t p e.unusedVirtualAddress page := by
    show { (insertEntry (mapPage k t p e frame page false) t p e.unusedVirtualAddress page) with
        sptes := Function.update (Function.update k.sptes p (some e₀)) p
          (some { e₀ with isLoaded := true }) } = _
    rw [Function.update_idem]
    rfl
  rw [← hstate]
  exact h₃

/-- A new page of a mapping. -/
theorem addMmap (h : Sound k) (hp : Unused k p) (he : k.sptes p = some e)
    (hl : e.isLoaded = false) (hty : e.type = .mmap)
    (hnew : hashFind k t e.unusedVirtualAddress = none) (ht : k.status t = .alive)
    (hopen : e.file ∈ k.files) (hrole : ∀ r, Holds k e.file r → r = .mapping t (k.mapid t))
    (hid : 1 ≤ k.mapid t) (hsize : e.readBytes.toNat + e.zeroBytes.toNat = pgSize) :
    Sound (insertEntry (listMapping k t p) t p e.unusedVirtualAddress page) := by
  have hne : e.type ≠ .hashError := by
    rw [hty]
    decide
  have htables : Tables (listMapping k t p) :=
    h.tables.congr rfl rfl rfl (.refl _) (fun _ hu => .inl hu) (fun _ _ _ => rfl) fun _ _ => rfl
  refine ⟨htables.insert hp.spt he hl hne hnew (by show k.status t ≠ _; rw [ht]; decide), ?_, ?_⟩
  · refine h.mappings.list (e := e) hp he hid ht rfl rfl rfl rfl (fun u q => ?_) (.inl hty)
    show q ∈ Function.update k.spt t (k.spt t ++ [p]) u ↔ _
    by_cases hu : u = t
    · subst hu
      simp [hty]
    · simp [hu]
  · refine (h.handles.list he hopen hrole).insert he (fun hfile => ?_) fun _ => hsize
    rw [hty] at hfile
    cases hfile

/-- A page of a mapping that overlaps another page is only listed. -/
theorem addHashError (h : Sound k) (hp : Unused k p) (he : k.sptes p = some e)
    (hl : e.isLoaded = false) (hty : e.type = .hashError) (ht : k.status t = .alive)
    (hopen : e.file ∈ k.files) (hrole : ∀ r, Holds k e.file r → r = .mapping t (k.mapid t))
    (hid : 1 ≤ k.mapid t) : Sound (listMapping k t p) where
  tables := h.tables.congr rfl rfl rfl (.refl _) (fun _ hu => .inl hu) (fun _ _ _ => rfl) fun _ _ => rfl
  mappings := h.mappings.list (e := e) hp he hid ht rfl rfl rfl rfl
    (fun u q => by simp [listMapping, Kernel.setMmapList, hty]) (.inr ⟨hty, hl⟩)
  handles := h.handles.list he hopen hrole

/-- An entry is removed from its lists and freed. -/
theorem remove (h : Sound k) (hr : Removes k p k') (he : k.sptes p = some e)
    (hl : e.isLoaded = false) : Sound k' where
  tables := hr.tables h.tables he hl
  mappings := hr.mappings h.mappings
  handles := hr.handles h.handles

end Sound

/-! ## The removal of entries -/

theorem eraseP_eq_erase {α : Type} [DecidableEq α] {P : α → Bool} {a : α} {l : List α}
    (h : ∀ x ∈ l, P x = true ↔ x = a) : l.eraseP P = l.erase a := by
  induction l with
  | nil => rfl
  | cons x l ih =>
      have hx := h x List.mem_cons_self
      have hrest := ih fun y hy => h y (List.mem_cons_of_mem x hy)
      rw [List.eraseP_cons, List.erase_cons, hrest]
      by_cases hxa : x = a
      · rw [hx.mpr hxa]
        simp [hxa]
      · have hP : P x = false := by
          rw [← Bool.not_eq_true]
          exact fun ht => hxa (hx.mp ht)
        rw [hP]
        simp [hxa]

/-- `hash_delete` takes out exactly the entry it was called for. -/
theorem hashDelete_eq (h : Tables k) (he : Entry k t p e) :
    hashDelete k t e.unusedVirtualAddress = k.setSpt t ((k.spt t).erase p) := by
  unfold hashDelete
  rw [eraseP_eq_erase (a := p)]
  intro q hq
  rcases h.exists_entry hq with ⟨x, hx⟩
  rw [decide_eq_true_iff]
  unfold addressOf
  rw [hx.at_ptr]
  constructor
  · intro haddr
    exact h.addressUnique t q p x e hx he (Option.some.inj haddr)
  · rintro rfl
    rw [hx.eq_of_at he.at_ptr]
    rfl

theorem Mappings.mem_erase (h : Mappings k) {mm : MmapFile} (hmm : mm ∈ k.mmapList t)
    (mm' : MmapFile) :
    mm' ∈ (k.mmapList t).erase mm ↔ mm' ∈ k.mmapList t ∧ mm'.spte ≠ mm.spte := by
  have hnd : (k.mmapList t).Nodup := List.Nodup.of_map _ (h.nodup t)
  rw [hnd.mem_erase_iff]
  constructor
  · rintro ⟨hne, hmem⟩
    exact ⟨hmem, fun heq => hne (List.inj_on_of_nodup_map (h.nodup t) hmem hmm heq)⟩
  · rintro ⟨hmem, hne⟩
    exact ⟨fun heq => hne (by rw [heq]), hmem⟩

theorem Sound.removes_forgetMapping (h : Sound k) {mm : MmapFile} (hmm : mm ∈ k.mmapList t)
    (he : k.sptes mm.spte = some e) : Removes k mm.spte (forgetMapping k t mm e) := by
  -- the entry leaves the table it is in, if it is in one
  have hspt : ∃ spt : Tid → List Ptr, forgetMapping k t mm e =
      { k with
        spt := spt
        mmapList := Function.update k.mmapList t ((k.mmapList t).erase mm)
        sptes := Function.update k.sptes mm.spte none } ∧
      (∀ u q, q ∈ spt u ↔ q ∈ k.spt u ∧ q ≠ mm.spte) ∧ ∀ u, (spt u).Nodup := by
    rcases h.mappings.entry t mm hmm with ⟨x, hx, hcase⟩
    have hxe : x = e := Option.some.inj (hx.symm.trans he)
    subst hxe
    rcases hcase with ⟨hty, hmem⟩ | ⟨hty, _, hno⟩
    · refine ⟨Function.update k.spt t ((k.spt t).erase mm.spte), ?_, ?_, ?_⟩
      · unfold forgetMapping
        rw [if_pos (by rw [hty]; decide), hashDelete_eq h.tables ⟨hmem, hx⟩]
        rfl
      · intro u q
        by_cases hu : u = t
        · subst hu
          rw [Function.update_self, (h.tables.sptNodup u).mem_erase_iff]
          exact and_comm
        · rw [Function.update_of_ne hu]
          constructor
          · intro hq
            exact ⟨hq, fun heq => hu (h.tables.apart u t q hq (heq ▸ hmem))⟩
          · exact fun hq => hq.1
      · intro u
        by_cases hu : u = t
        · subst hu
          rw [Function.update_self]
          exact (h.tables.sptNodup u).erase _
        · rw [Function.update_of_ne hu]
          exact h.tables.sptNodup u
    · refine ⟨k.spt, ?_, ?_, h.tables.sptNodup⟩
      · unfold forgetMapping
        rw [if_neg (by simp [hty])]
        rfl
      · intro u q
        exact ⟨fun hq => ⟨hq, fun heq => hno u (heq ▸ hq)⟩, fun hq => hq.1⟩
  rcases hspt with ⟨spt, hk', hmem, hnodup⟩
  rw [hk']
  refine ⟨hmem, hnodup, ?_, ?_, fun q hq => Function.update_of_ne hq .., rfl⟩
  · intro u mm'
    show mm' ∈ Function.update k.mmapList t ((k.mmapList t).erase mm) u ↔ _
    by_cases hu : u = t
    · subst hu
      rw [Function.update_self]
      exact h.mappings.mem_erase hmm mm'
    · rw [Function.update_of_ne hu]
      constructor
      · intro hmem'
        exact ⟨hmem', fun heq => hu (h.mappings.apart u t mm' hmem' mm hmm heq)⟩
      · exact fun hmem' => hmem'.1
  · intro u
    show (Function.update k.mmapList t ((k.mmapList t).erase mm) u).Sublist _
    by_cases hu : u = t
    · subst hu
      rw [Function.update_self]
      exact List.erase_sublist
    · rw [Function.update_of_ne hu]

theorem Sound.removes_destroy (h : Sound k) {rest : List Ptr} (hspt : k.spt t = p :: rest)
    (hm : k.mmapList t = []) : Removes k p ((k.setSpt t rest).setSpte p none) := by
  have hp : p ∈ k.spt t := by
    rw [hspt]
    exact List.mem_cons_self
  have hnodup : (p :: rest).Nodup := hspt ▸ h.tables.sptNodup t
  refine ⟨?_, ?_, ?_, fun _ => .refl _, fun q hq => Function.update_of_ne hq .., rfl⟩
  · intro u q
    show q ∈ Function.update k.spt t rest u ↔ _
    by_cases hu : u = t
    · subst hu
      rw [Function.update_self, hspt, List.mem_cons]
      constructor
      · intro hq
        exact ⟨.inr hq, fun heq => (List.nodup_cons.mp hnodup).1 (heq ▸ hq)⟩
      · rintro ⟨hq | hq, hne⟩
        · exact absurd hq hne
        · exact hq
    · rw [Function.update_of_ne hu]
      constructor
      · intro hq
        exact ⟨hq, fun heq => hu (h.tables.apart u t p (heq ▸ hq) hp)⟩
      · exact fun hq => hq.1
  · intro u
    show (Function.update k.spt t rest u).Nodup
    by_cases hu : u = t
    · subst hu
      rw [Function.update_self]
      exact (List.nodup_cons.mp hnodup).2
    · rw [Function.update_of_ne hu]
      exact h.tables.sptNodup u
  · -- no mapping is left that could list the entry
    intro u mm
    refine ⟨fun hmm => ⟨hmm, fun heq => ?_⟩, fun hmm => hmm.1⟩
    have hmm' : mm ∈ k.mmapList u := hmm
    rcases h.mappings.entry u mm hmm' with ⟨x, _, ⟨_, hmem⟩ | ⟨_, _, hno⟩⟩
    · have hu : u = t := h.tables.apart u t p (heq ▸ hmem) hp
      rw [hu, hm] at hmm'
      cases hmm'
    · exact hno t (heq ▸ hp)

/-! ## One change -/

/-- Changes that only concern files and descriptors. -/
theorem Sound.ofHandles (h : Sound k) (hh : Handles k')
    (hrest : k' = { k with mapid := k'.mapid, fileList := k'.fileList, fd := k'.fd,
                           executable := k'.executable, files := k'.files })
    (hmapid : ∀ t, k.mapid t ≤ k'.mapid t) : Sound k' where
  tables := by
    rw [hrest]
    exact h.tables.congr rfl rfl rfl (.refl _) (fun _ ht => .inl ht) (fun _ _ _ => rfl) fun _ _ => rfl
  mappings := by
    refine h.mappings.congr ?_ ?_ ?_ ?_ hmapid <;> rw [hrest]
    exact fun _ ht => .inl ht
  handles := hh

theorem Sound.change (h : Sound k) (hc : Change R k k') : Sound k' := by
  cases hc with
  | access accessed hpte => exact h.setFlags hpte rfl
  | pin pinned he => exact h.pin he pinned
  | cell o hp => exact h.cell hp o
  | @free l m hl hm =>
      exact (h.contents m k.swap k.inodes k.hist).congr
        (.of_sptes rfl rfl rfl rfl rfl rfl rfl rfl rfl) rfl rfl hl (fun _ _ _ => rfl) fun _ _ => rfl
  | evict hfte he hx hs => exact h.evict hfte he hs
  | @discard fte e hfte he hx hm =>
      have hty := h.type_ne_of_fte hfte he
      exact h.unmap hfte he ⟨rfl, rfl, rfl, rfl, rfl, .inl rfl, fun herr => absurd herr hty⟩ rfl hty
  | readIn he hl hty hf hpte => exact h.map he hl hf hpte
  | @swapIn t p e frame s he hl hty hf hpte ht hs hidx =>
      have h' : Sound (releaseSlot k s e.swapIndex) := h.contents k.mem _ k.inodes k.hist
      exact h'.map ⟨he.mem, he.at_ptr⟩ hl hf hpte
  | swapInNothing page he hl hty hf hpte ht hs => exact h.map he hl hf hpte
  | growStack page hp he hl hty hf hpte hnew ht => exact h.growStack hp hty hf hpte hnew ht
  | addFile hp he hl hty hnew ht hexe hsize =>
      exact h.insert hp he hl (by simp [hty]) (by simp [hty]) hnew ht (fun _ => hexe) fun _ => hsize
  | addMmap hp he hl hty hnew ht hopen hrole hid hsize =>
      exact h.addMmap hp he hl hty hnew ht hopen hrole hid hsize
  | addHashError hp he hl hty ht hopen hrole hid =>
      exact h.addHashError hp he hl hty ht hopen hrole hid
  | removeMapping hmm he hl => exact h.remove (h.removes_forgetMapping hmm he) he hl
  | destroy hx hspt he hl hm => exact h.remove (h.removes_destroy hspt hm) he hl
  | openFile i hf => exact h.ofHandles (h.handles.openFile hf) rfl fun _ => Int.le_refl _
  | closeFile hf => exact h.ofHandles (h.handles.closeFile hf) rfl fun _ => Int.le_refl _
  | addDescriptor ht hopen hf =>
      exact h.ofHandles (h.handles.addDescriptor ht hopen hf) rfl fun _ => Int.le_refl _
  | removeDescriptor hpf =>
      exact h.ofHandles (h.handles.removeDescriptor hpf) rfl fun _ => Int.le_refl _
  | newMapid t =>
      refine h.ofHandles (h.handles.congr (fun _ ht => ht) (fun _ ht => .inl ht) rfl) rfl fun u => ?_
      show k.mapid u ≤ Function.update k.mapid t (k.mapid t + 1) u
      by_cases hu : u = t
      · subst hu
        rw [Function.update_self]
        omega
      · have hsame : Function.update k.mapid t (k.mapid t + 1) u = k.mapid u :=
          Function.update_of_ne hu ..
        omega

/-- A sequence of changes keeps the structures consistent. -/
theorem Sound.changes (h : Sound k) (hc : Changes R k k') : Sound k' :=
  hc.invariant (fun _ _ hc h => h.change hc) h

/-! ## The other transitions -/

theorem setStatus_status {s : ProcessStatus} : (k.setStatus t s).status u =
    if u = t then s else k.status u := Function.update_apply ..

/-- A process that runs is killed, or one that has been killed enters
`process_exit`. -/
theorem Sound.setStatus (h : Sound k) {s : ProcessStatus} (ht : k.Live t) (hs : s ≠ .absent) :
    Sound (k.setStatus t s) := by
  have habs : ∀ u, (k.setStatus t s).status u = .absent → k.status u = .absent := by
    intro u hu
    rw [setStatus_status] at hu
    by_cases hut : u = t
    · rw [if_pos hut] at hu
      exact absurd hu hs
    · rwa [if_neg hut] at hu
  have hlive : ∀ u, (k.setStatus t s).Live u → k.Live u := by
    intro u hu
    unfold Kernel.Live at hu
    rw [setStatus_status] at hu
    by_cases hut : u = t
    · rw [hut]
      exact ht
    · rwa [if_neg hut] at hu
  exact
    { tables := h.tables.congr rfl rfl rfl (.refl _) (fun u hu => .inl (habs u hu))
        (fun _ _ _ => rfl) fun _ _ => rfl
      mappings := h.mappings.congr (fun u hu => .inl (habs u hu)) rfl rfl rfl fun _ => Int.le_refl _
      handles := h.handles.congr hlive (fun u hu => .inl (habs u hu)) rfl }

/-- Without entries no page of the process is present. -/
theorem Tables.pagedir_empty (h : Tables k) (hspt : k.spt t = []) : k.pagedir t = ∅ := by
  refine AList.ext (List.eq_nil_iff_forall_not_mem.mpr ?_)
  rintro ⟨va, pte⟩ hmem
  have hpte : k.pteOf t va = some pte := AList.mem_lookup_iff.mpr hmem
  rcases h.mapped t va pte hpte with ⟨p, e, he, _⟩
  have hp := he.mem
  rw [hspt] at hp
  cases hp

/-- The end of `process_exit`: nothing is left of the process. -/
theorem Sound.leave (h : Sound k) (hspt : k.spt t = []) (hmmap : k.mmapList t = [])
    (hfiles : k.fileList t = []) : Sound ((pagedirDestroy k t).setStatus t .absent) := by
  -- no page is left in the table, so none is mapped and none is freed with it
  have hempty := h.tables.pagedir_empty hspt
  have hpte : ∀ u va, ((pagedirDestroy k t).setStatus t .absent).pteOf u va = k.pteOf u va := by
    intro u va
    show AList.lookup va (Function.update k.pagedir t ∅ u) = AList.lookup va (k.pagedir u)
    by_cases hu : u = t
    · subst hu
      rw [Function.update_self, hempty]
    · rw [Function.update_of_ne hu]
  have hfree : ((pagedirDestroy k t).setStatus t .absent).freePages = k.freePages := by
    show (k.pagedir t).entries.map (·.2.frame) ++ k.freePages = k.freePages
    rw [hempty]
    rfl
  have hstatus : ∀ u, ((pagedirDestroy k t).setStatus t .absent).status u =
      if u = t then .absent else k.status u := fun u => Function.update_apply ..
  have hlive : ∀ u, ((pagedirDestroy k t).setStatus t .absent).Live u → k.Live u := by
    intro u hu
    unfold Kernel.Live at hu
    rw [hstatus] at hu
    by_cases hut : u = t
    · rw [if_pos hut] at hu
      simp at hu
    · rwa [if_neg hut] at hu
  have habs : ∀ u, ((pagedirDestroy k t).setStatus t .absent).status u = .absent →
      k.status u = .absent ∨ u = t := by
    intro u hu
    rw [hstatus] at hu
    by_cases hut : u = t
    · exact .inr hut
    · rw [if_neg hut] at hu
      exact .inl hu
  exact
    { tables := h.tables.congr rfl rfl rfl (by rw [hfree])
        (fun u hu => (habs u hu).imp_right (by rintro rfl; exact hspt)) (fun _ _ _ => rfl)
        fun u va => by rw [hpte]
      mappings := h.mappings.congr (fun u hu => (habs u hu).imp_right (by rintro rfl; exact hmmap))
        rfl rfl rfl fun _ => Int.le_refl _
      handles := h.handles.congr hlive
        (fun u hu => (habs u hu).imp_right (by rintro rfl; exact hfiles)) rfl }

/-- The first part of `load`: the thread has its fields and its executable. -/
def startProcess (k : Kernel) (t : Tid) (file : FilePtr) (exe : Inode) : Kernel :=
  { initThread k t with
    files := k.files.insert file { inode := exe, denyWrite := true }
    executable := Function.update k.executable t (some file) }

/-- A new thread starts without entries, mappings and files. -/
theorem Sound.bare (h : Sound k) (ht : k.status t = .absent) :
    k.spt t = [] ∧ k.mmapList t = [] ∧ k.fileList t = [] := by
  refine ⟨?_, ?_, ?_⟩ <;> rw [List.eq_nil_iff_forall_not_mem]
  · exact fun p hp => h.tables.living t p hp ht
  · exact fun mm hmm => h.mappings.living t mm hmm ht
  · exact fun pf hpf => h.handles.living t pf hpf ht

section Start

variable {file g : FilePtr} {exe : Inode} {r : Role}

theorem Sound.start_mmapList (h : Sound k) (ht : k.status t = .absent) :
    (startProcess k t file exe).mmapList = k.mmapList := by
  show Function.update k.mmapList t [] = k.mmapList
  rw [← (h.bare ht).2.1, Function.update_eq_self]

theorem Sound.start_fileList (h : Sound k) (ht : k.status t = .absent) :
    (startProcess k t file exe).fileList = k.fileList := by
  show Function.update k.fileList t [] = k.fileList
  rw [← (h.bare ht).2.2, Function.update_eq_self]

theorem start_status :
    (startProcess k t file exe).status u = if u = t then .alive else k.status u :=
  Function.update_apply ..

theorem start_executable :
    (startProcess k t file exe).executable u = if u = t then some file else k.executable u :=
  Function.update_apply ..

theorem start_lookup (hg : g ≠ file) :
    (startProcess k t file exe).files.lookup g = k.files.lookup g :=
  AList.lookup_insert_ne hg

theorem absent_of_start (ht : k.status t = .absent)
    (hu : (startProcess k t file exe).status u = .absent) : k.status u = .absent := by
  rw [start_status] at hu
  by_cases hut : u = t
  · rw [hut]
    exact ht
  · rwa [if_neg hut] at hu

theorem live_of_start (hu : (startProcess k t file exe).Live u) : u = t ∨ u ≠ t ∧ k.Live u := by
  unfold Kernel.Live at hu
  rw [start_status] at hu
  by_cases hut : u = t
  · exact .inl hut
  · rw [if_neg hut] at hu
    exact .inr ⟨hut, hu⟩

/-- The only new use of a file is that of the executable. -/
theorem Sound.holds_of_start (h : Sound k) (ht : k.status t = .absent)
    (hr : Holds (startProcess k t file exe) g r) : Holds k g r ∨ g = file ∧ r = .executable t := by
  cases r with
  | executable u =>
      rcases hr with ⟨hu, heq⟩
      rw [start_executable] at heq
      rcases live_of_start hu with rfl | ⟨hne, hu'⟩
      · rw [if_pos rfl] at heq
        exact .inr ⟨(Option.some.inj heq).symm, rfl⟩
      · rw [if_neg hne] at heq
        exact .inl ⟨hu', heq⟩
  | descriptor u fd =>
      unfold Holds at hr ⊢
      rw [h.start_fileList ht] at hr
      exact .inl hr
  | mapping u m =>
      unfold Holds at hr ⊢
      rw [h.start_mmapList ht] at hr
      exact .inl hr

theorem Sound.start_mappings (h : Sound k) (ht : k.status t = .absent) :
    Mappings (startProcess k t file exe) := by
  have hm := h.mappings
  have hmmap : (startProcess k t file exe).mmapList = k.mmapList := h.start_mmapList ht
  constructor
  case entry => exact fun u mm hmm => hm.entry u mm (hmmap ▸ hmm)
  case covered =>
    intro u q x hx hty
    rw [hmmap]
    exact hm.covered u q x ⟨hx.mem, hx.at_ptr⟩ hty
  case nodup => exact hmmap ▸ hm.nodup
  case apart => exact hmmap ▸ hm.apart
  case sorted => exact hmmap ▸ hm.sorted
  case bounded =>
    intro u mm hmm
    rw [hmmap] at hmm
    have hut : u ≠ t := by
      rintro rfl
      rw [(h.bare ht).2.1] at hmm
      cases hmm
    show 1 ≤ mm.mapid ∧ mm.mapid ≤ Function.update k.mapid t 0 u
    rw [Function.update_of_ne hut]
    exact hm.bounded u mm hmm
  case mapidNonneg =>
    intro u
    show 0 ≤ Function.update k.mapid t 0 u
    by_cases hut : u = t
    · have hzero : Function.update k.mapid t 0 u = 0 := by
        rw [hut]
        exact Function.update_self ..
      omega
    · rw [Function.update_of_ne hut]
      exact hm.mapidNonneg u
  case living => exact fun u mm hmm hu => hm.living u mm (hmmap ▸ hmm) (absent_of_start ht hu)

theorem Sound.start_handles (h : Sound k) (ht : k.status t = .absent) (hfile : file ∉ k.files) :
    Handles (startProcess k t file exe) := by
  have hh := h.handles
  have hlist : (startProcess k t file exe).fileList = k.fileList := h.start_fileList ht
  have hunused : ∀ r, ¬ Holds k file r := fun r hr => hfile (hh.opened file r hr)
  constructor
  case executable =>
    intro u hu
    rcases live_of_start hu with rfl | ⟨hne, hu'⟩
    · exact ⟨file, _, by rw [start_executable, if_pos rfl], AList.lookup_insert _, rfl⟩
    · rcases hh.executable u hu' with ⟨g, o, hg, ho, hdeny⟩
      refine ⟨g, o, by rw [start_executable, if_neg hne]; exact hg, ?_, hdeny⟩
      rw [start_lookup]
      · exact ho
      · rintro rfl
        exact hunused (.executable u) ⟨hu', hg⟩
  case filePages =>
    intro u q x hu hx hty
    have hx' : Entry k u q x := ⟨hx.mem, hx.at_ptr⟩
    rcases live_of_start hu with rfl | ⟨hne, hu'⟩
    · have hq := hx'.mem
      rw [(h.bare ht).1] at hq
      cases hq
    · rw [start_executable, if_neg hne]
      exact hh.filePages u q x hu' hx' hty
  case sizes => exact fun u q x hx => hh.sizes u q x ⟨hx.mem, hx.at_ptr⟩
  case opened =>
    intro g r hr
    rcases h.holds_of_start ht hr with hold | ⟨rfl, _⟩
    · exact (AList.mem_insert _).mpr (.inr (hh.opened g r hold))
    · exact (AList.mem_insert _).mpr (.inl rfl)
  case unique =>
    intro g r r' hr hr'
    rcases h.holds_of_start ht hr with hold | ⟨rfl, rfl⟩
    · rcases h.holds_of_start ht hr' with hold' | ⟨rfl, _⟩
      · exact hh.unique g r r' hold hold'
      · exact absurd hold (hunused r)
    · rcases h.holds_of_start ht hr' with hold' | ⟨_, rfl⟩
      · exact absurd hold' (hunused r')
      · rfl
  case fdSorted => exact hlist ▸ hh.fdSorted
  case fdBounded =>
    intro u pf hpf
    rw [hlist] at hpf
    have hut : u ≠ t := by
      rintro rfl
      rw [(h.bare ht).2.2] at hpf
      cases hpf
    show pf.fd < Function.update k.fd t 2 u
    rw [Function.update_of_ne hut]
    exact hh.fdBounded u pf hpf
  case living => exact fun u pf hpf hu => hh.living u pf (hlist ▸ hpf) (absent_of_start ht hu)

end Start

theorem Sound.start (h : Sound k) {file : FilePtr} {exe : Inode} (ht : k.status t = .absent)
    (hfile : file ∉ k.files) : Sound (startProcess k t file exe) where
  tables := h.tables.congr rfl rfl rfl (.refl _) (fun _ hu => .inl (absent_of_start ht hu))
    (fun _ _ _ => rfl) fun _ _ => rfl
  mappings := h.start_mappings ht
  handles := h.start_handles ht hfile

/-- What a store does. -/
theorem userStore_ok {va : Vaddr} {byte : UInt8} (hs : userStore k t va byte = .ok k') :
    ∃ pte, k.pteOf t (pgRoundDown va) = some pte ∧ pte.writable = true ∧
      k' = ((k.setMem pte.frame (Function.update (k.mem pte.frame) (pgOfs va) byte)).setPte t
        (pgRoundDown va) { pte with accessed := true, dirty := true }).log (.store t va byte) := by
  unfold userStore at hs
  rcases Lts.bind_eq_ok.mp hs with ⟨pte, hd, hrest⟩
  split at hrest
  next hw =>
    cases hrest
    exact ⟨pte, deref_ok hd, hw, rfl⟩
  next => cases hrest

/-- A store through a present page. -/
theorem Sound.store (h : Sound k) {va : Vaddr} {byte : UInt8} (hs : userStore k t va byte = .ok k') :
    Sound k' := by
  rcases userStore_ok hs with ⟨pte, hpte, _, rfl⟩
  have h₁ := h.contents (Function.update k.mem pte.frame
    (Function.update (k.mem pte.frame) (pgOfs va) byte)) k.swap k.inodes
    (.store t va byte :: k.hist)
  exact h₁.setFlags hpte rfl

/-- A write to a file. -/
theorem Sound.inodeWriteAt (h : Sound k) {i : Inode} {data : ℕ → UInt8} {size ofs : ℕ} :
    Sound (inodeWriteAt k i data size ofs) := by
  unfold Vm.inodeWriteAt
  split
  next => exact h
  next => exact h.contents k.mem k.swap _ k.hist

end Pintos.Vm
