import Mathlib.Data.List.Induction
import Pintos.Lib.Grouped
import Pintos.Vm.AddressSpace
import Pintos.Vm.Backing

/-! # `process_remove_mmap`

What the loop of `process_remove_mmap` does is a walk over the elements of the
list that are removed, grouped by their mapping: the page of each of them is
unloaded and its entry taken out, and the file of a mapping is closed behind its
last page. From this follows the state at every moment of the walk.
-/

namespace Pintos.Vm

open Grouped

variable {k k' s s' : Kernel} {t : Tid} {p : Ptr} {e : Spte} {mm : MmapFile}
  {mapping close : ℤ} {o : Option FilePtr} {f : FilePtr} {va : Vaddr} {pte : Pte}

/-! ## The walk -/

instance (mapping : ℤ) (mm : MmapFile) : Decidable (Removed mapping mm) :=
  inferInstanceAs (Decidable (mm.mapid = mapping ∨ mapping = closeAll))

/-- The elements of the list that are removed. -/
def removed (k : Kernel) (t : Tid) (mapping : ℤ) : List MmapFile :=
  (k.mmapList t).filter fun mm => Removed mapping mm

/-- The file of the entry of an element. -/
def fileOf (k : Kernel) (mm : MmapFile) : FilePtr := (k.sptes mm.spte).elim 0 (·.file)

/-- `visit mm` is the first part of a round, up to `list_remove (&mm->elem)`, then
the file of the mapping before may be closed, and `finish mm` is the end of the
round, `free (mm->spte)`. -/
abbrev Removal := Grouped.Event MmapFile FilePtr

/-- What process `t` does in such a part. -/
def performRemoval (t : Tid) (k : Kernel) : Removal → Except String Kernel
  | .visit mm => do
      let e ← deref (k.sptes mm.spte)
      let k := k.setSpte mm.spte (some { e with pinned := true })
      let k ← if e.isLoaded then unloadMmap k t e else pure k
      let k := if e.type ≠ .hashError then hashDelete k t e.unusedVirtualAddress else k
      return k.setMmapList t ((k.mmapList t).erase mm)
  | .release f => fileClose k f
  | .finish mm => .ok (k.setSpte mm.spte none)

/-- Everything `process_remove_mmap` does, in its order. -/
def removals (k : Kernel) (t : Tid) (mapping : ℤ) : List Removal :=
  walk (·.mapid) (fileOf k) (removed k t mapping) none

/-- One round of the loop. -/
theorem removeMmapLoop_round {rest : List MmapFile} (hrem : Removed mapping mm) :
    removeMmapLoop t mapping (mm :: rest) o close k = (do
      let e ← deref (k.sptes mm.spte)
      let k ← performRemoval t k (.visit mm)
      if mm.mapid ≠ close then do
        let k ← closePending k o
        removeMmapLoop t mapping rest (some e.file) mm.mapid (k.setSpte mm.spte none)
      else
        removeMmapLoop t mapping rest o close (k.setSpte mm.spte none)) := by
  conv_lhs => unfold removeMmapLoop
  unfold performRemoval
  rw [if_pos (by exact hrem)]
  cases he : k.sptes mm.spte with
  | none => rfl
  | some e =>
      dsimp only [deref, bind, Except.bind]
      rw [he]
      dsimp only
      by_cases hl : e.isLoaded = true
      · rw [if_pos hl, if_pos hl]
        cases unloadMmap (k.setSpte mm.spte (some { e with pinned := true })) t e <;> rfl
      · rw [if_neg hl, if_neg hl]
        rfl

theorem unloadMmap_sptes (hun : unloadMmap k t e = .ok k') : k'.sptes = k.sptes := by
  unfold unloadMmap at hun
  dsimp only at hun
  split at hun
  next =>
    cases hun
    exact freeFrame_fields.1
  next pte hpte =>
    split at hun
    next =>
      obtain ⟨k₁, hwrite, hret⟩ := Lts.bind_eq_ok.mp hun
      obtain ⟨o, -, hk₁⟩ := Lts.bind_eq_ok.mp hwrite
      cases hk₁
      cases hret
      exact freeFrame_fields.1.trans inodeWriteAt_fields.1
    next =>
      cases hun
      exact freeFrame_fields.1

/-- The first part of a round leaves the other entries as they are. -/
theorem sptes_of_visit (hvisit : performRemoval t k (.visit mm) = .ok k') (hp : p ≠ mm.spte) :
    k'.sptes p = k.sptes p := by
  obtain ⟨e, -, hbody⟩ := Lts.bind_eq_ok.mp hvisit
  dsimp only at hbody
  have hunloaded : ∃ k₁ : Kernel,
      k₁.sptes = (k.setSpte mm.spte (some { e with pinned := true })).sptes ∧
      k'.sptes = k₁.sptes := by
    split at hbody
    next =>
      obtain ⟨k₁, hun, hret⟩ := Lts.bind_eq_ok.mp hbody
      cases hret
      refine ⟨k₁, unloadMmap_sptes hun, ?_⟩
      split <;> rfl
    next =>
      cases hbody
      refine ⟨_, rfl, ?_⟩
      split <;> rfl
  obtain ⟨k₁, hsptes, hk'⟩ := hunloaded
  rw [hk', hsptes]
  exact Function.update_of_ne hp ..

theorem foldlM_releasing : (releasing (o.map fun f => (close, f))).foldlM (performRemoval t) k =
    closePending k o := by
  cases o with
  | none => rfl
  | some f =>
      show (fileClose k f >>= fun k => .ok k) = fileClose k f
      cases fileClose k f <;> rfl

/-- A round that fails in its first part ends the walk. -/
theorem foldlM_walk_error {l : List MmapFile} {pending : Option (ℤ × FilePtr)} {err : String}
    (herr : performRemoval t s (.visit mm) = .error err) :
    (walk (·.mapid) (fileOf k) (mm :: l) pending).foldlM (performRemoval t) s = .error err := by
  obtain ⟨es, hes⟩ : ∃ es, walk (·.mapid) (fileOf k) (mm :: l) pending = .visit mm :: es :=
    walk_cons
  rw [hes, List.foldlM_cons, herr]
  rfl

theorem closePending_sptes (h : closePending k o = .ok k') : k'.sptes = k.sptes := by
  cases o with
  | none =>
      cases h
      rfl
  | some f => rw [fileClose_ok h]

/-- The loop is the walk, from any element of the list on: the mapping whose file is
still to be closed is the group that is pending. `close` starts as 0, which is the
number of no mapping. -/
theorem removeMmapLoop_eq {rest : List MmapFile}
    (hsptes : ∀ mm ∈ rest, s.sptes mm.spte = k.sptes mm.spte)
    (hnodup : (rest.map (·.spte)).Nodup) (hpos : ∀ mm ∈ rest, 1 ≤ mm.mapid)
    (hclose : o = none → close = 0) :
    removeMmapLoop t mapping rest o close s =
      (walk (·.mapid) (fileOf k) (rest.filter fun mm => Removed mapping mm)
        (o.map fun f => (close, f))).foldlM (performRemoval t) s := by
  induction rest generalizing o close s with
  | nil => exact foldlM_releasing.symm
  | cons mm rest ih =>
      rw [List.map_cons, List.nodup_cons] at hnodup
      have hpos' : ∀ m ∈ rest, 1 ≤ m.mapid := fun m hm => hpos m (List.mem_cons_of_mem mm hm)
      by_cases hrem : Removed mapping mm
      · rw [removeMmapLoop_round hrem, List.filter_cons_of_pos (by simpa using hrem)]
        cases he : s.sptes mm.spte with
        | none =>
            have hvisit : performRemoval t s (.visit mm) = .error kernelBug := by
              show (deref (s.sptes mm.spte) >>= _) = _
              rw [he]
              rfl
            rw [foldlM_walk_error hvisit]
            rfl
        | some e =>
            have hfile : fileOf k mm = e.file := by
              unfold fileOf
              rw [← hsptes mm List.mem_cons_self, he]
              rfl
            cases hvisit : performRemoval t s (.visit mm) with
            | error err =>
                rw [foldlM_walk_error hvisit]
                rfl
            | ok s₁ =>
                -- the entries of the elements to come are still the same
                have hrest : ∀ s₂ : Kernel, s₂.sptes = s₁.sptes → ∀ m ∈ rest,
                    (s₂.setSpte mm.spte none).sptes m.spte = k.sptes m.spte := by
                  intro s₂ hs₂ m hm
                  have hne : m.spte ≠ mm.spte := by
                    intro heq
                    exact hnodup.1 (heq ▸ List.mem_map_of_mem hm)
                  rw [← hsptes m (List.mem_cons_of_mem mm hm), ← sptes_of_visit hvisit hne, ← hs₂]
                  exact Function.update_of_ne hne ..
                by_cases hid : mm.mapid = close
                · -- another page of the same mapping
                  obtain ⟨f, rfl⟩ : ∃ f, o = some f := by
                    apply Option.ne_none_iff_exists'.mp
                    intro hnone
                    have hzero := hclose hnone
                    have hone := hpos mm List.mem_cons_self
                    omega
                  have hgroup : ((some f).map fun f => (close, f)).map Prod.fst = some mm.mapid :=
                    congrArg some hid.symm
                  rw [walk_same hgroup, List.foldlM_cons, hvisit]
                  show (if mm.mapid ≠ close then _ else _ : Except String Kernel) = _
                  rw [if_neg (not_not.mpr hid)]
                  exact ih (hrest s₁ rfl) hnodup.2 hpos' hclose
                · -- the first page of its mapping
                  have hgroup : (o.map fun f => (close, f)).map Prod.fst ≠ some mm.mapid := by
                    cases o with
                    | none => exact fun h => by cases h
                    | some f => exact fun h => hid (Option.some.inj h).symm
                  rw [walk_next hgroup, List.foldlM_cons, hvisit]
                  show (if mm.mapid ≠ close then _ else _ : Except String Kernel) =
                    List.foldlM (performRemoval t) s₁ _
                  rw [if_pos hid, List.foldlM_append, foldlM_releasing, hfile]
                  cases hpending : closePending s₁ o with
                  | error err => rfl
                  | ok s₂ =>
                      exact ih (o := some e.file) (hrest s₂ (closePending_sptes hpending)) hnodup.2
                        hpos' fun hnone => by cases hnone
      · rw [List.filter_cons_of_neg (by simpa using hrem)]
        rw [removeMmapLoop_skip hrem]
        exact ih (fun m hm => hsptes m (List.mem_cons_of_mem mm hm)) hnodup.2 hpos' hclose

theorem removeMmap_eq (h : Sound k) : removeMmapLoop t mapping (k.mmapList t) none 0 k =
    (removals k t mapping).foldlM (performRemoval t) k :=
  removeMmapLoop_eq (o := none) (fun _ _ => rfl) (h.mappings.nodup t)
    (fun mm hmm => (h.mappings.bounded t mm hmm).1) fun _ => rfl

/-! ## The state on the way -/

/-- The page at `va` is resident and belongs to the entry of the element. -/
def Resident (k : Kernel) (mm : MmapFile) (va : Vaddr) : Prop :=
  ∃ e, k.sptes mm.spte = some e ∧ e.isLoaded = true ∧ e.unusedVirtualAddress = va

/-- The page of the element is resident and dirty. -/
structure Dirty (k : Kernel) (t : Tid) (mm : MmapFile) (e : Spte) (pte : Pte) : Prop where
  entry : k.sptes mm.spte = some e
  loaded : e.isLoaded = true
  present : k.pteOf t e.unusedVirtualAddress = some pte
  dirty : pte.dirty = true

/-- The files after the page of an element has been written back, if it has to be. -/
def writeBack (k : Kernel) (t : Tid) (inodes : Inode → Option FileData) (mm : MmapFile) :
    Inode → Option FileData :=
  match k.sptes mm.spte with
  | none => inodes
  | some e =>
      match k.pteOf t e.unusedVirtualAddress, k.files.lookup e.file with
      | some pte, some o =>
          if e.isLoaded = true ∧ pte.dirty = true ∧ ¬ WritesDenied k o.inode then
            Function.update inodes o.inode ((inodes o.inode).map
              (·.write e.offset.toNat e.readBytes.toNat (pageByte (k.mem pte.frame))))
          else inodes
      | _, _ => inodes

/-- The state `s` when the parts `es` of a call in the state `k` are over. -/
structure After (k : Kernel) (t : Tid) (es : List Removal) (s : Kernel) : Prop where
  mmapList : s.mmapList = Function.update k.mmapList t ((k.mmapList t).filter (· ∉ visits es))
  spt : s.spt = Function.update k.spt t ((k.spt t).filter (· ∉ (visits es).map (·.spte)))
  sptes : ∀ p, p ∉ (visits es).map (·.spte) → s.sptes p = k.sptes p
  freed : ∀ mm ∈ finishes es, s.sptes mm.spte = none
  cleared : ∀ mm ∈ visits es, ∀ va, Resident k mm va → s.pteOf t va = none
  ptes : ∀ u va, (u = t → ∀ mm ∈ visits es, ¬ Resident k mm va) → s.pteOf u va = k.pteOf u va
  frameTblList : s.frameTblList = k.frameTblList.filter (·.spte ∉ (visits es).map (·.spte))
  closed : ∀ f ∈ releases es, s.files.lookup f = none
  lookup : ∀ f, f ∉ releases es → s.files.lookup f = k.files.lookup f
  inodes : s.inodes = (visits es).foldl (writeBack k t) k.inodes
  rest : s = { k with
    mmapList := s.mmapList
    spt := s.spt
    sptes := s.sptes
    pagedir := s.pagedir
    frameTblList := s.frameTblList
    freePages := s.freePages
    files := s.files
    inodes := s.inodes }

theorem After.refl : After k t [] k where
  mmapList := by simp
  spt := by simp
  sptes := fun _ _ => rfl
  freed := fun _ hmm => absurd hmm List.not_mem_nil
  cleared := fun _ hmm => absurd hmm List.not_mem_nil
  ptes := fun _ _ _ => rfl
  frameTblList := by simp
  closed := fun _ hf => absurd hf List.not_mem_nil
  lookup := fun _ _ => rfl
  inodes := rfl
  rest := rfl

section Moments

variable {es : List Removal}

/-- `free (mm->spte)`. -/
theorem After.finish (ha : After k t es s) (hvisited : mm ∈ visits es) :
    After k t (es ++ [.finish mm]) (s.setSpte mm.spte none) := by
  have hvisits : visits (es ++ [.finish mm]) = visits es := by simp
  have hreleases : releases (es ++ [.finish mm]) = releases es := by simp
  have hfinishes : finishes (es ++ [.finish mm]) = finishes es ++ [mm] := by simp
  constructor
  case mmapList =>
    rw [hvisits]
    exact ha.mmapList
  case spt =>
    rw [hvisits]
    exact ha.spt
  case sptes =>
    intro p hp
    rw [hvisits] at hp
    have hne : p ≠ mm.spte := by
      rintro rfl
      exact hp (List.mem_map_of_mem hvisited)
    exact (Function.update_of_ne hne ..).trans (ha.sptes p hp)
  case freed =>
    intro m hm
    show Function.update s.sptes mm.spte none m.spte = none
    by_cases hp : m.spte = mm.spte
    · rw [hp, Function.update_self]
    · rw [hfinishes, List.mem_append, List.mem_singleton] at hm
      rw [Function.update_of_ne hp]
      exact ha.freed m (hm.resolve_right fun heq => hp (congrArg _ heq))
  case cleared =>
    rw [hvisits]
    exact ha.cleared
  case ptes =>
    rw [hvisits]
    exact ha.ptes
  case frameTblList =>
    rw [hvisits]
    exact ha.frameTblList
  case closed =>
    rw [hreleases]
    exact ha.closed
  case lookup =>
    rw [hreleases]
    exact ha.lookup
  case inodes =>
    rw [hvisits]
    exact ha.inodes
  case rest =>
    have hrest := ha.rest
    unfold Kernel.setSpte
    rw [hrest]

/-- `file_close` of a file that is open. -/
theorem After.release (ha : After k t es s) (hf : f ∈ k.files) (hnot : f ∉ releases es) :
    ∃ s', performRemoval t s (.release f) = .ok s' ∧ After k t (es ++ [.release f]) s' := by
  obtain ⟨o, ho⟩ := lookup_of_mem hf
  have hopen : s.files.lookup f = some o := by
    rw [ha.lookup f hnot]
    exact ho
  have hvisits : visits (es ++ [.release f]) = visits es := by simp
  have hreleases : releases (es ++ [.release f]) = releases es ++ [f] := by simp
  have hfinishes : finishes (es ++ [.release f]) = finishes es := by simp
  refine ⟨{ s with files := s.files.erase f }, ?_, ?_⟩
  · show fileClose s f = _
    unfold fileClose
    rw [hopen]
    rfl
  · constructor
    case mmapList =>
      rw [hvisits]
      exact ha.mmapList
    case spt =>
      rw [hvisits]
      exact ha.spt
    case sptes =>
      rw [hvisits]
      exact ha.sptes
    case freed =>
      rw [hfinishes]
      exact ha.freed
    case cleared =>
      rw [hvisits]
      exact ha.cleared
    case ptes =>
      rw [hvisits]
      exact ha.ptes
    case frameTblList =>
      rw [hvisits]
      exact ha.frameTblList
    case closed =>
      intro g hg
      rw [hreleases, List.mem_append, List.mem_singleton] at hg
      show (s.files.erase f).lookup g = none
      by_cases hgf : g = f
      · rw [hgf, AList.lookup_erase]
      · rw [AList.lookup_erase_ne hgf]
        exact ha.closed g (hg.resolve_right hgf)
    case lookup =>
      intro g hg
      rw [hreleases, List.mem_append, List.mem_singleton, not_or] at hg
      show (s.files.erase f).lookup g = _
      rw [AList.lookup_erase_ne hg.2]
      exact ha.lookup g hg.1
    case inodes =>
      rw [hvisits]
      exact ha.inodes
    case rest =>
      have hrest := ha.rest
      rw [hrest]

/-! ## A page -/

theorem fileOf_eq (he : k.sptes mm.spte = some e) : fileOf k mm = e.file := by
  unfold fileOf
  rw [he]
  rfl

/-- Elements are told apart by their entries. -/
theorem Mappings.eq_of_spte {mm' : MmapFile} (h : Mappings k) (hmm : mm ∈ k.mmapList t)
    (hmm' : mm' ∈ k.mmapList t) (heq : mm.spte = mm'.spte) : mm = mm' :=
  List.inj_on_of_nodup_map (h.nodup t) hmm hmm' heq

theorem Mappings.spte_notMem {l : List MmapFile} (h : Mappings k) (hmm : mm ∈ k.mmapList t)
    (hl : ∀ m ∈ l, m ∈ k.mmapList t) (hnot : mm ∉ l) : mm.spte ∉ l.map (·.spte) := by
  intro hmem
  obtain ⟨m, hm, heq⟩ := List.mem_map.mp hmem
  rw [h.eq_of_spte hmm (hl m hm) heq.symm] at hnot
  exact hnot hm

/-- The entry of a page that is resident is in the table. -/
theorem Sound.entry_of_loaded (h : Sound k) (hmm : mm ∈ k.mmapList t)
    (he : k.sptes mm.spte = some e) (hl : e.isLoaded = true) : Entry k t mm.spte e := by
  obtain ⟨x, hx, ⟨-, hmem⟩ | ⟨-, hno, -⟩⟩ := h.mappings.entry t mm hmm
  · exact ⟨hmem, he⟩
  · rw [Option.some.inj (hx.symm.trans he), hl] at hno
    cases hno

/-- Two elements do not have the same resident page. -/
theorem Sound.resident_unique {mm' : MmapFile} (h : Sound k) (hmm : mm ∈ k.mmapList t)
    (hmm' : mm' ∈ k.mmapList t) (hr : Resident k mm va) (hr' : Resident k mm' va) : mm = mm' := by
  obtain ⟨e, he, hl, haddr⟩ := hr
  obtain ⟨e', he', hl', haddr'⟩ := hr'
  apply h.mappings.eq_of_spte hmm hmm'
  exact h.tables.addressUnique t _ _ e e' (h.entry_of_loaded hmm he hl)
    (h.entry_of_loaded hmm' he' hl') (haddr.trans haddr'.symm)

/-- Writes are denied to a file as before the call: what has been closed since denied
nobody writes. -/
theorem After.denied {i : Inode} (hb : Backed k) (ha : After k t es s)
    (hrel : ∀ f ∈ releases es, ∃ mm ∈ k.mmapList t, fileOf k mm = f) :
    WritesDenied s i ↔ WritesDenied k i := by
  rw [writesDenied_iff, writesDenied_iff]
  constructor
  · rintro ⟨f, o, ho, hino, hdeny⟩
    have hopen : f ∉ releases es := by
      intro hf
      rw [ha.closed f hf] at ho
      cases ho
    exact ⟨f, o, (ha.lookup f hopen).symm.trans ho, hino, hdeny⟩
  · rintro ⟨f, o, ho, hino, hdeny⟩
    have hopen : f ∉ releases es := by
      intro hf
      obtain ⟨mm, hmm, rfl⟩ := hrel f hf
      obtain ⟨e, he, o', ho', hallow, -⟩ := hb.entry t mm hmm
      rw [fileOf_eq he, ho'] at ho
      rw [Option.some.inj ho, hdeny] at hallow
      cases hallow
    exact ⟨f, o, (ha.lookup f hopen).trans ho, hino, hdeny⟩

theorem writeBack_of_not_loaded {inodes : Inode → Option FileData} (he : k.sptes mm.spte = some e)
    (hl : e.isLoaded ≠ true) : writeBack k t inodes mm = inodes := by
  unfold writeBack
  rw [he]
  dsimp only
  split
  next => exact if_neg fun h => hl h.1
  next => rfl

theorem writeBack_of_clean {inodes : Inode → Option FileData} (he : k.sptes mm.spte = some e)
    (hpte : k.pteOf t e.unusedVirtualAddress = some pte) (hd : pte.dirty ≠ true) :
    writeBack k t inodes mm = inodes := by
  unfold writeBack
  rw [he]
  dsimp only
  rw [hpte]
  split
  next x o hx ho =>
    cases hx
    exact if_neg fun h => hd h.2.1
  next => rfl

theorem writeBack_of_dirty {inodes : Inode → Option FileData} {o : OpenFile}
    (hd : Dirty k t mm e pte) (ho : k.files.lookup e.file = some o) :
    writeBack k t inodes mm = if WritesDenied k o.inode then inodes
      else Function.update inodes o.inode ((inodes o.inode).map
        (·.write e.offset.toNat e.readBytes.toNat (pageByte (k.mem pte.frame)))) := by
  unfold writeBack
  rw [hd.entry]
  dsimp only
  rw [hd.present, ho]
  dsimp only
  by_cases hdenied : WritesDenied k o.inode
  · rw [if_pos hdenied, if_neg fun h => h.2.2 hdenied]
  · rw [if_neg hdenied, if_pos ⟨hd.loaded, hd.dirty, hdenied⟩]

/-- `mm` is about to be visited, after the parts `es`. -/
structure Turn (k : Kernel) (t : Tid) (es : List Removal) (mm : MmapFile) (e : Spte) : Prop where
  listed : mm ∈ k.mmapList t
  entry : k.sptes mm.spte = some e
  visited : ∀ m ∈ visits es, m ∈ k.mmapList t
  released : ∀ f ∈ releases es, ∃ m ∈ k.mmapList t, fileOf k m = f
  fresh : mm ∉ visits es
  opened : e.file ∉ releases es

/-- The frame and the page directory entry of a page that is resident. -/
theorem Turn.resident (h : Sound k) (ha : After k t es s) (hturn : Turn k t es mm e)
    (hl : e.isLoaded = true) : ∃ fte pte, fte ∈ s.frameTblList ∧ fte.spte = mm.spte ∧
      k.pteOf t e.unusedVirtualAddress = some pte ∧ s.pteOf t e.unusedVirtualAddress = some pte ∧
      pte.frame = fte.frame := by
  obtain ⟨fte, pte, hfte, -, hspte, hpte, hframe⟩ :=
    h.tables.loaded_pte (h.entry_of_loaded hturn.listed hturn.entry hl) hl
  refine ⟨fte, pte, ?_, hspte, hpte, ?_, hframe⟩
  · rw [ha.frameTblList, List.mem_filter, hspte]
    exact ⟨hfte, decide_eq_true (h.mappings.spte_notMem hturn.listed hturn.visited hturn.fresh)⟩
  · rw [ha.ptes t _ fun _ m hm hres => ?_]
    · exact hpte
    · rw [h.resident_unique hturn.listed (hturn.visited m hm) ⟨e, hturn.entry, hl, rfl⟩ hres]
        at hturn
      exact hturn.fresh hm

theorem After.mem (ha : After k t es s) : s.mem = k.mem := by
  rw [ha.rest]

/-- A dirty page is written to its file. -/
theorem Turn.write {sptes : Ptr → Option Spte} (hb : Backed k) (ha : After k t es s)
    (hturn : Turn k t es mm e) (hd : Dirty k t mm e pte) :
    fileWriteAt { s with sptes := sptes } e.file (pageByte (s.mem pte.frame)) e.readBytes.toNat
      e.offset.toNat = .ok { s with sptes := sptes, inodes := writeBack k t s.inodes mm } := by
  obtain ⟨x, hx, o, ho, -⟩ := hb.entry t mm hturn.listed
  obtain rfl := Option.some.inj (hx.symm.trans hturn.entry)
  have hopen : s.files.lookup x.file = some o := (ha.lookup x.file hturn.opened).trans ho
  have hsame : WritesDenied s o.inode ↔ WritesDenied k o.inode := ha.denied hb hturn.released
  unfold fileWriteAt
  dsimp only
  rw [hopen, show s.mem pte.frame = k.mem pte.frame from congrFun ha.mem _,
    writeBack_of_dirty hd ho]
  show Except.ok (inodeWriteAt { s with sptes := sptes } o.inode _ _ _) = _
  unfold inodeWriteAt
  by_cases hdenied : WritesDenied k o.inode
  · rw [if_pos (hsame.mpr hdenied), if_pos hdenied]
  · rw [if_neg fun hno => hdenied (hsame.mp hno), if_neg hdenied]

theorem resident_iff (he : k.sptes mm.spte = some e) (hl : e.isLoaded = true) :
    Resident k mm va ↔ va = e.unusedVirtualAddress := by
  constructor
  · rintro ⟨x, hx, -, rfl⟩
    rw [Option.some.inj (hx.symm.trans he)]
  · intro hva
    exact ⟨e, he, hl, hva.symm⟩

theorem After.mem_frameTblList {fte : FrameTblEnt} (ha : After k t es s)
    (hfte : fte ∈ s.frameTblList) : fte ∈ k.frameTblList := by
  rw [ha.frameTblList] at hfte
  exact (List.mem_filter.mp hfte).1

/-- An entry of the frame table is told apart by its page. -/
theorem After.erase_fte {fte : FrameTblEnt} (h : Sound k) (ha : After k t es s)
    (hfte : fte ∈ s.frameTblList) :
    s.frameTblList.erase fte = s.frameTblList.filter (·.spte ≠ fte.spte) := by
  have hnodup : s.frameTblList.Nodup := by
    rw [ha.frameTblList]
    exact (List.Nodup.of_map _ h.tables.entryNodup).filter _
  rw [hnodup.erase_eq_filter]
  apply List.filter_congr
  intro x hx
  have hsame : x = fte ↔ x.spte = fte.spte := by
    constructor
    · intro heq
      rw [heq]
    · intro heq
      exact h.tables.fte_eq_of_spte (ha.mem_frameTblList hx) (ha.mem_frameTblList hfte) heq
  rw [Bool.eq_iff_iff, bne_iff_ne, decide_eq_true_iff]
  exact not_congr hsame

/-- A page that is not resident is not in the frame table. -/
theorem Turn.frameTblList (h : Sound k) (ha : After k t es s) (hturn : Turn k t es mm e)
    (hl : e.isLoaded ≠ true) : s.frameTblList.filter (·.spte ≠ mm.spte) = s.frameTblList := by
  apply List.filter_eq_self.mpr
  intro fte hfte
  apply decide_eq_true
  intro heq
  obtain ⟨x, pte, hx, hlx, -, -⟩ := h.tables.resident fte (ha.mem_frameTblList hfte)
  have hat := hx.at_ptr
  rw [heq, hturn.entry] at hat
  exact hl (Option.some.inj hat ▸ hlx)

/-- A page that is resident is written back if it is dirty, and loses its frame and its page
directory entry. -/
theorem Turn.unloadMmap_ok (h : Sound k) (hb : Backed k) (ha : After k t es s)
    (hturn : Turn k t es mm e) (hl : e.isLoaded = true) (sptes : Ptr → Option Spte) :
    ∃ frame, unloadMmap { s with sptes := sptes } t e = .ok { s with
      sptes := sptes
      pagedir := Function.update s.pagedir t ((s.pagedir t).erase e.unusedVirtualAddress)
      frameTblList := s.frameTblList.filter (·.spte ≠ mm.spte)
      freePages := frame :: s.freePages
      inodes := writeBack k t s.inodes mm } := by
  obtain ⟨fte, pte, hfte, hspte, hpte, hpteNow, hframe⟩ := hturn.resident h ha hl
  set saved : Kernel := { s with sptes := sptes, inodes := writeBack k t s.inodes mm } with hsaved
  have hun : unloadMmap { s with sptes := sptes } t e = .ok (pagedirClearPage (freeFrame saved
      (pagedirGetPage saved t e.unusedVirtualAddress)) t e.unusedVirtualAddress) := by
    unfold unloadMmap
    rw [show ({ s with sptes := sptes } : Kernel).pteOf t e.unusedVirtualAddress = some pte
      from hpteNow]
    dsimp only
    by_cases hd : pte.dirty = true
    · rw [if_pos hd, hturn.write hb ha ⟨hturn.entry, hl, hpte, hd⟩]
      rfl
    · rw [if_neg hd, hsaved, writeBack_of_clean hturn.entry hpte hd]
      rfl
  have hget : pagedirGetPage saved t e.unusedVirtualAddress = some fte.frame := by
    unfold pagedirGetPage
    rw [show saved.pteOf t e.unusedVirtualAddress = some pte from hpteNow, Option.map_some, hframe]
  have hone : ∀ x ∈ saved.frameTblList, x.frame = fte.frame → x = fte := by
    intro x hx heq
    exact h.tables.fte_eq_of_frame (ha.mem_frameTblList hx) (ha.mem_frameTblList hfte) heq
  refine ⟨fte.frame, ?_⟩
  rw [hun, hget, freeFrame_eq (k := saved) hfte hone]
  unfold pagedirClearPage Kernel.clearPte
  rw [hsaved]
  dsimp only
  rw [ha.erase_fte h hfte, hspte]

/-- The page is unloaded if it is resident. -/
theorem Turn.unload (h : Sound k) (hb : Backed k) (ha : After k t es s)
    (hturn : Turn k t es mm e) (sptes : Ptr → Option Spte) : ∃ pagedir freePages,
      (if e.isLoaded = true then unloadMmap { s with sptes := sptes } t e
        else pure { s with sptes := sptes }) = .ok { s with
          sptes := sptes
          pagedir := pagedir
          frameTblList := s.frameTblList.filter (·.spte ≠ mm.spte)
          freePages := freePages
          inodes := writeBack k t s.inodes mm } ∧
      (∀ va, Resident k mm va → (pagedir t).lookup va = none) ∧
      ∀ u va, (u = t → ¬ Resident k mm va) → (pagedir u).lookup va = s.pteOf u va := by
  by_cases hl : e.isLoaded = true
  · obtain ⟨frame, hun⟩ := hturn.unloadMmap_ok h hb ha hl sptes
    refine ⟨_, _, (if_pos hl).trans hun, ?_, ?_⟩
    · intro va hres
      rw [(resident_iff hturn.entry hl).mp hres, Function.update_self, AList.lookup_erase]
    · intro u va hres
      by_cases hu : u = t
      · subst hu
        have hne : va ≠ e.unusedVirtualAddress := fun heq =>
          hres rfl ((resident_iff hturn.entry hl).mpr heq)
        rw [Function.update_self, AList.lookup_erase_ne hne]
        rfl
      · rw [Function.update_of_ne hu]
        rfl
  · refine ⟨s.pagedir, s.freePages, ?_, ?_, fun _ _ _ => rfl⟩
    · rw [if_neg hl, writeBack_of_not_loaded hturn.entry hl, hturn.frameTblList h ha hl]
      rfl
    · rintro va ⟨x, hx, hlx, -⟩
      rw [Option.some.inj (hx.symm.trans hturn.entry)] at hlx
      exact absurd hlx hl

theorem filter_notMem_snoc {α : Type} [DecidableEq α] {l vs : List α} {a : α} (hl : l.Nodup) :
    (l.filter (· ∉ vs)).erase a = l.filter (· ∉ vs ++ [a]) := by
  rw [(hl.filter _).erase_eq_filter, List.filter_filter]
  apply List.filter_congr
  intro x _
  rw [Bool.eq_iff_iff, Bool.and_eq_true, bne_iff_ne, decide_eq_true_iff, decide_eq_true_iff,
    List.mem_append, List.mem_singleton, not_or]
  exact and_comm

theorem spt_of_after (ha : After k t es s) :
    s.spt t = (k.spt t).filter (· ∉ (visits es).map (·.spte)) := by
  rw [ha.spt, Function.update_self]

/-- `hash_delete` takes out the entry of the element. One that is marked `HASH_ERROR` is
in no table, and nothing is taken out for it. -/
theorem Turn.hashDelete (h : Sound k) (ha : After k t es s) (hturn : Turn k t es mm e)
    (hspt : s'.spt = s.spt) (hsptes : s'.sptes = Function.update s.sptes mm.spte
      (some { e with pinned := true })) :
    (if e.type ≠ .hashError then Vm.hashDelete s' t e.unusedVirtualAddress else s') =
      s'.setSpt t ((k.spt t).filter (· ∉ (visits es ++ [mm]).map (·.spte))) := by
  rw [List.map_append, List.map_singleton, ← filter_notMem_snoc (h.tables.sptNodup t),
    ← spt_of_after ha]
  obtain ⟨x, hx, hcase⟩ := h.mappings.entry t mm hturn.listed
  obtain rfl := Option.some.inj (hx.symm.trans hturn.entry)
  rcases hcase with ⟨hty, hmem⟩ | ⟨hty, -, hno⟩
  · rw [if_pos (by rw [hty]; decide)]
    unfold Vm.hashDelete
    rw [hspt, eraseP_eq_erase (a := mm.spte)]
    -- the other entries of the table are those of before, for other addresses
    intro q hq
    rw [decide_eq_true_iff]
    unfold addressOf
    rw [hsptes]
    by_cases hqp : q = mm.spte
    · subst hqp
      rw [Function.update_self]
      simp
    · rw [spt_of_after ha, List.mem_filter, decide_eq_true_iff] at hq
      obtain ⟨y, hy⟩ := h.tables.exists_entry hq.1
      rw [Function.update_of_ne hqp, ha.sptes q hq.2, hy.at_ptr]
      constructor
      · intro haddr
        exact h.tables.addressUnique t q mm.spte y x hy ⟨hmem, hx⟩ (Option.some.inj haddr)
      · exact fun heq => absurd heq hqp
  · have hout : mm.spte ∉ s.spt t := by
      rw [spt_of_after ha]
      exact fun hmem => hno t (List.mem_filter.mp hmem).1
    rw [if_neg (by simp [hty]), List.erase_of_not_mem hout, ← hspt]
    unfold Kernel.setSpt
    rw [Function.update_eq_self]

/-- The first part of a round, put together. -/
theorem visit_ok {k₁ : Kernel} (he : k.sptes mm.spte = some e)
    (hun : (if e.isLoaded = true then
        unloadMmap (k.setSpte mm.spte (some { e with pinned := true })) t e
      else pure (k.setSpte mm.spte (some { e with pinned := true }))) = .ok k₁) :
    performRemoval t k (.visit mm) =
      .ok ((if e.type ≠ .hashError then Vm.hashDelete k₁ t e.unusedVirtualAddress else k₁).setMmapList
        t ((k₁.mmapList t).erase mm)) := by
  have hlist : (if e.type ≠ .hashError then Vm.hashDelete k₁ t e.unusedVirtualAddress
      else k₁).mmapList = k₁.mmapList := by
    split
    next => rfl
    next => rfl
  rw [← hlist]
  show (deref (k.sptes mm.spte) >>= _) = _
  rw [he]
  dsimp only [deref, bind, Except.bind]
  by_cases hl : e.isLoaded = true
  · rw [if_pos hl] at hun ⊢
    rw [hun]
    rfl
  · rw [if_neg hl] at hun ⊢
    cases hun
    rfl

/-- A page is handled. -/
theorem After.visit (h : Sound k) (hb : Backed k) (ha : After k t es s)
    (hturn : Turn k t es mm e) :
    ∃ s', performRemoval t s (.visit mm) = .ok s' ∧ After k t (es ++ [.visit mm]) s' := by
  have hvisits : visits (es ++ [.visit mm]) = visits es ++ [mm] := by simp
  have hreleases : releases (es ++ [.visit mm]) = releases es := by simp
  have hfinishes : finishes (es ++ [.visit mm]) = finishes es := by simp
  have hentry : s.sptes mm.spte = some e :=
    (ha.sptes _ (h.mappings.spte_notMem hturn.listed hturn.visited hturn.fresh)).trans hturn.entry
  obtain ⟨pagedir, freePages, hun, hcleared, hptes⟩ := hturn.unload h hb ha
    (Function.update s.sptes mm.spte (some { e with pinned := true }))
  refine ⟨_, visit_ok hentry hun, ?_⟩
  rw [hturn.hashDelete h ha]
  · constructor
    case mmapList =>
      show Function.update s.mmapList t ((s.mmapList t).erase mm) = _
      rw [hvisits, ha.mmapList, Function.update_idem, Function.update_self,
        filter_notMem_snoc (List.Nodup.of_map _ (h.mappings.nodup t))]
    case spt =>
      show Function.update s.spt t _ = _
      rw [hvisits, ha.spt, Function.update_idem]
    case sptes =>
      intro p hp
      rw [hvisits, List.map_append, List.mem_append, not_or, List.map_singleton,
        List.mem_singleton] at hp
      exact (Function.update_of_ne hp.2 ..).trans (ha.sptes p hp.1)
    case freed =>
      intro m hm
      rw [hfinishes] at hm
      have hnone := ha.freed m hm
      have hne : m.spte ≠ mm.spte := by
        intro heq
        rw [heq, hentry] at hnone
        cases hnone
      exact (Function.update_of_ne hne ..).trans hnone
    case cleared =>
      intro m hm va hres
      by_cases hown : Resident k mm va
      · exact hcleared va hown
      · rw [hvisits, List.mem_append, List.mem_singleton] at hm
        rcases hm with hm | rfl
        · exact (hptes t va fun _ => hown).trans (ha.cleared m hm va hres)
        · exact absurd hres hown
    case ptes =>
      intro u va hres
      rw [hvisits] at hres
      exact (hptes u va fun hu => hres hu mm (List.mem_append_right _ List.mem_cons_self)).trans
        (ha.ptes u va fun hu m hm => hres hu m (List.mem_append_left _ hm))
    case frameTblList =>
      show s.frameTblList.filter _ = _
      rw [hvisits, ha.frameTblList, List.filter_filter]
      apply List.filter_congr
      intro fte _
      rw [Bool.eq_iff_iff, Bool.and_eq_true, decide_eq_true_iff, decide_eq_true_iff,
        decide_eq_true_iff, List.map_append, List.mem_append, not_or, List.map_singleton,
        List.mem_singleton]
      exact and_comm
    case closed =>
      rw [hreleases]
      exact ha.closed
    case lookup =>
      rw [hreleases]
      exact ha.lookup
    case inodes =>
      rw [hvisits, List.foldl_append, ← ha.inodes]
      rfl
    case rest =>
      have hrest := ha.rest
      rw [hrest]
      rfl
  · rfl
  · rfl

/-! ## Every moment -/

theorem mem_removed : mm ∈ removed k t mapping ↔ mm ∈ k.mmapList t ∧ Removed mapping mm := by
  unfold removed
  rw [List.mem_filter, decide_eq_true_iff]

theorem Mappings.nodup_removed (h : Mappings k) (t : Tid) (mapping : ℤ) :
    (removed k t mapping).Nodup :=
  (List.Nodup.of_map _ (h.nodup t)).filter _

/-- The mappings follow each other in the list, and each has a file of its own. -/
theorem Backed.sorted (h : Sound k) (hb : Backed k) (t : Tid) (mapping : ℤ) :
    Grouped.Sorted (·.mapid) (fileOf k) (removed k t mapping) none where
  le := (h.mappings.sorted t).filter _
  same := by
    intro mm hmm mm' hmm'
    obtain ⟨hl, -⟩ := mem_removed.mp hmm
    obtain ⟨hl', -⟩ := mem_removed.mp hmm'
    obtain ⟨e, he, -⟩ := hb.entry t mm hl
    obtain ⟨e', he', -⟩ := hb.entry t mm' hl'
    rw [fileOf_eq he, fileOf_eq he']
    constructor
    · intro hid
      exact hb.oneFile t mm hl mm' hl' hid e e' he he'
    · intro hfile
      have hrole := h.handles.unique e.file (.mapping t mm.mapid) (.mapping t mm'.mapid)
        ⟨mm, hl, rfl, e, he, rfl⟩ ⟨mm', hl', rfl, e', he', hfile.symm⟩
      exact (Role.mapping.inj hrole).2
  pending_le := fun _ hp => by cases hp
  pending_same := fun _ hp => by cases hp

/-- The files that are closed are those of the elements that are removed. -/
theorem mem_releases_removals (h : Sound k) (hb : Backed k) :
    f ∈ releases (removals k t mapping) ↔ ∃ mm ∈ removed k t mapping, fileOf k mm = f := by
  unfold removals
  rw [mem_releases_walk (hb.sorted h t mapping)]
  simp

/-- A call gets through, and at each moment it has done what the parts up to there
stand for. The induction is on these parts, from behind. -/
theorem removals_moment {fs : List Removal} (h : Sound k) (hb : Backed k)
    (hsplit : removals k t mapping = es ++ fs) :
    ∃ s, Lts.Run (Lts.Succeeds (performRemoval t)) k es s ∧ After k t es s := by
  induction es using List.reverseRecOn generalizing fs with
  | nil => exact ⟨k, .nil k, .refl⟩
  | append_singleton es ev ih =>
      rw [List.append_assoc, List.singleton_append] at hsplit
      obtain ⟨s, hrun, ha⟩ := ih hsplit
      have hsorted := hb.sorted h t mapping
      have hnodup := h.mappings.nodup_removed t mapping
      -- what has been visited and closed so far belongs to elements of the list
      have hvisits : visits es ++ visits (ev :: fs) = removed k t mapping := by
        rw [← visits_append, ← hsplit]
        exact visits_walk
      have hlisted : ∀ m ∈ removed k t mapping, m ∈ k.mmapList t := fun m hm =>
        (mem_removed.mp hm).1
      have hvisited : ∀ m ∈ visits es, m ∈ k.mmapList t := fun m hm =>
        hlisted m (hvisits ▸ List.mem_append_left _ hm)
      have hreleases : releases es ++ releases (ev :: fs) = releases (removals k t mapping) := by
        rw [← releases_append, ← hsplit]
      have hreleased : ∀ f ∈ releases es ++ releases (ev :: fs), ∃ m ∈ k.mmapList t,
          fileOf k m = f := by
        intro f hf
        rw [hreleases] at hf
        obtain ⟨m, hm, hfile⟩ := (mem_releases_removals h hb).mp hf
        exact ⟨m, hlisted m hm, hfile⟩
      cases ev with
      | visit mm =>
          obtain ⟨hfresh, hopened⟩ := before_visit hsorted hnodup hsplit
          have hmm : mm ∈ k.mmapList t := hlisted mm (hvisits ▸ by simp)
          obtain ⟨e, he, -⟩ := hb.entry t mm hmm
          rw [fileOf_eq he] at hopened
          obtain ⟨s', hok, ha'⟩ := ha.visit h hb ⟨hmm, he, hvisited,
            fun f hf => hreleased f (List.mem_append_left _ hf), hfresh, hopened⟩
          exact ⟨s', hrun.snoc hok, ha'⟩
      | release f =>
          have hnot : f ∉ releases es := by
            have hdistinct := nodup_releases_walk hsorted
            change (releases (removals k t mapping)).Nodup at hdistinct
            rw [← hreleases] at hdistinct
            exact fun hmem => List.disjoint_of_nodup_append hdistinct hmem (by simp)
          obtain ⟨m, hm, rfl⟩ := hreleased f (by simp)
          obtain ⟨e, he, o, ho, -⟩ := hb.entry t m hm
          have hopen : fileOf k m ∈ k.files := by
            rw [fileOf_eq he]
            exact AList.lookup_isSome.mp (by rw [ho]; rfl)
          obtain ⟨s', hok, ha'⟩ := ha.release hopen hnot
          exact ⟨s', hrun.snoc hok, ha'⟩
      | finish mm =>
          have hmem : mm ∈ visits es := by
            have hsplit' : removals k t mapping = (es ++ [.finish mm]) ++ fs := by
              rw [hsplit, List.append_assoc, List.singleton_append]
            have hlast : mm ∈ finishes (es ++ [.finish mm]) := by simp
            have hover := visited_of_finished hsorted hnodup hsplit' hlast
            simpa using hover
          exact ⟨_, hrun.snoc rfl, ha.finish hmem⟩

end Moments

end Pintos.Vm
