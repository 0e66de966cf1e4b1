import Pintos.Vm.EvictionRuns

/-! # An eviction without its owner

When the owner does not run in between, the statements of `evict_frame` do what
`evictPage` does to the page in one step.
-/

namespace Pintos.Eviction

open Vm

variable {s s' : State} {k k' : Kernel} {fte : FrameTblEnt} {e e' : Spte} {o : OpenFile}
  {d : FileData} {n : ℕ}

/-- What an eviction sees of the kernel; `d` are the bytes of the file. -/
def seen (k : Kernel) (fte : FrameTblEnt) (e : Spte) (i : Inode) (d : FileData) (pc : Pc) :
    State where
  pc := pc
  entry := e
  page := k.mem fte.frame
  pte := k.pteOf fte.thread e.unusedVirtualAddress
  swap := k.swap
  inode := d
  denied := decide (WritesDenied k i)

/-- So many statements later. -/
def evicts : ℕ → State → Option State
  | 0, s => some s
  | n + 1, s => (evict s).bind (evicts n)

theorem evicts_add (h : evicts n s = some s') (m : ℕ) : evicts (n + m) s = evicts m s' := by
  induction n generalizing s with
  | zero =>
      cases h
      rw [Nat.zero_add]
  | succ n ih =>
      obtain ⟨s₁, he, h⟩ := Option.bind_eq_some_iff.mp h
      rw [Nat.add_right_comm]
      show (evict s).bind (evicts (n + m)) = _
      rw [he]
      exact ih h

theorem run_of_evicts (h : evicts n s = some s') : Lts.Run Step s (List.replicate n .evict) s' := by
  induction n generalizing s with
  | zero =>
      cases h
      exact .nil _
  | succ n ih =>
      obtain ⟨s₁, he, h⟩ := Option.bind_eq_some_iff.mp h
      exact .cons he (ih h)

/-! ## The end -/

theorem evicts_unload (hpc : s.pc = .unload) : evicts 3 s = some { s with
    pc := .cleared, entry := { s.entry with isLoaded := false }, pte := none } := by
  obtain ⟨pc, entry, page, pte, swap, inode, denied⟩ := s
  obtain rfl : pc = .unload := hpc
  rfl

/-- The nine rounds of the loop of `swap_out`. -/
theorem evicts_sectors (s : State) (w : Swap) (index : ℕ) :
    evicts 9 { s with swap := some w, pc := .sector index 0 } = some { s with
      swap := some { w with disk := blockWritePage w.disk index s.page }
      pc := .setIndex index } := rfl

/-! ## The loop of `file_write_at` -/

/-- Two lists of bytes of the same length with the same bytes. -/
theorem FileData.ext_getD {d d' : FileData} (hlength : d.bytes.length = d'.bytes.length)
    (hbytes : ∀ j < d.bytes.length, d.bytes.getD j 0 = d'.bytes.getD j 0) : d = d' := by
  obtain ⟨bytes, hd⟩ := d
  obtain ⟨bytes', hd'⟩ := d'
  congr 1
  refine List.ext_getElem hlength ?_
  intro j hj hj'
  have heq : bytes.getD j 0 = bytes'.getD j 0 := hbytes j hj
  rw [List.getD_eq_getElem?_getD, List.getD_eq_getElem?_getD, List.getElem?_eq_getElem hj,
    List.getElem?_eq_getElem hj'] at heq
  exact heq

/-- A write that goes on where another one has ended. -/
theorem write_write (d : FileData) (ofs size size' : ℕ) (data : ℕ → UInt8) :
    (d.write ofs size data).write (ofs + size) size' (fun i => data (size + i)) =
      d.write ofs (size + size') data := by
  have hlength : ((d.write ofs size data).write (ofs + size) size'
      fun i => data (size + i)).bytes.length = d.bytes.length := by
    rw [write_length, write_length]
  refine FileData.ext_getD ?_ ?_
  · rw [hlength, write_length]
  · intro j hj
    rw [hlength] at hj
    unfold FileData.write
    dsimp only
    rw [getD_overwrite, getD_overwrite, getD_overwrite, length_overwrite]
    by_cases hnew : ofs + size ≤ j ∧ j < ofs + size + size'
    · have hofs : size + (j - (ofs + size)) = j - ofs := by omega
      rw [if_pos ⟨hj, hnew⟩, if_pos (by omega), hofs]
    · rw [if_neg fun hno => hnew hno.2]
      by_cases hold : ofs ≤ j ∧ j < ofs + size
      · rw [if_pos ⟨hj, hold⟩, if_pos (by omega)]
      · rw [if_neg fun hno => hold hno.2, if_neg (by omega)]

/-- A write that goes on behind the end of the file. -/
theorem write_of_end (d : FileData) (ofs size size' : ℕ) (data : ℕ → UInt8) (hle : size ≤ size')
    (hend : size' ≤ size ∨ d.bytes.length ≤ ofs + size) :
    d.write ofs size data = d.write ofs size' data := by
  refine FileData.ext_getD ?_ ?_
  · rw [write_length, write_length]
  · intro j hj
    rw [write_length] at hj
    unfold FileData.write
    dsimp only
    rw [getD_overwrite, getD_overwrite]
    by_cases hin : ofs ≤ j ∧ j < ofs + size
    · rw [if_pos ⟨hj, hin⟩, if_pos (by omega)]
    · rw [if_neg fun hno => hin hno.2, if_neg (by omega)]

theorem write_zero (d : FileData) (ofs : ℕ) (data : ℕ → UInt8) : d.write ofs 0 data = d := by
  refine FileData.ext_getD (write_length ..) ?_
  intro j _
  unfold FileData.write
  dsimp only
  rw [getD_overwrite, if_neg (by omega)]

/-- In the loop of `file_write_at`, with so many bytes written. -/
def State.writing (s : State) (written : ℕ) : State :=
  { s with
    inode := s.inode.write s.entry.offset.toNat written (pageByte s.page)
    pc := .fileWrite written }

theorem writing_length (written : ℕ) :
    (s.writing written).inode.bytes.length = s.inode.bytes.length := write_length ..

/-- A round of the loop, unless the size or the end of the file is reached. -/
theorem evict_writing (hdenied : s.denied = false) {written : ℕ}
    (hmore : chunk (s.writing written) written ≠ 0) :
    evict (s.writing written) = some (s.writing (written + chunk (s.writing written) written)) := by
  have hnext : evict (s.writing written) = some { s with
      inode := (s.inode.write s.entry.offset.toNat written (pageByte s.page)).write
        (s.entry.offset.toNat + written) (chunk (s.writing written) written)
        fun i => pageByte s.page (written + i)
      pc := .fileWrite (written + chunk (s.writing written) written) } := by
    apply if_neg
    rintro (hno | hno)
    · have hno' : s.denied = true := hno
      rw [hdenied] at hno'
      cases hno'
    · exact hmore hno
  rw [hnext, write_write]
  rfl

theorem evict_written {written : ℕ} (hle : written ≤ s.entry.readBytes.toNat)
    (hdone : chunk (s.writing written) written = 0) :
    evict (s.writing written) = some { s with
      inode := s.inode.write s.entry.offset.toNat s.entry.readBytes.toNat (pageByte s.page)
      pc := .unload } := by
  have hend : s.entry.readBytes.toNat ≤ written ∨
      s.inode.bytes.length ≤ s.entry.offset.toNat + written := by
    have hzero : min (s.entry.readBytes.toNat - written)
        (min ((s.writing written).inode.bytes.length - (s.entry.offset.toNat + written))
          (512 - (s.entry.offset.toNat + written) % 512)) = 0 := hdone
    rw [writing_length] at hzero
    have hmod : (s.entry.offset.toNat + written) % 512 < 512 := Nat.mod_lt _ (by decide)
    omega
  have he : evict (s.writing written) = some { s.writing written with pc := .unload } :=
    if_pos (.inr hdone)
  rw [he, ← write_of_end _ _ _ _ _ hle hend]
  rfl

/-- The loop writes what one write of the whole size would. -/
theorem evicts_writing (hdenied : s.denied = false) {written : ℕ}
    (hle : written ≤ s.entry.readBytes.toNat) (hn : s.entry.readBytes.toNat - written ≤ n) :
    ∃ m, evicts m (s.writing written) = some { s with
      inode := s.inode.write s.entry.offset.toNat s.entry.readBytes.toNat (pageByte s.page)
      pc := .unload } := by
  induction n generalizing written with
  | zero =>
      by_cases hdone : chunk (s.writing written) written = 0
      · refine ⟨1, ?_⟩
        show (evict (s.writing written)).bind _ = _
        rw [evict_written hle hdone]
        rfl
      · have hchunk := chunk_le (s := s.writing written) written hle
        have hread : (s.writing written).entry.readBytes = s.entry.readBytes := rfl
        rw [hread] at hchunk
        omega
  | succ n ih =>
      by_cases hdone : chunk (s.writing written) written = 0
      · refine ⟨1, ?_⟩
        show (evict (s.writing written)).bind _ = _
        rw [evict_written hle hdone]
        rfl
      · have hchunk := chunk_le (s := s.writing written) written hle
        obtain ⟨m, hm⟩ := ih hchunk (by omega)
        refine ⟨m + 1, ?_⟩
        show (evict (s.writing written)).bind _ = _
        rw [evict_writing hdenied hdone]
        exact hm

/-! ## The whole eviction -/

/-- A page that is clean and has not been in swap is left as it is. -/
theorem evicts_clean (hpc : s.pc = .dirty) (hdirty : s.pte.elim false (·.dirty) = false)
    (htype : s.entry.type ≠ .swap) : evicts 2 s = some { s with pc := .unload } := by
  show (evict s).bind _ = _
  have he : evict s = some { s with pc := .type } := by
    unfold evict
    rw [hpc]
    dsimp only
    rw [hdirty]
    rfl
  rw [he]
  show some { s with pc := if s.entry.type = PageType.swap then Pc.save else .unload } = _
  rw [if_neg htype]

/-- Any other page comes to be saved. -/
theorem evicts_save (hpc : s.pc = .dirty)
    (hsave : s.pte.elim false (·.dirty) = true ∨ s.entry.type = .swap) :
    ∃ m, evicts m s = some { s with pc := .save } := by
  cases hdirty : s.pte.elim false (·.dirty) with
  | true =>
      refine ⟨1, ?_⟩
      show (evict s).bind _ = _
      have he : evict s = some { s with pc := .save } := by
        unfold evict
        rw [hpc]
        dsimp only
        rw [hdirty]
        rfl
      rw [he]
      rfl
  | false =>
      have htype := hsave.resolve_left (by
        rw [hdirty]
        exact nofun)
      refine ⟨2, ?_⟩
      show (evict s).bind _ = _
      have he : evict s = some { s with pc := .type } := by
        unfold evict
        rw [hpc]
        dsimp only
        rw [hdirty]
        rfl
      rw [he]
      show some { s with pc := if s.entry.type = PageType.swap then Pc.save else .unload } = _
      rw [if_pos htype]

theorem evicts_save_mmap (htype : s.entry.type = .mmap) (hdenied : s.denied = false) :
    ∃ m, evicts m { s with pc := .save } = some { s with
      inode := s.inode.write s.entry.offset.toNat s.entry.readBytes.toNat (pageByte s.page)
      pc := .unload } := by
  have hstart : s.writing 0 = { s with pc := .fileWrite 0 } := by
    unfold State.writing
    rw [write_zero]
  obtain ⟨m, hm⟩ := evicts_writing hdenied (Nat.zero_le s.entry.readBytes.toNat) (Nat.le_refl _)
  rw [hstart] at hm
  refine ⟨m + 1, ?_⟩
  show evicts m { s with pc := if s.entry.type = PageType.mmap then Pc.fileWrite 0 else .setType } = _
  rw [if_pos htype]
  exact hm

theorem evicts_save_swap {w : Swap} {index : ℕ} (htype : s.entry.type ≠ .mmap)
    (hswap : s.swap = some w) (hindex : w.map.findIdx? (fun inUse => !inUse) = some index) :
    ∃ m, evicts m { s with pc := .save } = some { s with
      entry := { s.entry with type := .swap, swapIndex := index }
      swap := some { w.setSlot index true with disk := blockWritePage w.disk index s.page }
      pc := .unload } := by
  refine ⟨3 + (9 + 1), ?_⟩
  have hfirst : evicts 3 { s with pc := .save } = some { s with
      entry := { s.entry with type := .swap }
      swap := some (w.setSlot index true)
      pc := .sector index 0 } := by
    show evicts 2 { s with pc := if s.entry.type = PageType.mmap then Pc.fileWrite 0 else .setType } = _
    rw [if_neg htype]
    show (s.swap.bind fun w => _).bind _ = _
    rw [hswap, Option.bind_some, hindex]
    rfl
  have hsectors := evicts_sectors { s with entry := { s.entry with type := .swap } }
    (w.setSlot index true) index
  rw [evicts_add hfirst, evicts_add hsectors]
  rfl

/-- The statements from the test of the dirty bit on do what `evictPage` does at once: they
save the page as `savePage` does, and clear its mapping. -/
theorem evicts_savePage (hfile : k.files.lookup e.file = some o)
    (hinode : k.inodes o.inode = some d) (hallowed : e.type = .mmap → ¬ WritesDenied k o.inode)
    (hsave : savePage k fte e = .ok (e', k')) :
    ∃ n d', k'.inodes o.inode = some d' ∧
      Lts.Run Step (seen k fte e o.inode d .dirty) (List.replicate n .evict)
        { seen k fte e o.inode d .cleared with
          entry := { e' with isLoaded := false }, pte := none, swap := k'.swap, inode := d' } := by
  set s := seen k fte e o.inode d .dirty with hs
  have hdirty : s.pte.elim false (·.dirty) = pagedirIsDirty k fte.thread e.unusedVirtualAddress :=
    rfl
  unfold savePage at hsave
  split at hsave
  · rename_i hcond
    obtain ⟨n, hn⟩ := evicts_save (s := s) rfl (by rwa [hdirty])
    split at hsave
    · -- the page of a mapping
      rename_i hmmap
      obtain ⟨k₁, hwrite, hsave⟩ := Lts.bind_eq_ok.mp hsave
      obtain ⟨rfl, rfl⟩ := Prod.mk.inj (Except.ok.inj hsave)
      unfold fileWriteAt at hwrite
      obtain ⟨o', ho', hwrite⟩ := Lts.bind_eq_ok.mp hwrite
      rw [hfile] at ho'
      obtain rfl : o = o' := Except.ok.inj ho'
      have hk₁ : k₁ = inodeWriteAt k o.inode (pageByte (k.mem fte.frame)) e.readBytes.toNat
          e.offset.toNat := (Except.ok.inj hwrite).symm
      unfold inodeWriteAt at hk₁
      rw [if_neg (hallowed hmmap)] at hk₁
      obtain ⟨m, hm⟩ := evicts_save_mmap (s := s) hmmap
        (decide_eq_false (hallowed hmmap))
      refine ⟨n + (m + 3), d.write e.offset.toNat e.readBytes.toNat (pageByte (k.mem fte.frame)), ?_,
        run_of_evicts ?_⟩
      · rw [hk₁]
        show Function.update k.inodes o.inode _ o.inode = _
        rw [Function.update_self, hinode]
        rfl
      · rw [evicts_add hn, evicts_add hm]
        refine (evicts_unload rfl).trans ?_
        rw [hk₁]
        rfl
    · rename_i hmmap
      -- the page goes to swap
      obtain ⟨⟨index, k₁⟩, hout, hsave⟩ := Lts.bind_eq_ok.mp hsave
      obtain ⟨rfl, rfl⟩ := Prod.mk.inj (Except.ok.inj hsave)
      unfold swapOut at hout
      split at hout
      · cases hout
      · rename_i w hw
        split at hout
        · cases hout
        · rename_i index' hindex
          obtain ⟨rfl, rfl⟩ := Prod.mk.inj (Except.ok.inj hout)
          obtain ⟨m, hm⟩ := evicts_save_swap (s := s) hmmap hw hindex
          refine ⟨n + (m + 3), d, hinode, run_of_evicts ?_⟩
          rw [evicts_add hn, evicts_add hm]
          exact evicts_unload rfl
  · rename_i hcond
    obtain ⟨rfl, rfl⟩ := Prod.mk.inj (Except.ok.inj hsave)
    -- the page is not saved
    obtain ⟨hclean, htype⟩ := not_or.mp hcond
    refine ⟨2 + 3, d, hinode, run_of_evicts ?_⟩
    rw [evicts_add (evicts_clean (s := s) rfl (by rw [hdirty]; simpa using hclean) htype)]
    exact evicts_unload rfl

end Pintos.Eviction
