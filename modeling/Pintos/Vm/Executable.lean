import Pintos.Vm.Process

/-! # Program headers

The loop of `load` over the program headers of an executable, which decides what
`load_segment` is called with.
-/

namespace Pintos.Vm

/-- `struct Elf32_Phdr`, without `p_paddr` and `p_align`. -/
structure Phdr where
  type : UInt32
  offset : UInt32
  vaddr : Vaddr
  filesz : UInt32
  memsz : UInt32
  flags : UInt32
deriving DecidableEq, Repr

def ptLoad : UInt32 := 1
def ptDynamic : UInt32 := 2
def ptInterp : UInt32 := 3
def ptShlib : UInt32 := 5
def pfW : UInt32 := 2

/-- `validate_segment` for a file of `length` bytes. -/
def validateSegment (phdr : Phdr) (length : ℕ) : Bool :=
  if phdr.offset % 4096 ≠ phdr.vaddr % 4096 then false
  else if phdr.offset > UInt32.ofNat length then false
  else if phdr.memsz < phdr.filesz then false
  else if phdr.memsz = 0 then false
  else if ¬ isUserVaddr phdr.vaddr then false
  else if ¬ isUserVaddr (phdr.vaddr + phdr.memsz) then false
  else if phdr.vaddr + phdr.memsz < phdr.vaddr then false
  else if phdr.vaddr < 4096 then false
  else true

/-- `ROUND_UP (x, PGSIZE)`. -/
def roundUp (x : UInt32) : UInt32 := (x + 4095) / 4096 * 4096

/-- What `load` calls `load_segment` with for a loadable segment. -/
def segmentOf (phdr : Phdr) : Segment where
  ofs := phdr.offset - phdr.offset % 4096
  upage := pgRoundDown phdr.vaddr
  readBytes := if phdr.filesz > 0 then phdr.vaddr % 4096 + phdr.filesz else 0
  zeroBytes :=
    if phdr.filesz > 0 then
      roundUp (phdr.vaddr % 4096 + phdr.memsz) - (phdr.vaddr % 4096 + phdr.filesz)
    else
      roundUp (phdr.vaddr % 4096 + phdr.memsz)
  writable := phdr.flags &&& pfW ≠ 0

/-- The loop of `load` over the program headers; `none` where it goes to `done`. -/
def segmentsOf (length : ℕ) : List Phdr → Option (List Segment)
  | [] => some []
  | phdr :: rest =>
      if phdr.type = ptDynamic ∨ phdr.type = ptInterp ∨ phdr.type = ptShlib then none
      else if phdr.type = ptLoad then
        if validateSegment phdr length then (segmentsOf length rest).map (segmentOf phdr :: ·)
        else none
      else segmentsOf length rest

variable {phdr : Phdr} {length : ℕ}

theorem roundUp_toNat {x : UInt32} (h : x.toNat + 4095 < 2 ^ 32) :
    (roundUp x).toNat = (x.toNat + 4095) / 4096 * 4096 := by
  unfold roundUp
  have h4095 : (4095 : UInt32).toNat = 4095 := rfl
  have h4096 : (4096 : UInt32).toNat = 4096 := rfl
  rw [UInt32.toNat_mul, UInt32.toNat_div, UInt32.toNat_add, h4095, h4096]
  omega

theorem toNat_add_of_lt {x y : UInt32} (h : x.toNat + y.toNat < 2 ^ 32) :
    (x + y).toNat = x.toNat + y.toNat := by
  rw [UInt32.toNat_add]
  omega

theorem pageAt_toNat {va : Vaddr} {i : ℕ} (h : va.toNat + 4096 * i < 2 ^ 32) :
    (pageAt va i).toNat = va.toNat + 4096 * i := by
  unfold pageAt
  show (va + UInt32.ofNat (4096 * i)).toNat = _
  have hi : (UInt32.ofNat (4096 * i)).toNat = 4096 * i := by
    refine UInt32.toNat_ofNat_of_lt' ?_
    show _ < 2 ^ 32
    omega
  rw [toNat_add_of_lt (by omega), hi]

/-- What `validate_segment` checks of the addresses of a segment. -/
theorem validateSegment_true (h : validateSegment phdr length = true) :
    phdr.filesz.toNat ≤ phdr.memsz.toNat ∧ 4096 ≤ phdr.vaddr.toNat ∧
      phdr.vaddr.toNat + phdr.memsz.toNat < physBase.toNat := by
  have h4096 : (4096 : UInt32).toNat = 4096 := rfl
  have hvaddr := phdr.vaddr.toNat_lt
  have hmemsz := phdr.memsz.toNat_lt
  unfold validateSegment at h
  -- every check has been passed
  repeat
    split at h
    next => cases h
  rename_i _ _ hsize _ huser hend hwrap hbottom
  have hend' : (phdr.vaddr + phdr.memsz).toNat < physBase.toNat :=
    UInt32.lt_iff_toNat_lt.mp (not_not.mp hend)
  rw [UInt32.lt_iff_toNat_lt] at hsize hwrap hbottom
  rw [UInt32.toNat_add] at hend' hwrap
  omega

/-- A segment covers the bytes of its program header and no more than their pages. -/
theorem segmentOf_bytes (h : validateSegment phdr length = true) :
    (segmentOf phdr).readBytes.toNat + (segmentOf phdr).zeroBytes.toNat =
      (phdr.vaddr.toNat % 4096 + phdr.memsz.toNat + 4095) / 4096 * 4096 := by
  obtain ⟨hsize, hbottom, hend⟩ := validateSegment_true h
  have hbase : physBase.toNat = 0xc0000000 := rfl
  have hoffset : (phdr.vaddr % 4096).toNat = phdr.vaddr.toNat % 4096 := by
    rw [UInt32.toNat_mod]
    rfl
  have hmem : (phdr.vaddr % 4096 + phdr.memsz).toNat =
      phdr.vaddr.toNat % 4096 + phdr.memsz.toNat := by
    rw [toNat_add_of_lt (by omega), hoffset]
  have hround : (roundUp (phdr.vaddr % 4096 + phdr.memsz)).toNat =
      (phdr.vaddr.toNat % 4096 + phdr.memsz.toNat + 4095) / 4096 * 4096 := by
    rw [roundUp_toNat (by omega), hmem]
  unfold segmentOf
  dsimp only
  by_cases hfile : phdr.filesz > 0
  · rw [if_pos hfile, if_pos hfile]
    have hread : (phdr.vaddr % 4096 + phdr.filesz).toNat =
        phdr.vaddr.toNat % 4096 + phdr.filesz.toNat := by
      rw [toNat_add_of_lt (by omega), hoffset]
    have hle : phdr.vaddr % 4096 + phdr.filesz ≤ roundUp (phdr.vaddr % 4096 + phdr.memsz) := by
      rw [UInt32.le_iff_toNat_le, hread, hround]
      omega
    rw [UInt32.toNat_sub_of_le _ _ hle, hread, hround]
    omega
  · rw [if_neg hfile, if_neg hfile, hround]
    show 0 + _ = _
    omega

/-- The pages of a segment that is loaded lie between the first page and
`PHYS_BASE`. -/
theorem segmentOf_pages (h : validateSegment phdr length = true) :
    (segmentOf phdr).upage.toNat % 4096 = 0 ∧ 4096 ≤ (segmentOf phdr).upage.toNat ∧
      (segmentOf phdr).upage.toNat + 4096 * (segmentOf phdr).pages ≤ physBase.toNat := by
  obtain ⟨hsize, hbottom, hend⟩ := validateSegment_true h
  have hbase : physBase.toNat = 0xc0000000 := rfl
  have hupage : (segmentOf phdr).upage.toNat = phdr.vaddr.toNat - phdr.vaddr.toNat % 4096 :=
    pgRoundDown_toNat
  have hpages : (segmentOf phdr).pages =
      (phdr.vaddr.toNat % 4096 + phdr.memsz.toNat + 4095) / 4096 * 4096 / 4096 := by
    unfold Segment.pages
    rw [segmentOf_bytes h]
  rw [hpages, hupage]
  omega

/-- What `load` calls `load_segment` with comes from validated headers. -/
theorem segmentsOf_some {phdrs : List Phdr} {segments : List Segment}
    (h : segmentsOf length phdrs = some segments) :
    ∀ s ∈ segments, ∃ phdr ∈ phdrs, validateSegment phdr length = true ∧ s = segmentOf phdr := by
  induction phdrs generalizing segments with
  | nil =>
      cases h
      exact fun s hs => absurd hs List.not_mem_nil
  | cons phdr rest ih =>
      have hrest : ∀ segments', segmentsOf length rest = some segments' → ∀ s ∈ segments',
          ∃ phdr' ∈ phdr :: rest, validateSegment phdr' length = true ∧ s = segmentOf phdr' := by
        intro segments' h' s hs
        obtain ⟨phdr', hmem, hvalid⟩ := ih h' s hs
        exact ⟨phdr', List.mem_cons_of_mem phdr hmem, hvalid⟩
      unfold segmentsOf at h
      split at h
      next => cases h
      next =>
        split at h
        next =>
          split at h
          next hvalid =>
            obtain ⟨segments', h', rfl⟩ := Option.map_eq_some_iff.mp h
            intro s hs
            rcases List.mem_cons.mp hs with rfl | hs
            · exact ⟨phdr, List.mem_cons_self, hvalid, rfl⟩
            · exact hrest segments' h' s hs
          next => cases h
        next => exact hrest segments h

end Pintos.Vm
