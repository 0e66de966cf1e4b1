import Pintos.Elf.Exec
import Pintos.Vm.Image

/-! # The image of an executable

The pages of the segments are what a process starts with: each byte of a segment is that
of the file, or zero behind its part of the file.
-/

namespace Pintos.Elf

open Vm

variable {env : Env} {k k' k₁ : Kernel} {t : Tid} {file : FilePtr} {o : OpenFile}
  {bytes : List UInt8} {exe : Inode} {i n m n' rounds : ℕ} {w : Bool} {upage : Vaddr}
  {ofs readBytes zeroBytes : UInt32} {s : Segment} {ss : List Segment} {ehdr : Elf32Ehdr}
  {phdrs : List Elf32Phdr} {p : Elf32Phdr}

/-- The page that a round of `load_segment` makes an entry for. -/
theorem addFilePageTbl_image (h : Sound k)
    (hfile : k.files.lookup file = some o) (hbytes : k.bytesOf o.inode = bytes)
    (hadd : addFilePageTbl env n k t file ofs upage (pageReadBytes readBytes) zeroBytes w =
      (true, k')) :
    Image k' t upage (segmentPage bytes ofs.toNat readBytes.toNat 0) w := by
  unfold addFilePageTbl at hadd
  split at hadd
  · cases hadd
  next q hq =>
    have hun : Unused k q := h.unused (mallocSpte_some hq)
    dsimp only at hadd
    unfold hashInsert at hadd
    split at hadd
    · cases hadd
    · cases hadd
      refine ⟨⟨q, fileEntry file ofs upage (pageReadBytes readBytes) zeroBytes w,
        (entry_insert hun).1, rfl, nofun, rfl⟩, ?_⟩
      show initialPage (.map t upage _ :: _) t upage = _
      rw [initialPage_map, segmentPage_zero]
      funext b
      unfold filePage
      rw [hfile]
      show (if b.val < (pageReadBytes readBytes).toNat then (k.bytesOf o.inode).getD _ 0 else 0) = _
      rw [pageReadBytes_toNat, hbytes]

/-- Every page of a segment that has been loaded is in the image. -/
theorem loadSegmentLoop_image (h : Sound k) (ht : k.status t = .alive)
    (hexe : k.executable t = some file) (hfile : k.files.lookup file = some o)
    (hbytes : k.bytesOf o.inode = bytes)
    (hcover : readBytes.toNat = 0 ∨ ofs.toNat + readBytes.toNat ≤ bytes.length)
    (hlength : bytes.length < 2 ^ 31) (hsum : readBytes.toNat + zeroBytes.toNat = pgSize * m)
    (hloop : loadSegmentLoop env t file w n m ofs upage readBytes zeroBytes k = (true, n', k'))
    (hi : i < m) :
    Image k' t (pageAt upage i) (segmentPage bytes ofs.toNat readBytes.toNat i) w := by
  induction m generalizing n ofs upage readBytes zeroBytes k i with
  | zero => exact absurd hi (Nat.not_lt_zero i)
  | succ m ih =>
      have hround := round hsum
      unfold loadSegmentLoop at hloop
      rw [if_pos hround.more] at hloop
      dsimp only at hloop
      split at hloop
      · cases hloop
      next k₁ hadd =>
        have hc₁ := addFilePageTbl_any h ht hexe (pageBytes_add readBytes) hadd
        have ht₁ : k₁.status t = .alive := by
          rw [hc₁.status]
          exact ht
        have hexe₁ : k₁.executable t = some file := by
          rw [hc₁.executable]
          exact hexe
        have h₁ := h.changes hc₁
        have hsame := addFilePageTbl_sameFiles hadd
        cases i with
        | zero =>
            rw [pageAt_zero]
            have hc := loadSegmentLoop_any h₁ ht₁ hexe₁ hloop
            refine (addFilePageTbl_image h hfile hbytes hadd).changes h₁ hc ?_
            rw [ht₁]
            decide
        | succ i =>
            have hread : (pageReadBytes readBytes).toNat = min readBytes.toNat pgSize :=
              pageReadBytes_toNat
            have hlt := ofs.toNat_lt
            have hofs : (ofs + pageReadBytes readBytes).toNat =
                ofs.toNat + min readBytes.toNat pgSize := by
              rw [toNat_add_of_lt (by omega), hread]
            have himage := ih h₁ ht₁ hexe₁ (hsame.lookup hfile) (by rw [hsame.bytesOf, hbytes])
              (by rw [hround.restRead, hofs]; omega) hround.rest hloop (Nat.lt_of_succ_lt_succ hi)
            rwa [pageAt_succ, hround.restRead, hofs, segmentPage_succ] at himage

/-- A segment that is read from the bytes of its file. -/
structure Covered (s : Segment) (bytes : List UInt8) : Prop where
  bytes : s.readBytes.toNat = 0 ∨ s.ofs.toNat + s.readBytes.toNat ≤ bytes.length
  sum : s.readBytes.toNat + s.zeroBytes.toNat = pgSize * s.pages

theorem loadSegment_loop {b : Bool} (hload : loadSegment env n k t file s = .ok (b, m, k')) :
    loadSegmentLoop env t file s.writable n s.pages s.ofs s.upage s.readBytes s.zeroBytes k =
      (b, m, k') := by
  unfold loadSegment at hload
  split at hload
  next => cases hload
  next =>
    split at hload
    next => cases hload
    next =>
      split at hload
      next => cases hload
      next => exact Except.ok.inj hload

/-- The same for all segments. -/
theorem loadSegments_image (h : Sound k) (ht : k.status t = .alive)
    (hexe : k.executable t = some file) (hfile : k.files.lookup file = some o)
    (hbytes : k.bytesOf o.inode = bytes) (hlength : bytes.length < 2 ^ 31)
    (hload : loadSegments env t file n ss k = .ok (true, m, k')) (hs : s ∈ ss)
    (hcover : Covered s bytes) (hi : i < s.pages) :
    Image k' t (pageAt s.upage i) (s.page bytes i) s.writable := by
  induction ss generalizing n k with
  | nil => exact absurd hs List.not_mem_nil
  | cons s' rest ih =>
      unfold loadSegments at hload
      obtain ⟨⟨b, n₁, k₁⟩, hsegment, hsegments⟩ := Lts.bind_eq_ok.mp hload
      cases b with
      | false => cases hsegments
      | true =>
          have hloop := loadSegment_loop hsegment
          have hc₁ := loadSegmentLoop_any h ht hexe hloop
          have hsame := loadSegmentLoop_sameFiles hloop
          have h₁ := h.changes hc₁
          have ht₁ : k₁.status t = .alive := by
            rw [hc₁.status]
            exact ht
          have hexe₁ : k₁.executable t = some file := by
            rw [hc₁.executable]
            exact hexe
          rcases List.mem_cons.mp hs with rfl | hrest
          · -- the segments behind it leave its pages alone
            have himage : Image k₁ t (pageAt s.upage i) (s.page bytes i) s.writable :=
              loadSegmentLoop_image h ht hexe hfile hbytes hcover.bytes hlength hcover.sum hloop hi
            have hc : Changes .entering k₁ k' :=
              loadSegments_changes h₁ ht₁ hexe₁ (fun _ _ _ _ => trivial) hsegments
            refine himage.changes h₁ hc ?_
            rw [ht₁]
            decide
          · exact ih h₁ ht₁ hexe₁ (hsame.lookup hfile) (by rw [hsame.bytesOf, hbytes]) hsegments hrest

/-- What a process that has been started finds at byte `j` of a segment: the byte of the
file, or zero behind the part of the segment that is in the file. -/
def segmentByte (bytes : List UInt8) (p : Elf32Phdr) (j : ℕ) : UInt8 :=
  if j < p.filesz.toNat then bytes.getD (p.offset.toNat + j) 0 else 0

/-- Byte `j` of a segment is in the image of a process that has been started. -/
theorem load_image {env : StartEnv} {cmd : Command} {entry : UInt32} {esp : Vaddr} {j : ℕ}
    (h : Healthy k) (ht : k.status t = .absent)
    (hload : load env k t exe cmd = .ok (some (entry, esp), k'))
    (hexe : IsExecutable (k.bytesOf exe) ehdr phdrs) (hp : p ∈ phdrs) (hty : p.type = ptLoad)
    (hcover : p.offset.toNat + p.filesz.toNat ≤ (k.bytesOf exe).length) (hj : j < p.memsz.toNat) :
    ∃ page, Image k' t (pgRoundDown (p.vaddr + UInt32.ofNat j)) page (p.flags &&& pfW ≠ 0) ∧
      page (pgOfs (p.vaddr + UInt32.ofNat j)) = segmentByte (k.bytesOf exe) p j := by
  have hlength := k.length_bytesOf_lt exe
  obtain ⟨ehdr', phdrs', file, k₁, k₂, hl⟩ := load_some h ht hload
  obtain ⟨n, hsegments⟩ := hl.segments
  obtain ⟨rfl, rfl⟩ := hexe.unique hl.executable
  have hvalid : validateSegment p.toPhdr (k.bytesOf exe).length = true :=
    (validateSegment_iff hlength).mpr (hexe.loadable p hp hty)
  obtain ⟨i, hi, hva, hbyte⟩ := segmentOf_byte hvalid hj
  have ht₀ : (startProcess k t file exe).status t = .alive := Function.update_self ..
  have hmem : segmentOf p.toPhdr ∈ segments phdrs :=
    List.mem_map_of_mem (List.mem_filter.mpr ⟨hp, decide_eq_true hty⟩)
  have himage : Image k₁ t (pageAt (segmentOf p.toPhdr).upage i)
      ((segmentOf p.toPhdr).page (k.bytesOf exe) i) (segmentOf p.toPhdr).writable :=
    loadSegments_image hl.sound ht₀ (Function.update_self ..) startProcess_lookup rfl hlength
      hsegments hmem ⟨segmentOf_covered hvalid hcover, segmentOf_sum hvalid⟩ hi
  have ht₁ : k₁.status t ≠ .exiting := by
    rw [hl.entered.status, ht₀]
    decide
  refine ⟨_, ?_, hbyte⟩
  rw [show pgRoundDown (p.vaddr + UInt32.ofNat j) = _ from hva]
  exact hl.pushes.image (h.step hl.step)
    (himage.changes (hl.sound.changes hl.entered) hl.grown ht₁)

end Pintos.Elf
