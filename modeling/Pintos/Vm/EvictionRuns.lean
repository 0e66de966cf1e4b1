import Pintos.Vm.Eviction

/-! # Which stores survive an eviction

A store of the owner is kept if the eviction has not passed its byte: tested the dirty
bit of a page it then takes for clean, or written the byte to its sector. A store that
comes later is lost.
-/

namespace Pintos.Eviction

open Vm

variable {s s' s₀ s₁ : State} {b : Fin pgSize} {v : UInt8} {as : List Act} {a : Act} {n : ℕ}

/-- Where the bytes are that the eviction has passed. -/
def State.backing (s : State) : Page :=
  match s.pc with
  | .sector index _ => s.slotPage index
  | .setIndex index => s.slotPage index
  | .fileWrite _ => s.filePage
  | _ => s.loadPage

/-- What a place in the code says about the entry. -/
def Pc.Fits (s : State) : Pc → Prop
  | .fileWrite written => s.entry.type = .mmap ∧ written ≤ s.entry.readBytes.toNat
  | .setType => s.entry.type ≠ .mmap
  | .scan => s.entry.type = .swap
  | .sector _ i => s.entry.type = .swap ∧ s.swap ≠ none ∧ i ≤ sectorsPerPage
  | .setIndex _ => s.entry.type = .swap
  | _ => True

/-- The dirty bit has still to be tested. -/
def Pc.Early : Pc → Prop
  | .pinned | .accessed | .setAccessed | .dirty => True
  | _ => False

/-- What holds between two steps, whatever the owner does. -/
structure Shape (s : State) : Prop where
  mapped : s.pc ≠ .cleared → s.pte ≠ none
  clean : s.pc.Early → ∀ pte, s.pte = some pte → pte.dirty = false → s.entry.type ≠ .swap →
    s.filePage = s.page
  length : s.entry.type = .mmap →
    s.entry.offset.toNat + s.entry.readBytes.toNat ≤ s.inode.bytes.length
  allowed : s.entry.type = .mmap → s.denied = false
  fits : s.pc.Fits s

/-- The bytes that the eviction has passed are as the owner has left them. -/
def Kept (s : State) : Prop := ∀ b, Saved s b → Passed s b → s.backing b = s.page b

theorem Start.shape (h : Start s) : Shape s where
  mapped := fun _ => h.mapped
  clean := fun _ => h.clean
  length := h.length
  allowed := h.allowed
  fits := by
    rw [h.pc]
    trivial

theorem Start.kept (h : Start s) : Kept s := by
  intro b _ hpassed
  unfold Passed at hpassed
  rw [h.pc] at hpassed
  exact hpassed.elim

/-! ## Single bytes -/

theorem sectorOf_byte (page : Page) (b : Fin pgSize) (h : b.val / 512 < sectorsPerPage) :
    sectorOf page ⟨b.val / 512, h⟩ ⟨b.val % 512, Nat.mod_lt _ (by decide)⟩ = page b := by
  unfold sectorOf
  congr 1
  apply Fin.ext
  show b.val / 512 * 512 + b.val % 512 = b.val
  omega

theorem pageByte_val (page : Page) (b : Fin pgSize) : pageByte page b.val = page b := by
  unfold pageByte
  rw [dif_pos b.isLt]

/-- A block write to a slot changes one sector of its page. -/
theorem blockReadPage_update {disk : ℕ → Sector} {index i : ℕ} {page : Page}
    (hi : i < sectorsPerPage) (b : Fin pgSize) :
    blockReadPage (Function.update disk (index * sectorsPerPage + i) (sectorOf page ⟨i, hi⟩)) index b =
      if b.val / 512 = i then page b else blockReadPage disk index b := by
  have hsector : b.val / 512 < sectorsPerPage := Nat.div_lt_of_lt_mul b.isLt
  unfold blockReadPage pageOfSectors
  dsimp only
  by_cases heq : b.val / 512 = i
  · subst heq
    rw [if_pos rfl, Function.update_self, sectorOf_byte]
  · rw [if_neg heq, Function.update_of_ne]
    intro hno
    exact heq (Nat.add_left_cancel hno)

theorem write_length (d : FileData) (ofs size : ℕ) (data : ℕ → UInt8) :
    (d.write ofs size data).bytes.length = d.bytes.length := length_overwrite ..

/-- A block write to the file changes the bytes it covers. -/
theorem filePage_write (s : State) (written size : ℕ) (pc : Pc) (b : Fin pgSize)
    (hlength : s.entry.offset.toNat + s.entry.readBytes.toNat ≤ s.inode.bytes.length) :
    State.filePage { s with
        inode := s.inode.write (s.entry.offset.toNat + written) size
          fun i => pageByte s.page (written + i)
        pc := pc } b =
      if b.val < s.entry.readBytes.toNat ∧ written ≤ b.val ∧ b.val < written + size then s.page b
      else s.filePage b := by
  unfold State.filePage FileData.write
  dsimp only
  rw [getD_overwrite]
  by_cases hb : b.val < s.entry.readBytes.toNat
  · rw [if_pos hb, if_pos hb]
    by_cases hin : written ≤ b.val ∧ b.val < written + size
    · have hofs : written + (s.entry.offset.toNat + b.val - (s.entry.offset.toNat + written)) =
          b.val := by omega
      rw [if_pos (by omega), if_pos ⟨hb, hin⟩, hofs, pageByte_val]
    · rw [if_neg (by omega), if_neg fun hno => hin hno.2]
  · rw [if_neg hb, if_neg hb, if_neg fun hno => hb hno.1]

/-! ## Statements of the eviction -/

/-- The bytes that count do not depend on the statement. -/
theorem evict_saved (h : Shape s) (he : evict s = some s') : Saved s' b ↔ Saved s b := by
  obtain ⟨pc, entry, page, pte, swap, inode, denied⟩ := s
  cases pc with
  | setType =>
      cases he
      have hne : entry.type ≠ .mmap := h.fits
      exact ⟨fun _ hno => absurd hno hne, fun _ => nofun⟩
  | pinned =>
      unfold evict at he
      dsimp only at he
      split at he <;> cases he <;> exact Iff.rfl
  | fileWrite written =>
      unfold evict at he
      dsimp only at he
      split at he <;> cases he <;> exact Iff.rfl
  | scan =>
      obtain ⟨w, -, he⟩ := Option.bind_eq_some_iff.mp he
      obtain ⟨index, -, he⟩ := Option.bind_eq_some_iff.mp he
      cases he
      exact Iff.rfl
  | sector index i =>
      unfold evict at he
      dsimp only at he
      split at he
      · obtain ⟨w, -, he⟩ := Option.bind_eq_some_iff.mp he
        cases he
        exact Iff.rfl
      · cases he
        exact Iff.rfl
  | cleared => cases he
  | _ =>
      cases he
      exact Iff.rfl

theorem evict_page (he : evict s = some s') : s'.page = s.page := by
  obtain ⟨pc, entry, page, pte, swap, inode, denied⟩ := s
  cases pc with
  | pinned =>
      unfold evict at he
      dsimp only at he
      split at he <;> cases he <;> rfl
  | fileWrite written =>
      unfold evict at he
      dsimp only at he
      split at he <;> cases he <;> rfl
  | scan =>
      obtain ⟨w, -, he⟩ := Option.bind_eq_some_iff.mp he
      obtain ⟨index, -, he⟩ := Option.bind_eq_some_iff.mp he
      cases he
      rfl
  | sector index i =>
      unfold evict at he
      dsimp only at he
      split at he
      · obtain ⟨w, -, he⟩ := Option.bind_eq_some_iff.mp he
        cases he
        rfl
      · cases he
        rfl
  | cleared => cases he
  | _ =>
      cases he
      rfl

/-- A block write of `file_write_at` ends within the size. -/
theorem chunk_le (written : ℕ) (h : written ≤ s.entry.readBytes.toNat) :
    written + chunk s written ≤ s.entry.readBytes.toNat := by
  have hle : chunk s written ≤ s.entry.readBytes.toNat - written := Nat.min_le_left ..
  omega

/-- `file_write_at` ends when everything is written. -/
theorem chunk_eq_zero {written : ℕ}
    (hlength : s.entry.offset.toNat + s.entry.readBytes.toNat ≤ s.inode.bytes.length)
    (hzero : chunk s written = 0) : s.entry.readBytes.toNat ≤ written := by
  unfold chunk at hzero
  have hmod : (s.entry.offset.toNat + written) % 512 < 512 := Nat.mod_lt _ (by decide)
  omega

theorem Shape.evict (h : Shape s) (he : Eviction.evict s = some s') : Shape s' := by
  obtain ⟨pc, entry, page, pte, swap, inode, denied⟩ := s
  have hmapped := h.mapped
  have hfits := h.fits
  cases pc with
  | pinned =>
      unfold Eviction.evict at he
      dsimp only at he
      split at he
      · cases he
        exact h
      · cases he
        exact ⟨fun _ => hmapped nofun, fun _ => h.clean trivial, h.length, h.allowed, trivial⟩
  | accessed =>
      cases he
      refine ⟨fun _ => hmapped nofun, fun _ => h.clean trivial, h.length, h.allowed, ?_⟩
      show Pc.Fits _ (if _ then _ else _)
      split <;> trivial
  | setAccessed =>
      cases he
      -- the dirty bit stays as the accessed bit is cleared
      refine ⟨?_, ?_, h.length, h.allowed, trivial⟩
      · intro _ hno
        exact hmapped nofun (Option.map_eq_none_iff.mp hno)
      · intro _ pte' hpte' hdirty
        obtain ⟨pte₀, hpte₀, rfl⟩ := Option.map_eq_some_iff.mp hpte'
        exact h.clean trivial pte₀ hpte₀ hdirty
  | dirty =>
      cases he
      refine ⟨fun _ => hmapped nofun, ?_, h.length, h.allowed, ?_⟩
      · intro hearly
        have hearly' : Pc.Early (if pte.elim false (·.dirty) then .save else .type) := hearly
        split at hearly' <;> exact hearly'.elim
      · show Pc.Fits _ (if _ then _ else _)
        split <;> trivial
  | type =>
      cases he
      refine ⟨fun _ => hmapped nofun, ?_, h.length, h.allowed, ?_⟩
      · intro hearly
        have hearly' : Pc.Early (if entry.type = .swap then .save else .unload) := hearly
        split at hearly' <;> exact hearly'.elim
      · show Pc.Fits _ (if _ then _ else _)
        split <;> trivial
  | save =>
      cases he
      refine ⟨fun _ => hmapped nofun, ?_, h.length, h.allowed, ?_⟩
      · intro hearly
        have hearly' : Pc.Early (if entry.type = .mmap then .fileWrite 0 else .setType) := hearly
        split at hearly' <;> exact hearly'.elim
      · show Pc.Fits _ (if entry.type = .mmap then _ else _)
        split
        · rename_i hmmap
          exact ⟨hmmap, Nat.zero_le _⟩
        · rename_i hmmap
          exact hmmap
  | fileWrite written =>
      unfold Eviction.evict at he
      dsimp only at he
      split at he
      · cases he
        exact ⟨fun _ => hmapped nofun, False.elim, h.length, h.allowed, trivial⟩
      · cases he
        refine ⟨fun _ => hmapped nofun, False.elim, ?_, h.allowed, hfits.1, ?_⟩
        · intro hmmap
          rw [write_length]
          exact h.length hmmap
        · -- a block write stays within `read_bytes`
          exact chunk_le written hfits.2
  | setType =>
      cases he
      -- the page is one of swap from here on
      exact ⟨fun _ => hmapped nofun, False.elim, nofun, nofun, rfl⟩
  | scan =>
      obtain ⟨w, hw, he⟩ := Option.bind_eq_some_iff.mp he
      obtain ⟨index, -, he⟩ := Option.bind_eq_some_iff.mp he
      cases he
      exact ⟨fun _ => hmapped nofun, False.elim, h.length, h.allowed, hfits, nofun,
        Nat.zero_le _⟩
  | sector index i =>
      unfold Eviction.evict at he
      dsimp only at he
      split at he
      · rename_i hi
        obtain ⟨w, hw, he⟩ := Option.bind_eq_some_iff.mp he
        cases he
        exact ⟨fun _ => hmapped nofun, False.elim, h.length, h.allowed, hfits.1, nofun, hi⟩
      · cases he
        exact ⟨fun _ => hmapped nofun, False.elim, h.length, h.allowed, hfits.1⟩
  | clearPage =>
      cases he
      -- the mapping is cleared
      exact ⟨fun hno => absurd rfl hno, False.elim, h.length, h.allowed, trivial⟩
  | cleared => cases he
  | setIndex | unload | unlink =>
      cases he
      exact ⟨fun _ => hmapped nofun, False.elim, h.length, h.allowed, trivial⟩

/-- What the eviction has passed stays passed, and where its bytes are they stay. -/
theorem Shape.evict_passed (h : Shape s) (he : Eviction.evict s = some s') (hp : Passed s b) :
    Passed s' b ∧ s'.backing b = s.backing b := by
  have hfits := h.fits
  unfold Passed at hp
  unfold Eviction.evict at he
  cases hpc : s.pc with
  | pinned | accessed | setAccessed | dirty | save | setType | scan =>
      rw [hpc] at hp
      exact hp.elim
  | cleared =>
      rw [hpc] at he
      cases he
  | type =>
      rw [hpc] at hp he
      dsimp only at hp he
      rw [if_neg hp] at he
      cases he
      refine ⟨trivial, ?_⟩
      unfold State.backing
      rw [hpc]
      rfl
  | fileWrite written =>
      rw [hpc] at hp he hfits
      obtain ⟨hmmap, hle⟩ := hfits
      dsimp only at hp he
      have hbacking : s.backing = s.filePage := by
        unfold State.backing
        rw [hpc]
      rw [hbacking]
      split at he
      · cases he
        refine ⟨trivial, ?_⟩
        show (if s.entry.type = .swap then _ else s.filePage) b = _
        rw [if_neg]
        rw [hmmap]
        exact nofun
      · cases he
        -- the next block write is behind the byte
        refine ⟨Nat.lt_of_lt_of_le hp (Nat.le_add_right ..), ?_⟩
        refine (filePage_write s written (chunk s written) _ b (h.length hmmap)).trans ?_
        rw [if_neg]
        omega
  | sector index i =>
      rw [hpc] at hp he hfits
      dsimp only at hp he
      have hbacking : s.backing = s.slotPage index := by
        unfold State.backing
        rw [hpc]
      rw [hbacking]
      split at he
      · rename_i hi
        obtain ⟨w, hw, he⟩ := Option.bind_eq_some_iff.mp he
        cases he
        -- the next sector is behind the byte
        refine ⟨Nat.lt_succ_of_lt hp, (blockReadPage_update hi b).trans ?_⟩
        rw [if_neg (Nat.ne_of_lt hp)]
        unfold State.slotPage
        rw [hw]
        rfl
      · cases he
        exact ⟨trivial, rfl⟩
  | setIndex index =>
      rw [hpc] at he hfits
      have hswap : s.entry.type = .swap := hfits
      have hbacking : s.backing = s.slotPage index := by
        unfold State.backing
        rw [hpc]
      cases he
      refine ⟨trivial, ?_⟩
      rw [hbacking]
      show (if s.entry.type = .swap then s.slotPage index else _) b = _
      rw [if_pos hswap]
  | unload | unlink | clearPage =>
      rw [hpc] at he
      cases he
      refine ⟨trivial, ?_⟩
      unfold State.backing
      rw [hpc]
      rfl

/-- What it passes now is as the owner has left it. -/
theorem Shape.evict_passes (h : Shape s) (he : Eviction.evict s = some s') (hb : Saved s b)
    (hnot : ¬ Passed s b) (hp : Passed s' b) : s'.backing b = s.page b := by
  have hfits := h.fits
  unfold Passed at hnot
  unfold Eviction.evict at he
  cases hpc : s.pc with
  | pinned =>
      rw [hpc] at he
      dsimp only at he
      split at he
      · cases he
        unfold Passed at hp
        rw [hpc] at hp
        exact hp.elim
      · cases he
        exact hp.elim
  | accessed =>
      rw [hpc] at he
      cases he
      unfold Passed at hp
      dsimp only at hp
      by_cases hacc : s.pte.elim false (·.accessed) = true
      · rw [if_pos hacc] at hp
        exact hp.elim
      · rw [if_neg hacc] at hp
        exact hp.elim
  | setAccessed | setType =>
      rw [hpc] at he
      cases he
      exact hp.elim
  | dirty =>
      rw [hpc] at he
      cases he
      cases hpte : s.pte with
      | none => exact absurd hpte (h.mapped (by rw [hpc]; exact nofun))
      | some pte =>
          -- the page is taken for clean
          cases hdirty : pte.dirty with
          | true =>
              unfold Passed at hp
              simp only [hpte, Option.elim_some, hdirty, if_true] at hp
          | false =>
              unfold Passed at hp
              simp only [hpte, Option.elim_some, hdirty, Bool.false_eq_true, if_false] at hp
              have hclean := h.clean (by rw [hpc]; trivial) pte hpte hdirty hp
              unfold State.backing
              simp only [Option.elim_some, hdirty, Bool.false_eq_true, if_false]
              show (if s.entry.type = .swap then _ else s.filePage) b = _
              rw [if_neg hp, hclean]
  | type =>
      rw [hpc] at he hnot
      cases he
      have hswap : s.entry.type = .swap := not_not.mp hnot
      unfold Passed at hp
      simp only [hswap, if_true] at hp
  | save =>
      rw [hpc] at he
      cases he
      unfold Passed at hp
      dsimp only at hp
      by_cases hmmap : s.entry.type = .mmap
      · rw [if_pos hmmap] at hp
        exact absurd hp (Nat.not_lt_zero _)
      · rw [if_neg hmmap] at hp
        exact hp.elim
  | scan =>
      rw [hpc] at he
      obtain ⟨w, -, he⟩ := Option.bind_eq_some_iff.mp he
      obtain ⟨index, -, he⟩ := Option.bind_eq_some_iff.mp he
      cases he
      exact absurd hp (Nat.not_lt_zero _)
  | fileWrite written =>
      rw [hpc] at he hnot hfits
      obtain ⟨hmmap, hle⟩ := hfits
      have hlt := hb hmmap
      dsimp only at he hnot
      split at he
      · rename_i hend
        have hzero : chunk s written = 0 := by
          apply hend.resolve_left
          rw [h.allowed hmmap]
          exact nofun
        have hdone := chunk_eq_zero (h.length hmmap) hzero
        omega
      · cases he
        have hpassed : b.val < written + chunk s written := hp
        refine (filePage_write s written (chunk s written) _ b (h.length hmmap)).trans ?_
        rw [if_pos]
        omega
  | sector index i =>
      rw [hpc] at he hnot
      dsimp only at he hnot
      split at he
      · rename_i hi
        obtain ⟨w, hw, he⟩ := Option.bind_eq_some_iff.mp he
        cases he
        have hpassed : b.val / 512 < i + 1 := hp
        refine (blockReadPage_update hi b).trans ?_
        rw [if_pos]
        omega
      · rename_i hi
        have hsector : b.val / 512 < sectorsPerPage := Nat.div_lt_of_lt_mul b.isLt
        omega
  | setIndex | unload | unlink | clearPage =>
      rw [hpc] at hnot
      exact absurd trivial hnot
  | cleared =>
      rw [hpc] at he
      cases he

theorem Shape.evict_kept (h : Shape s) (hk : Kept s) (he : Eviction.evict s = some s') :
    Kept s' := by
  intro b hb hp
  have hb' : Saved s b := (evict_saved h he).mp hb
  rw [evict_page he]
  by_cases hpassed : Passed s b
  · rw [(h.evict_passed he hpassed).2]
    exact hk b hb' hpassed
  · exact h.evict_passes he hb' hpassed hp

/-! ## The owner -/

/-- What a store changes. -/
theorem store_eq (h : perform s (.store b v) = some s') : ∃ pte, s.pte = some pte ∧
    s' = { s with
      page := Function.update s.page b v
      pte := some { pte with accessed := true, dirty := true } } := by
  obtain ⟨pte, hpte, h⟩ := Option.bind_eq_some_iff.mp h
  split at h
  · cases h
    exact ⟨pte, hpte, rfl⟩
  · cases h

/-- Whatever the owner does, the eviction stays where it is. -/
theorem Shape.perform (h : Shape s) (hp : Eviction.perform s a = some s') : Shape s' := by
  cases a with
  | evict => exact h.evict hp
  | read =>
      obtain ⟨pte, hpte, rfl⟩ := Option.map_eq_some_iff.mp hp
      refine ⟨fun _ => nofun, fun hearly pte' hpte' hdirty => ?_, h.length, h.allowed, h.fits⟩
      cases hpte'
      exact h.clean hearly pte hpte hdirty
  | store b v =>
      obtain ⟨pte, hpte, rfl⟩ := store_eq hp
      refine ⟨fun _ => nofun, fun hearly pte' hpte' hdirty => ?_, h.length, h.allowed, h.fits⟩
      cases hpte'
      cases hdirty
  | pin x =>
      cases hp
      exact ⟨h.mapped, h.clean, h.length, h.allowed, h.fits⟩

/-- A step in time keeps what the eviction has passed. -/
theorem Shape.perform_kept (h : Shape s) (hk : Kept s) (hp : Eviction.perform s a = some s')
    (hin : InTime s a) : Kept s' := by
  cases a with
  | evict => exact h.evict_kept hk hp
  | read =>
      obtain ⟨pte, -, rfl⟩ := Option.map_eq_some_iff.mp hp
      exact hk
  | store b v =>
      obtain ⟨pte, -, rfl⟩ := store_eq hp
      intro b' hb' hpassed
      have hkept : s.backing b' = s.page b' := hk b' hb' hpassed
      show s.backing b' = Function.update s.page b v b'
      by_cases heq : b' = b
      · subst heq
        rw [Function.update_self, hkept]
        exact (hin hb' hpassed).symm
      · rw [Function.update_of_ne heq]
        exact hkept
  | pin x =>
      cases hp
      exact hk

/-! ## The end of the eviction -/

/-- How many statements are left at most once the eviction has passed a byte. -/
def State.left (s : State) : ℕ :=
  match s.pc with
  | .clearPage => 1
  | .unlink => 2
  | .unload => 3
  | .type | .setIndex _ => 4
  | .sector _ i => 5 + (sectorsPerPage - i)
  | .fileWrite written => 4 + (s.entry.readBytes.toNat - written)
  | _ => 0

theorem Shape.evict_left (h : Shape s) (hp : Passed s b) (hpc : s.pc ≠ .cleared) :
    ∃ s', Eviction.evict s = some s' ∧ s'.left < s.left := by
  have hfits := h.fits
  unfold Passed at hp
  unfold Eviction.evict State.left
  cases hcase : s.pc with
  | pinned | accessed | setAccessed | dirty | save | setType | scan =>
      rw [hcase] at hp
      exact hp.elim
  | cleared => exact absurd hcase hpc
  | type =>
      rw [hcase] at hp
      dsimp only at hp ⊢
      rw [if_neg hp]
      exact ⟨_, rfl, (by decide : 3 < 4)⟩
  | setIndex index => exact ⟨_, rfl, (by decide : 3 < 4)⟩
  | unload => exact ⟨_, rfl, (by decide : 2 < 3)⟩
  | unlink => exact ⟨_, rfl, (by decide : 1 < 2)⟩
  | clearPage => exact ⟨_, rfl, (by decide : 0 < 1)⟩
  | fileWrite written =>
      rw [hcase] at hfits
      -- a round writes at least one byte, or is the last
      have hle := chunk_le written hfits.2
      dsimp only
      split
      · refine ⟨_, rfl, ?_⟩
        show 3 < _
        omega
      · rename_i hmore
        refine ⟨_, rfl, ?_⟩
        have hpos : chunk s written ≠ 0 := fun hno => hmore (.inr hno)
        show 4 + (s.entry.readBytes.toNat - (written + chunk s written)) < _
        omega
  | sector index i =>
      rw [hcase] at hfits
      obtain ⟨w, hw⟩ := Option.ne_none_iff_exists'.mp hfits.2.1
      dsimp only
      split
      · rename_i hi
        rw [hw]
        refine ⟨_, rfl, ?_⟩
        show 5 + (sectorsPerPage - (i + 1)) < _
        omega
      · refine ⟨_, rfl, ?_⟩
        show 4 < _
        omega

/-- The eviction comes to its end by itself, and a byte that it has passed stays where it
is. -/
theorem Shape.finish (hs : Shape s) (hp : Passed s b) (hn : s.left ≤ n) :
    ∃ m s', Lts.Run Step s (List.replicate m .evict) s' ∧ s'.pc = .cleared ∧
      s'.backing b = s.backing b ∧ s'.page = s.page := by
  induction n generalizing s with
  | zero =>
      by_cases hpc : s.pc = .cleared
      · exact ⟨0, s, .nil s, hpc, rfl, rfl⟩
      · obtain ⟨s', -, hlt⟩ := hs.evict_left hp hpc
        omega
  | succ n ih =>
      by_cases hpc : s.pc = .cleared
      · exact ⟨0, s, .nil s, hpc, rfl, rfl⟩
      · obtain ⟨s₁, he, hlt⟩ := hs.evict_left hp hpc
        obtain ⟨hp₁, hbacking⟩ := hs.evict_passed he hp
        obtain ⟨m, s', hrun, hcleared, hb, hpage⟩ := ih (hs.evict he) hp₁ (by omega)
        refine ⟨m + 1, s', .cons he hrun, hcleared, hb.trans hbacking, ?_⟩
        rw [hpage, evict_page he]

/-! ## The stores that are kept -/

/-- A step of which no store comes too late. -/
def StepInTime (s : State) (a : Act) (s' : State) : Prop := Step s a s' ∧ InTime s a

theorem kept_of_run (hstart : Start s₀) (hrun : Lts.Run StepInTime s₀ as s) :
    Shape s ∧ Kept s := by
  refine hrun.invariant (P := fun s => Shape s ∧ Kept s) (fun s a s' hstep hi => ?_)
    ⟨hstart.shape, hstart.kept⟩
  exact ⟨hi.1.perform hstep.1, hi.1.perform_kept hi.2 hstep.1 hstep.2⟩

theorem loadPage_of_cleared (hpc : s.pc = .cleared) : s.backing = s.loadPage := by
  unfold State.backing
  rw [hpc]

/-- As long as every store is in time, a page that is loaded again is as its owner has left
it, except for what is behind the end of a mapped file. The first store that is not in
time is lost when the eviction goes on. -/
theorem eviction_keeps_stores (hstart : Start s₀) (hrun : Lts.Run StepInTime s₀ as s) :
    (s.pc = .cleared → ∀ b, s.loadPage b = s.page b ↔
      (s.entry.type = .mmap → s.entry.readBytes.toNat ≤ b.val → s.page b = 0)) ∧
    ∀ b v s₁, Step s (.store b v) s₁ → ¬ InTime s (.store b v) →
      ∃ n s', Lts.Run Step s₁ (List.replicate n .evict) s' ∧ s'.pc = .cleared ∧
        s'.page b = v ∧ s'.loadPage b ≠ v := by
  obtain ⟨hshape, hkept⟩ := kept_of_run hstart hrun
  constructor
  · intro hpc b
    rw [← loadPage_of_cleared hpc]
    have hpassed : Passed s b := by
      unfold Passed
      rw [hpc]
      trivial
    by_cases hb : Saved s b
    · exact ⟨fun _ hmmap hle => absurd (hb hmmap) (Nat.not_lt.mpr hle),
        fun _ => hkept b hb hpassed⟩
    · obtain ⟨hmmap, hle⟩ := Classical.not_imp.mp hb
      -- behind the end of the file the page is loaded as zeros
      have hzero : s.backing b = 0 := by
        rw [loadPage_of_cleared hpc]
        unfold State.loadPage State.filePage
        rw [if_neg (by rw [hmmap]; exact nofun), if_neg hle]
      rw [hzero]
      exact ⟨fun heq _ _ => heq.symm, fun himp => (himp hmmap (Nat.not_lt.mp hle)).symm⟩
  · intro b v s₁ hstore hlate
    obtain ⟨hb, hlate⟩ := Classical.not_imp.mp hlate
    obtain ⟨hpassed, hne⟩ := Classical.not_imp.mp hlate
    have hshape₁ := hshape.perform hstore
    obtain ⟨pte, -, rfl⟩ := store_eq hstore
    obtain ⟨n, s', hend, hpc, hbacking, hpage⟩ := hshape₁.finish (b := b) hpassed le_rfl
    have hstored : s'.page b = v := by
      rw [hpage]
      exact Function.update_self ..
    refine ⟨n, s', hend, hpc, hstored, ?_⟩
    rw [← loadPage_of_cleared hpc, hbacking]
    show s.backing b ≠ v
    rw [hkept b hb hpassed]
    exact fun heq => hne heq.symm

/-! ## Two schedules -/

/-- A clean page of zeros, of an executable. -/
def cleanPage : State where
  pc := .pinned
  entry :=
    { unusedVirtualAddress := 0x08048000, type := .file, writable := true, isLoaded := true,
      pinned := false, file := 7, offset := 0, readBytes := 0, zeroBytes := 4096, swapIndex := 0 }
  page := zeroPage
  pte := some { frame := 0, writable := true, accessed := false, dirty := false }
  swap := some (startSwap 8 fun _ _ => 0)
  inode := ⟨[], by decide⟩
  denied := false

theorem cleanPage_start : Start cleanPage where
  pc := rfl
  mapped := nofun
  clean := fun _ _ _ _ => rfl
  length := nofun
  allowed := nofun

/-- Steps one after the other. -/
def steps (s : State) : List Act → Option State
  | [] => some s
  | a :: as => (perform s a).bind fun s => steps s as

theorem run_of_steps (h : steps s as = some s') : Lts.Run Step s as s' := by
  induction as generalizing s with
  | nil =>
      cases h
      exact .nil _
  | cons a as ih =>
      obtain ⟨s₁, hp, h⟩ := Option.bind_eq_some_iff.mp h
      exact .cons hp (ih h)

/-- The owner stores to the page after the test of its dirty bit. -/
def lateStore : List Act :=
  [.evict, .evict, .evict, .store 5 1, .evict, .evict, .evict, .evict]

/-- A store that comes after the test of the dirty bit is lost. -/
theorem eviction_loses_store : ¬ ∀ s₀ as s, Start s₀ → Lts.Run Step s₀ as s →
    s.pc = .cleared → ∀ b, Saved s b → s.loadPage b = s.page b := by
  intro hall
  have hrun : (steps cleanPage lateStore).map (fun s =>
      decide (s.pc = .cleared ∧ Saved s 5 ∧ s.page 5 = 1 ∧ s.loadPage 5 = 0)) = some true := by
    decide +kernel
  obtain ⟨s, hs, hstate⟩ := Option.map_eq_some_iff.mp hrun
  obtain ⟨hpc, hsaved, hpage, hload⟩ := of_decide_eq_true hstate
  have heq := hall _ _ _ cleanPage_start (run_of_steps hs) hpc 5 hsaved
  rw [hload, hpage] at heq
  exact absurd heq (by decide)

/-- All steps are in time. -/
def inTime (s : State) : List Act → Bool
  | [] => true
  | a :: as => decide (InTime s a) && (perform s a).elim false fun s => inTime s as

theorem run_inTime (h : steps s as = some s') (hin : inTime s as = true) :
    Lts.Run StepInTime s as s' := by
  induction as generalizing s with
  | nil =>
      cases h
      exact .nil _
  | cons a as ih =>
      obtain ⟨s₁, hp, h⟩ := Option.bind_eq_some_iff.mp h
      obtain ⟨ha, hrest⟩ := Bool.and_eq_true_iff.mp hin
      rw [hp] at hrest
      exact .cons ⟨hp, of_decide_eq_true ha⟩ (ih h hrest)

/-- The owner stores to the page just before. -/
def earlyStore : List Act := [.evict, .evict, .store 5 1] ++ List.replicate 17 .evict

theorem eviction_keeps_stores_run : ∃ s, Lts.Run StepInTime cleanPage earlyStore s ∧
    s.pc = .cleared ∧ s.entry.type = .swap ∧ s.page 5 = 1 ∧ s.loadPage 5 = 1 := by
  have hrun : (steps cleanPage earlyStore).map (fun s =>
      decide (s.pc = .cleared ∧ s.entry.type = .swap ∧ s.page 5 = 1)) = some true := by
    decide +kernel
  obtain ⟨s, hs, hstate⟩ := Option.map_eq_some_iff.mp hrun
  obtain ⟨hpc, htype, hpage⟩ := of_decide_eq_true hstate
  have hsteps := run_inTime hs (by decide +kernel)
  refine ⟨s, hsteps, hpc, htype, hpage, ?_⟩
  rw [← hpage]
  apply ((eviction_keeps_stores cleanPage_start hsteps).1 hpc 5).mpr
  intro hmmap
  rw [htype] at hmmap
  cases hmmap

end Pintos.Eviction
