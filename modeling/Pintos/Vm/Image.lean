import Pintos.Vm.PinnedPages
import Pintos.Vm.ReadOnly

/-! # The image of a process

A page of a process that does not belong to a mapping keeps its entry until the process
leaves: whatever other processes do, and however often it is evicted, it holds what it
started with and what the process has stored in it since, and may be written or not as
its entry said when it was made.
-/

namespace Pintos.Vm

variable {k k' k₁ : Kernel} {t u : Tid} {p q : Ptr} {e x y : Spte} {va : Vaddr} {page : Page}
  {w : Bool} {R : Scope} {a : Act} {pte : Pte}

/-- The entry of a page at `va` that is not one of a mapping. -/
structure Spte.Private (e : Spte) (va : Vaddr) (w : Bool) : Prop where
  address : e.unusedVirtualAddress = va
  type : e.type ≠ .mmap
  writable : e.writable = w

/-- The process has a page at `va` that started with these contents. -/
structure Image (k : Kernel) (t : Tid) (va : Vaddr) (page : Page) (w : Bool) : Prop where
  entry : ∃ p e, Entry k t p e ∧ e.Private va w
  initial : initialPage k.hist t va = page

theorem Saved.private {fte : FrameTblEnt} {e' : Spte} {b : Bool} (hs : Saved k fte e e' k')
    (he : e.Private va w) : { e' with isLoaded := b }.Private va w := by
  cases hs with
  | clean => exact ⟨he.address, he.type, he.writable⟩
  | written => exact ⟨he.address, he.type, he.writable⟩
  | swapped => exact ⟨he.address, nofun, he.writable⟩

/-- One entry of the heap changes its looks. -/
theorem private_update (he : Entry k t p e) (hprivate : e.Private va w) (hspt : k'.spt = k.spt)
    (hsptes : k'.sptes = Function.update k.sptes q (some y)) (hx : k.sptes q = some x)
    (hy : x.Private va w → y.Private va w) : ∃ p e, Entry k' t p e ∧ e.Private va w := by
  have hmem : p ∈ k'.spt t := hspt ▸ he.mem
  by_cases hp : p = q
  · subst hp
    obtain rfl := he.eq_of_at hx
    exact ⟨p, y, ⟨hmem, by rw [hsptes, Function.update_self]⟩, hy hprivate⟩
  · exact ⟨p, e, ⟨hmem, by rw [hsptes, Function.update_of_ne hp]; exact he.at_ptr⟩, hprivate⟩

theorem Change.private (h : Sound k) (hc : Change R k k') (ht : k.status t ≠ .exiting)
    (he : Entry k t p e) (hprivate : e.Private va w) :
    ∃ p e, Entry k' t p e ∧ e.Private va w := by
  have hloaded : ∀ {x : Spte} {b : Bool}, x.Private va w → { x with isLoaded := b }.Private va w :=
    fun hx => ⟨hx.address, hx.type, hx.writable⟩
  cases hc with
  | @pin q x pinned hx =>
      exact private_update he hprivate rfl rfl hx fun hx => ⟨hx.address, hx.type, hx.writable⟩
  | @cell q o hq =>
      have hne : p ≠ q := hq.ne he.mem
      exact ⟨p, e, ⟨he.mem, (Function.update_of_ne hne ..).trans he.at_ptr⟩, hprivate⟩
  | @evict fte x x' k₁ hfte hx hstatus hs =>
      obtain ⟨swap, inodes, rfl⟩ := (saved_of_savePage hs).frame
      exact private_update he hprivate rfl rfl hx (saved_of_savePage hs).private
  | discard hfte hx => exact private_update he hprivate rfl rfl hx hloaded
  | readIn hx => exact private_update he hprivate rfl rfl hx.at_ptr hloaded
  | swapIn hx => exact private_update he hprivate rfl rfl hx.at_ptr hloaded
  | swapInNothing page hx => exact private_update he hprivate rfl rfl hx.at_ptr hloaded
  | @growStack u q x frame page hq =>
      have hne : p ≠ q := hq.ne he.mem
      exact ⟨p, e, ⟨mem_insertEntry.mpr (.inl he.mem),
        (Function.update_of_ne hne ..).trans he.at_ptr⟩, hprivate⟩
  | addFile => exact ⟨p, e, ⟨mem_insertEntry.mpr (.inl he.mem), he.at_ptr⟩, hprivate⟩
  | addMmap => exact ⟨p, e, ⟨mem_insertEntry.mpr (.inl he.mem), he.at_ptr⟩, hprivate⟩
  | @removeMapping u mm x hmm hx =>
      have hr := h.removes_forgetMapping hmm hx
      have hne : p ≠ mm.spte := by
        rintro rfl
        obtain rfl := he.eq_of_at hx
        obtain ⟨y, hy, ⟨hty, -⟩ | ⟨-, -, hno⟩⟩ := h.mappings.entry u mm hmm
        · obtain rfl := he.eq_of_at hy
          exact hprivate.type hty
        · exact hno t he.mem
      exact ⟨p, e, ⟨(hr.spt t p).mpr ⟨he.mem, hne⟩, (hr.sptes p hne).trans he.at_ptr⟩, hprivate⟩
  | @destroy u q rest x hexit hspt hx hl hmm =>
      have hr := h.removes_destroy hspt hmm
      have hne : p ≠ q := by
        rintro rfl
        have hq : p ∈ k.spt u := by
          rw [hspt]
          exact List.mem_cons_self
        rw [h.tables.apart _ _ _ hq he.mem] at hexit
        exact ht hexit
      exact ⟨p, e, ⟨(hr.spt t p).mpr ⟨he.mem, hne⟩, (hr.sptes p hne).trans he.at_ptr⟩, hprivate⟩
  | _ => exact ⟨p, e, ⟨he.mem, he.at_ptr⟩, hprivate⟩

namespace Image

theorem change (h : Sound k) (hc : Change R k k') (ht : k.status t ≠ .exiting)
    (hi : Image k t va page w) : Image k' t va page w := by
  obtain ⟨p, e, he, hprivate⟩ := hi.entry
  refine ⟨hc.private h ht he hprivate, ?_⟩
  -- an entry that is there keeps another one for its page out
  have hsame := (hc.samePage he).initialPage
  rw [hprivate.address] at hsame
  exact hsame.trans hi.initial

theorem changes (h : Sound k) (hc : Changes R k k') (ht : k.status t ≠ .exiting)
    (hi : Image k t va page w) : Image k' t va page w := by
  have hgen : (Sound k' ∧ k'.status t ≠ .exiting) ∧ Image k' t va page w := by
    refine hc.invariant (P := fun x => (Sound x ∧ x.status t ≠ .exiting) ∧ Image x t va page w)
      (fun x y hxy hx => ⟨⟨hx.1.1.change hxy, ?_⟩, hx.2.change hx.1.1 hxy hx.1.2⟩) ⟨⟨h, ht⟩, hi⟩
    rw [hxy.status]
    exact hx.1.2
  exact hgen.2

/-- What it reads stays the same. -/
theorem same (hi : Image k t va page w) (hspt : k'.spt = k.spt) (hsptes : k'.sptes = k.sptes)
    (hinitial : initialPage k'.hist t va = initialPage k.hist t va) : Image k' t va page w := by
  obtain ⟨p, e, he, hprivate⟩ := hi.entry
  exact ⟨⟨p, e, ⟨hspt ▸ he.mem, hsptes ▸ he.at_ptr⟩, hprivate⟩, hinitial.trans hi.initial⟩

/-- Only a process that is there has pages. -/
theorem present (h : Sound k) (hi : Image k t va page w) : k.status t ≠ .absent := by
  obtain ⟨p, e, he, -⟩ := hi.entry
  exact h.tables.living t p he.mem

/-- The image of a process stays until the process leaves. -/
theorem step (h : Settled k) (hs : Step k a k') (hno : a ≠ .processExit t)
    (hi : Image k t va page w) : Image k' t va page w := by
  have ht := h.noneExiting t
  cases step_effect h.sound h.noneExiting hs with
  | changes ha hc => exact hi.changes h.sound hc ht
  | killed ha hal hc => exact (hi.changes h.sound hc ht).same rfl rfl rfl
  | store hst =>
      obtain ⟨pte, -, -, rfl⟩ := userStore_ok hst
      exact hi.same rfl rfl rfl
  | write hf ho =>
      obtain ⟨-, -, hspt, hsptes⟩ := write_fields (k := k)
      exact hi.same hspt hsptes (by rw [write_pages.2.2])
  | @start u exe segments env file _ hu hfile hc =>
      have hne : t ≠ u := by
        rintro rfl
        exact hi.present h.sound hu
      have hst : (startProcess k u file exe).status t = k.status t := Function.update_of_ne hne ..
      have hi₀ : Image (startProcess k u file exe) t va page w := hi.same rfl rfl rfl
      exact hi₀.changes (h.sound.start hu hfile) hc (by rw [hst]; exact ht)
  | @leave u k₁ hu hc hspt hmmap hfiles =>
      have hne : t ≠ u := by
        rintro rfl
        exact hno rfl
      have hst : (k.setStatus u .exiting).status t = k.status t := Function.update_of_ne hne ..
      have hi₀ : Image (k.setStatus u .exiting) t va page w := hi.same rfl rfl rfl
      have hk₀ : Sound (k.setStatus u .exiting) := h.sound.setStatus (.inr hu) (by decide)
      exact (hi₀.changes hk₀ hc (by rw [hst]; exact ht)).same rfl rfl rfl

/-- What is in memory at the page, and whether it may be written. -/
theorem memory (h : Healthy k) (hi : Image k t va page w) (hpte : k.pteOf t va = some pte) :
    pte.writable = w ∧
      ∀ b, k.mem pte.frame b = (lastStored k.hist t va b).getD (page b) := by
  obtain ⟨p, e, he, rfl, hty, rfl⟩ := hi.entry
  have hlive := h.settled.live he
  have hcontent := (h.contents t p e hlive he hty).resident pte hpte
  refine ⟨h.permits t p e he pte hpte, fun b => ?_⟩
  have hext : e.extent = pgSize := if_neg hty
  have hb := hcontent b (by rw [hext]; exact b.isLt)
  unfold contents at hb
  rw [hi.initial] at hb
  exact hb

end Image

end Pintos.Vm
