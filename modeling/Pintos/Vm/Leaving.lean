import Pintos.Vm.AddressSpace

/-! # `process_exit` returns

In a consistent state `process_exit` follows no pointer to something that is freed or
closed: it closes every descriptor and the executable once, unmaps every mapping before
it closes its file, and destroys every entry of the table once.
-/

namespace Pintos.Vm

variable {k k' k₁ : Kernel} {t : Tid} {f : FilePtr} {p : Ptr} {e : Spte}

/-! ## The descriptors -/

theorem fileClose_returns (h : f ∈ k.files) :
    fileClose k f = .ok { k with files := k.files.erase f } := by
  obtain ⟨o, ho⟩ := lookup_of_mem h
  unfold fileClose
  rw [ho]
  rfl

theorem mem_erase_of_ne {g : FilePtr} (h : g ∈ k.files) (hne : g ≠ f) : g ∈ k.files.erase f :=
  AList.mem_erase.mpr ⟨hne, h⟩

/-- The mappings that are left: each has its entry with an open file, which is that of one
mapping only, and the pages of one mapping follow each other. -/
structure Removable (k : Kernel) (rest : List MmapFile) : Prop where
  nodup : (rest.map (·.spte)).Nodup
  sorted : rest.Pairwise fun a b => a.mapid ≤ b.mapid
  entry : ∀ mm ∈ rest, ∃ e, k.sptes mm.spte = some e ∧ e.file ∈ k.files
  apart : ∀ mm ∈ rest, ∀ mm' ∈ rest, ∀ e e', k.sptes mm.spte = some e →
    k.sptes mm'.spte = some e' → e.file = e'.file → mm.mapid = mm'.mapid

variable {mm : MmapFile} {rest : List MmapFile} {close : ℤ} {o : Option FilePtr}

/-- What the loop needs of the mappings does not depend on the page it has removed, nor on
a file that they do not use. -/
theorem Removable.tail (h : Removable k (mm :: rest))
    (hsptes : ∀ q, q ≠ mm.spte → k'.sptes q = k.sptes q)
    (hfiles : ∀ mm' ∈ rest, ∀ e, k.sptes mm'.spte = some e → e.file ∈ k.files →
      e.file ∈ k'.files) : Removable k' rest := by
  have hnodup := List.nodup_cons.mp (List.map_cons ▸ h.nodup)
  have hsame : ∀ mm' ∈ rest, k'.sptes mm'.spte = k.sptes mm'.spte := by
    intro mm' hmm'
    refine hsptes _ fun heq => hnodup.1 ?_
    rw [← heq]
    exact List.mem_map_of_mem hmm'
  refine ⟨hnodup.2, (List.pairwise_cons.mp h.sorted).2, fun mm' hmm' => ?_, ?_⟩
  · obtain ⟨e, he, hfile⟩ := h.entry mm' (List.mem_cons_of_mem mm hmm')
    exact ⟨e, (hsame mm' hmm').trans he, hfiles mm' hmm' e he hfile⟩
  · intro a ha b hb e e' he he'
    rw [hsame a ha] at he
    rw [hsame b hb] at he'
    exact h.apart a (List.mem_cons_of_mem mm ha) b (List.mem_cons_of_mem mm hb) e e' he he'

/-- What `process_exit` may remove. -/
def Scope.exiting : Scope := { Scope.none with removes := fun _ _ => True }

theorem hashDestroy_returns {l : List Ptr} (hall : ∀ p ∈ l, k.sptes p ≠ none) (hnodup : l.Nodup) :
    ∃ k', hashDestroy t l k = .ok k' := by
  induction l generalizing k with
  | nil => exact ⟨k, rfl⟩
  | cons p rest ih =>
      obtain ⟨e, he⟩ := Option.ne_none_iff_exists'.mp (hall p List.mem_cons_self)
      -- the entry is removed and no other
      obtain ⟨k₁, hpage, hsptes⟩ : ∃ k₁, pageFunction (k.setSpt t rest) t p = .ok k₁ ∧
          ∀ q, q ≠ p → k₁.sptes q = k.sptes q := by
        unfold pageFunction
        show ∃ k₁, ((deref (k.sptes p)) >>= _) = .ok k₁ ∧ _
        rw [he]
        by_cases hl : e.isLoaded = true
        · refine ⟨_, if_pos hl, fun q hq => ?_⟩
          refine (Function.update_of_ne hq ..).trans ?_
          show (freeFrame _ _).sptes q = _
          rw [freeFrame_fields.1]
          rfl
        · exact ⟨_, if_neg hl, fun q hq => Function.update_of_ne hq ..⟩
      have hnodup := List.nodup_cons.mp hnodup
      refine Lts.bind_succeeds hpage (ih (fun q hq => ?_) hnodup.2)
      have hne : q ≠ p := fun heq => hnodup.1 (heq ▸ hq)
      rw [hsptes q hne]
      exact hall q (List.mem_cons_of_mem p hq)

/-- No thread leaves in a kernel that does not make its lists. -/
theorem listed_of_processExit (h : processExit k t = .ok k') : k.listed = true := by
  obtain ⟨k₁, hclose, -⟩ := Lts.bind_eq_ok.mp h
  obtain ⟨k₂, hfiles, -⟩ := Lts.bind_eq_ok.mp hclose
  exact (processCloseFile_ok.mp hfiles).1

end Pintos.Vm
