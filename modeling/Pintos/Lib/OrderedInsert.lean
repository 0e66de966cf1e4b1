import Mathlib.Data.List.Sort
import Mathlib.Order.Basic

/-! # Insertion before the first strictly greater element

`List.orderedInsert` with a *strict* comparison puts the new element behind
every element it ties with. So a queue filled this way is stable: among equal
keys the order is the order of insertion. Mathlib's sortedness lemmas ask for
a total relation, which a strict comparison is not; the lemmas here are the
strict counterparts, for keys in any linear order.
-/

namespace OrderedInsert

universe u v

variable {α : Type u} {κ : Type v} [LinearOrder κ] {key : α → κ}

/-- Insert `x` before the first element whose key is strictly greater. -/
def insertAfterTies (key : α → κ) (x : α) (l : List α) : List α :=
  l.orderedInsert (fun a b => key a < key b) x

@[simp] theorem insertAfterTies_nil (x : α) : insertAfterTies key x [] = [x] := rfl

theorem insertAfterTies_cons (x b : α) (l : List α) :
    insertAfterTies key x (b :: l) =
      if key x < key b then x :: b :: l else b :: insertAfterTies key x l := rfl

@[simp] theorem mem_insertAfterTies {x y : α} {l : List α} :
    y ∈ insertAfterTies key x l ↔ y = x ∨ y ∈ l :=
  List.mem_orderedInsert _

theorem perm_insertAfterTies (x : α) (l : List α) :
    (insertAfterTies key x l).Perm (x :: l) :=
  List.perm_orderedInsert _ x l

theorem nodup_insertAfterTies {x : α} {l : List α} (hx : x ∉ l) (hl : l.Nodup) :
    (insertAfterTies key x l).Nodup :=
  (perm_insertAfterTies x l).nodup_iff.mpr (List.nodup_cons.mpr ⟨hx, hl⟩)

/-- Any pairwise relation that refines the key order survives the insertion,
provided it holds from the tied and smaller elements to the new one and from
the new one to the strictly greater elements. -/
theorem pairwise_insertAfterTies {R : α → α → Prop} {x : α} {l : List α}
    (hkey : ∀ a b, R a b → key a ≤ key b) (hl : l.Pairwise R)
    (hbefore : ∀ b ∈ l, key b ≤ key x → R b x)
    (hafter : ∀ b ∈ l, key x < key b → R x b) :
    (insertAfterTies key x l).Pairwise R := by
  induction l with
  | nil => simp
  | cons b l ih =>
      obtain ⟨hb, hl'⟩ := List.pairwise_cons.mp hl
      rw [insertAfterTies_cons]
      split
      next hlt =>
        -- every later element has a key at least that of `b`, so a greater one
        refine List.pairwise_cons.mpr ⟨fun c hc => hafter c hc ?_, hl⟩
        rcases List.mem_cons.mp hc with rfl | hc'
        · exact hlt
        · exact lt_of_lt_of_le hlt (hkey _ _ (hb c hc'))
      next hlt =>
        refine List.pairwise_cons.mpr ⟨?_, ih hl' ?_ ?_⟩
        · intro c hc
          rcases mem_insertAfterTies.mp hc with rfl | hc'
          · exact hbefore b (List.mem_cons_self ..) (not_lt.mp hlt)
          · exact hb c hc'
        · exact fun c hc => hbefore c (List.mem_cons_of_mem _ hc)
        · exact fun c hc => hafter c (List.mem_cons_of_mem _ hc)

/-- Insertion keeps a list sorted by its keys. -/
theorem sorted_insertAfterTies {x : α} {l : List α}
    (hl : l.Pairwise (fun a b => key a ≤ key b)) :
    (insertAfterTies key x l).Pairwise (fun a b => key a ≤ key b) :=
  pairwise_insertAfterTies (fun _ _ h => h) hl (fun _ _ h => h) (fun _ _ h => h.le)

/-- Sorted by key and, among equal keys, by arrival. -/
def BeforeInQueue (key : α → κ) (arrival : α → ℕ) (a b : α) : Prop :=
  key a < key b ∨ key a = key b ∧ arrival a < arrival b

theorem BeforeInQueue.key_le {arrival : α → ℕ} {a b : α}
    (h : BeforeInQueue key arrival a b) : key a ≤ key b := by
  rcases h with h | ⟨h, _⟩
  · exact h.le
  · exact h.le

/-- A newcomer that arrives after everybody else keeps the queue in order of
key and arrival. -/
theorem queue_insertAfterTies {arrival : α → ℕ} {x : α} {l : List α}
    (hl : l.Pairwise (BeforeInQueue key arrival))
    (hnew : ∀ b ∈ l, arrival b < arrival x) :
    (insertAfterTies key x l).Pairwise (BeforeInQueue key arrival) := by
  refine pairwise_insertAfterTies (fun _ _ h => h.key_le) hl ?_ ?_
  · intro b hb hle
    rcases hle.lt_or_eq with hlt | heq
    · exact .inl hlt
    · exact .inr ⟨heq, hnew b hb⟩
  · exact fun b _ hlt => .inl hlt

/-- A downward closed predicate selects a prefix of a sorted list. -/
theorem mem_takeWhile_of_sorted {p : α → Bool} {x : α} {l : List α}
    (hl : l.Pairwise fun a b => p b → p a) : x ∈ l.takeWhile p ↔ x ∈ l ∧ p x := by
  induction l with
  | nil => simp
  | cons b l ih =>
      rcases List.pairwise_cons.mp hl with ⟨hb, hl'⟩
      by_cases hp : p b
      · rw [List.takeWhile_cons_of_pos hp, List.mem_cons, List.mem_cons, ih hl']
        constructor
        · rintro (rfl | ⟨hx, hpx⟩)
          · exact ⟨.inl rfl, hp⟩
          · exact ⟨.inr hx, hpx⟩
        · rintro ⟨rfl | hx, hpx⟩
          · exact .inl rfl
          · exact .inr ⟨hx, hpx⟩
      · -- the front fails, so everything behind it fails too
        rw [List.takeWhile_cons_of_neg hp]
        constructor
        · intro hx
          simp at hx
        · rintro ⟨hx, hpx⟩
          rcases List.mem_cons.mp hx with rfl | hx'
          · exact absurd hpx hp
          · exact absurd (hb x hx' hpx) hp

/-- The same for the lists themselves: stopping at the first element that fails
keeps what a scan of the whole list keeps, and leaves what it leaves. -/
theorem takeWhile_eq_filter_of_sorted {p : α → Bool} {l : List α}
    (hl : l.Pairwise fun a b => p b → p a) :
    l.takeWhile p = l.filter p ∧ l.dropWhile p = l.filter fun a => !p a := by
  induction l with
  | nil => exact ⟨rfl, rfl⟩
  | cons b l ih =>
      rcases List.pairwise_cons.mp hl with ⟨hb, hl'⟩
      rcases ih hl' with ⟨htake, hdrop⟩
      by_cases hp : p b
      · constructor
        · rw [List.takeWhile_cons_of_pos hp, List.filter_cons_of_pos hp, htake]
        · rw [List.dropWhile_cons_of_pos hp, List.filter_cons_of_neg (by simpa using hp), hdrop]
      · -- the front fails, so everything behind it fails too
        have hnone : ∀ c ∈ l, ¬ p c := fun c hc hpc => hp (hb c hc hpc)
        constructor
        · rw [List.takeWhile_cons_of_neg hp, List.filter_cons_of_neg hp]
          exact (List.filter_eq_nil_iff.mpr hnone).symm
        · rw [List.dropWhile_cons_of_neg hp, List.filter_cons_of_pos (by simpa using hp)]
          have hall : l.filter (fun a => !p a) = l :=
            List.filter_eq_self.mpr fun c hc => by simpa using hnone c hc
          rw [hall]

/-! ## Repeated insertion is a stable sort -/

/-- The stable sort by the keys. -/
def stableSort (key : α → κ) (l : List α) : List α := l.mergeSort fun a b => key a ≤ key b

theorem stableSort_sorted (l : List α) :
    (stableSort key l).Pairwise fun a b => key a ≤ key b := by
  have hsorted : (stableSort key l).Pairwise fun a b => decide (key a ≤ key b) :=
    List.pairwise_mergeSort (by simpa using fun a b c => le_trans (a := key a))
      (by simpa using fun a b => le_total (key a) (key b)) l
  exact hsorted.imp fun hab => by simpa using hab

/-- Sorting is stable: the elements with one key stay in their order. -/
theorem filter_stableSort (l : List α) (c : κ) :
    (stableSort key l).filter (key · = c) = l.filter (key · = c) := by
  have hties : (l.filter (key · = c)).Pairwise fun a b => decide (key a ≤ key b) := by
    apply List.pairwise_of_forall_mem_list
    intro a ha b hb
    have hac : key a = c := by simpa using (List.mem_filter.mp ha).2
    have hbc : key b = c := by simpa using (List.mem_filter.mp hb).2
    simp [hac, hbc]
  have hsub : (l.filter (key · = c)).Sublist (stableSort key l) :=
    List.sublist_mergeSort (by simpa using fun a b c => le_trans (a := key a))
      (by simpa using fun a b => le_total (key a) (key b)) hties List.filter_sublist
  have hsub' : (l.filter (key · = c)).Sublist ((stableSort key l).filter (key · = c)) := by
    simpa using hsub.filter (key · = c)
  refine (hsub'.eq_of_length ?_).symm
  exact ((List.mergeSort_perm l _).filter _).length_eq.symm

/-- A sorted list is determined by the order within each key. -/
theorem eq_of_filter_eq {l₁ l₂ : List α} (h₁ : l₁.Pairwise fun a b => key a ≤ key b)
    (h₂ : l₂.Pairwise fun a b => key a ≤ key b)
    (h : ∀ c, l₁.filter (key · = c) = l₂.filter (key · = c)) : l₁ = l₂ := by
  have hmem : ∀ {l l' : List α}, (∀ c, l.filter (key · = c) = l'.filter (key · = c)) →
      ∀ a ∈ l, a ∈ l' := by
    intro l l' hll a ha
    have ha' : a ∈ l.filter (key · = key a) := List.mem_filter.mpr ⟨ha, by simp⟩
    rw [hll] at ha'
    exact (List.mem_filter.mp ha').1
  induction l₁ generalizing l₂ with
  | nil =>
      cases l₂ with
      | nil => rfl
      | cons b l₂ =>
          have hb := hmem (fun c => (h c).symm) b List.mem_cons_self
          cases hb
  | cons a l₁ ih =>
      cases l₂ with
      | nil =>
          have ha := hmem h a List.mem_cons_self
          cases ha
      | cons b l₂ =>
          rcases List.pairwise_cons.mp h₁ with ⟨ha, h₁'⟩
          rcases List.pairwise_cons.mp h₂ with ⟨hb, h₂'⟩
          -- both fronts have the least key
          have hab : key a ≤ key b := by
            rcases List.mem_cons.mp (hmem (fun c => (h c).symm) b List.mem_cons_self) with rfl | hm
            · exact le_rfl
            · exact ha b hm
          have hba : key b ≤ key a := by
            rcases List.mem_cons.mp (hmem h a List.mem_cons_self) with rfl | hm
            · exact le_rfl
            · exact hb a hm
          have hkey : key b = key a := le_antisymm hba hab
          have hfront := h (key a)
          simp only [List.filter_cons, hkey, decide_true, if_true, List.cons.injEq] at hfront
          rcases hfront with ⟨rfl, -⟩
          congr 1
          refine ih h₁' h₂' ?_
          intro c
          have hc := h c
          simp only [List.filter_cons] at hc
          by_cases hac : key a = c
          · simpa [hac] using hc
          · simpa [hac] using hc

/-- The newcomer goes behind its ties and moves nobody else. -/
theorem filter_insertAfterTies {x : α} {l : List α} (hl : l.Pairwise fun a b => key a ≤ key b)
    (c : κ) : (insertAfterTies key x l).filter (key · = c) = (l ++ [x]).filter (key · = c) := by
  induction l with
  | nil => rfl
  | cons b l ih =>
      rcases List.pairwise_cons.mp hl with ⟨hb, hl'⟩
      rw [insertAfterTies_cons]
      split
      next hlt =>
        rw [List.filter_append]
        by_cases hxc : key x = c
        · -- everybody behind the new element has a greater key
          have hnone : (b :: l).filter (key · = c) = [] := by
            apply List.filter_eq_nil_iff.mpr
            intro d hd
            have hxd : key x < key d := by
              rcases List.mem_cons.mp hd with rfl | hd'
              · exact hlt
              · exact lt_of_lt_of_le hlt (hb d hd')
            simpa using fun hdc => absurd hxd (by rw [hxc, hdc]; exact lt_irrefl c)
          rw [List.filter_cons_of_pos (by simpa using hxc), hnone]
          simp [hxc]
        · rw [List.filter_cons_of_neg (by simpa using hxc)]
          simp [hxc]
      next =>
        rw [List.cons_append, List.filter_cons, List.filter_cons, ih hl']

/-- Inserting one element after the other behind its ties is the stable sort of
the list followed by the newcomers. -/
theorem foldl_insertAfterTies {l xs : List α} (hl : l.Pairwise fun a b => key a ≤ key b) :
    xs.foldl (fun l x => insertAfterTies key x l) l = stableSort key (l ++ xs) := by
  suffices h : (xs.foldl (fun l x => insertAfterTies key x l) l).Pairwise
      (fun a b => key a ≤ key b) ∧ ∀ c, (xs.foldl (fun l x => insertAfterTies key x l) l).filter
      (key · = c) = (l ++ xs).filter (key · = c) by
    refine eq_of_filter_eq h.1 (stableSort_sorted _) ?_
    intro c
    rw [h.2, filter_stableSort]
  induction xs generalizing l with
  | nil => exact ⟨hl, fun c => by rw [List.foldl_nil, List.append_nil]⟩
  | cons x xs ih =>
      rcases ih (sorted_insertAfterTies (x := x) hl) with ⟨hsorted, hfilter⟩
      refine ⟨hsorted, ?_⟩
      intro c
      rw [List.foldl_cons, hfilter, List.filter_append, filter_insertAfterTies hl]
      simp only [List.filter_append, List.filter_cons, List.append_assoc]
      split
      next => rfl
      next => rfl

end OrderedInsert
