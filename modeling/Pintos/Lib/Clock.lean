import Mathlib.Data.List.Nodup
import Mathlib.Data.List.TakeWhile
import Mathlib.Tactic.Common

/-! # The clock algorithm

A hand goes round a ring of entries to choose one of them. It passes the
entries that may not be chosen, gives any other that carries a mark a second
chance by clearing the mark, and stops at the first without one. `walk_eq` says
whom it chooses, whose marks it has cleared by then and that two rounds are
enough, for marks in any state that clearing one leaves otherwise alone.
-/

namespace Clock

universe u v

variable {α : Type u} {σ : Type v}

/-- What the hand reads in a state, and the one thing it changes. -/
structure Marks (σ : Type v) (α : Type u) where
  skip : σ → α → Bool
  used : σ → α → Bool
  clear : σ → α → σ

namespace Marks

variable {m : Marks σ α} {ring l l₁ l₂ : List α} {I : σ → Prop} {s : σ} {a b v : α} {n : ℕ}

/-- The hand looks at `n` entries at most, the first of its second argument
first; behind the end of the ring it goes on at the beginning. -/
def walk (m : Marks σ α) (ring : List α) : ℕ → List α → σ → Option (α × σ)
  | 0, _, _ => none
  | _ + 1, [], _ => none
  | n + 1, a :: rest, s =>
      let next := if rest = [] then ring else rest
      if m.skip s a then walk m ring n next s
      else if m.used s a then walk m ring n next (m.clear s a)
      else some (a, s)

/-- The hand would stop here. -/
def stops (m : Marks σ α) (s : σ) (a : α) : Bool := !m.skip s a && !m.used s a

/-- Whom the hand chooses: the first without a mark or, if there is none, the
first who may be chosen at all. -/
def choice (m : Marks σ α) (ring : List α) (s : σ) : Option α :=
  (ring.find? (m.stops s)).or (ring.find? fun a => !m.skip s a)

/-- Whom the hand gives a second chance: those with a mark before the first
without one. -/
def spared (m : Marks σ α) (ring : List α) (s : σ) : List α :=
  (ring.takeWhile fun a => !m.stops s a).filter fun a => !m.skip s a

/-- Clearing the mark of an entry does nothing else to the entries of the ring.
`I` is what is known of the state. -/
structure Lawful (m : Marks σ α) (I : σ → Prop) (ring : List α) : Prop where
  keeps : ∀ s, I s → ∀ a ∈ ring, I (m.clear s a)
  skip_clear : ∀ s, I s → ∀ a ∈ ring, ∀ b ∈ ring, m.skip (m.clear s a) b = m.skip s b
  used_clear_self : ∀ s, I s → ∀ a ∈ ring, m.used (m.clear s a) a = false
  used_clear_of_ne : ∀ s, I s → ∀ a ∈ ring, ∀ b ∈ ring, a ≠ b →
    m.used (m.clear s a) b = m.used s b

/-- Only an entry that may be chosen is chosen. -/
theorem choice_some (h : m.choice ring s = some v) : v ∈ ring ∧ m.skip s v = false := by
  rcases Option.or_eq_some_iff.mp h with hfind | ⟨-, hfind⟩
  · have hstop := List.find?_some hfind
    rw [stops, Bool.and_eq_true, Bool.not_eq_true', Bool.not_eq_true'] at hstop
    exact ⟨List.mem_of_find?_eq_some hfind, hstop.1⟩
  · exact ⟨List.mem_of_find?_eq_some hfind, by simpa using List.find?_some hfind⟩

/-- Only an entry that may be chosen and has a mark is given a second chance. -/
theorem mem_spared (h : a ∈ m.spared ring s) :
    a ∈ ring ∧ m.skip s a = false ∧ m.used s a = true := by
  rcases List.mem_filter.mp h with ⟨htake, hskip⟩
  have hskip' : m.skip s a = false := by simpa using hskip
  have hpass := List.mem_takeWhile_imp htake
  refine ⟨(List.takeWhile_sublist _).subset htake, hskip', ?_⟩
  simpa [stops, hskip'] using hpass

/-! ## Clearing several marks -/

/-- What is known of a state in which the marks of `l` have been cleared. -/
theorem Lawful.foldl_clear (h : m.Lawful I ring) (hs : I s) (hl : l ⊆ ring) :
    I (l.foldl m.clear s) ∧ ∀ b ∈ ring, m.skip (l.foldl m.clear s) b = m.skip s b ∧
      (b ∈ l → m.used (l.foldl m.clear s) b = false) ∧
      (b ∉ l → m.used (l.foldl m.clear s) b = m.used s b) := by
  induction l generalizing s with
  | nil => exact ⟨hs, fun b _ => ⟨rfl, by simp, fun _ => rfl⟩⟩
  | cons a l ih =>
      have ha : a ∈ ring := hl List.mem_cons_self
      have hl' : l ⊆ ring := fun b hb => hl (List.mem_cons_of_mem a hb)
      rcases ih (h.keeps s hs a ha) hl' with ⟨hI, hmarks⟩
      refine ⟨hI, ?_⟩
      intro b hb
      rcases hmarks b hb with ⟨hskip, hin, hout⟩
      rw [List.foldl_cons]
      refine ⟨hskip.trans (h.skip_clear s hs a ha b hb), ?_, ?_⟩
      · intro hm
        by_cases hbl : b ∈ l
        · exact hin hbl
        · have hba : b = a := (List.mem_cons.mp hm).resolve_right hbl
          rw [hout hbl, hba]
          exact h.used_clear_self s hs a ha
      · intro hm
        rw [List.mem_cons, not_or] at hm
        rw [hout hm.2]
        exact h.used_clear_of_ne s hs a ha b hb (Ne.symm hm.1)

/-! ## The walk -/

/-- The hand passes entries at which it would not stop, clearing the marks of
those it may choose. Induction on the entries it passes. -/
theorem walk_append (n : ℕ) (l₂ : List α) (h : m.Lawful I ring) (hs : I s) (hl : l₁ ⊆ ring)
    (hnodup : l₁.Nodup) (hpass : ∀ a ∈ l₁, m.stops s a = false) (hne : l₁ ≠ [] ∨ l₂ ≠ []) :
    m.walk ring (n + l₁.length) (l₁ ++ l₂) s =
      m.walk ring n (if l₂ = [] then ring else l₂)
        ((l₁.filter fun a => !m.skip s a).foldl m.clear s) := by
  induction l₁ generalizing s with
  | nil =>
      have hl₂ : l₂ ≠ [] := hne.resolve_left (by simp)
      rw [if_neg hl₂]
      rfl
  | cons a l ih =>
      have ha : a ∈ ring := hl List.mem_cons_self
      have hl' : l ⊆ ring := fun b hb => hl (List.mem_cons_of_mem a hb)
      rcases List.nodup_cons.mp hnodup with ⟨hal, hnodup'⟩
      -- one entry further, in a state `s'` with the same marks on the rest
      have hnext : ∀ s', I s' → (∀ b ∈ l, m.skip s' b = m.skip s b ∧ m.used s' b = m.used s b) →
          m.walk ring (n + l.length) (if l ++ l₂ = [] then ring else l ++ l₂) s' =
            m.walk ring n (if l₂ = [] then ring else l₂)
              ((l.filter fun a => !m.skip s a).foldl m.clear s') := by
        intro s' hs' hsame
        have hfilter : l.filter (fun a => !m.skip s' a) = l.filter (fun a => !m.skip s a) :=
          List.filter_congr fun b hb => by rw [(hsame b hb).1]
        by_cases hend : l ++ l₂ = []
        · rcases List.append_eq_nil_iff.mp hend with ⟨rfl, rfl⟩
          rfl
        · rw [if_neg hend, ← hfilter]
          refine ih hs' hl' hnodup' ?_ ?_
          · intro b hb
            have hb' := hpass b (List.mem_cons_of_mem a hb)
            unfold stops at hb' ⊢
            rw [(hsame b hb).1, (hsame b hb).2]
            exact hb'
          · by_cases hempty : l = []
            · exact .inr fun hl₂ => hend (by rw [hempty, hl₂]; rfl)
            · exact .inl hempty
      rw [List.cons_append, List.length_cons, ← Nat.add_assoc, walk]
      by_cases hskip : m.skip s a = true
      · rw [if_pos hskip, List.filter_cons_of_neg (by simpa using hskip)]
        exact hnext s hs fun b _ => ⟨rfl, rfl⟩
      · have hused : m.used s a = true := by
          have hstop := hpass a List.mem_cons_self
          simpa [stops, hskip] using hstop
        rw [if_neg hskip, if_pos hused, List.filter_cons_of_pos (by simpa using hskip),
          List.foldl_cons]
        refine hnext _ (h.keeps s hs a ha) ?_
        intro b hb
        have hne' : a ≠ b := fun heq => hal (heq ▸ hb)
        exact ⟨h.skip_clear s hs a ha b (hl' hb), h.used_clear_of_ne s hs a ha b (hl' hb) hne'⟩

/-- The hand stops where it would. -/
theorem walk_stops (hstop : m.stops s v = true) :
    m.walk ring (n + 1) (v :: l) s = some (v, s) := by
  have hboth : m.skip s v = false ∧ m.used s v = false := by simpa [stops] using hstop
  rw [walk, if_neg (by simp [hboth.1]), if_neg (by simp [hboth.2])]

/-- A walk along part of the ring that ends at `v`. -/
theorem walk_part (h : m.Lawful I ring) (hs : I s) (hsplit : ring = l₁ ++ v :: l₂)
    (hnodup : ring.Nodup) (hpass : ∀ a ∈ l₁, m.stops s a = false) (hstop : m.stops s v = true)
    (hn : l₁.length < n) : m.walk ring n ring s =
      some (v, (l₁.filter fun a => !m.skip s a).foldl m.clear s) := by
  have hl₁ : l₁ ⊆ ring := by
    rw [hsplit]
    exact List.subset_append_left _ _
  have hv : v ∈ ring := by rw [hsplit]; simp
  have hvl : v ∉ l₁ := by
    rw [hsplit] at hnodup
    exact fun hm => (List.disjoint_of_nodup_append hnodup) hm List.mem_cons_self
  have hnodup₁ : l₁.Nodup := by
    rw [hsplit] at hnodup
    exact List.Nodup.of_append_left hnodup
  have hfuel : n = (n - l₁.length - 1 + 1) + l₁.length := by omega
  have hwalk := walk_append (n - l₁.length - 1 + 1) (v :: l₂) h hs hl₁ hnodup₁ hpass
    (.inr (by simp))
  rw [← hsplit, ← hfuel, if_neg (by simp)] at hwalk
  rw [hwalk]
  -- `v` is not among the entries passed, so its mark is the old one
  have hsub : l₁.filter (fun a => !m.skip s a) ⊆ ring := fun a ha => hl₁ (List.mem_of_mem_filter ha)
  rcases (h.foldl_clear hs hsub).2 v hv with ⟨hskip, -, hout⟩
  apply walk_stops
  unfold stops at hstop ⊢
  rw [hskip, hout fun hm => hvl (List.mem_of_mem_filter hm)]
  exact hstop

/-- Whom the hand chooses, and whose marks it has cleared by then. Twice as many
entries as there are in the ring are enough. -/
theorem walk_eq (h : m.Lawful I ring) (hs : I s) (hnodup : ring.Nodup)
    (hsome : ∃ a ∈ ring, m.skip s a = false) (hn : 2 * ring.length ≤ n) :
    ∃ v, m.choice ring s = some v ∧
      m.walk ring n ring s = some (v, (m.spared ring s).foldl m.clear s) := by
  unfold choice spared
  cases hfirst : ring.find? (m.stops s) with
  | some v =>
      -- the first entry without a mark is reached in the first round
      rcases List.find?_eq_some_iff_append.mp hfirst with ⟨hstop, l₁, l₂, hsplit, hpass⟩
      have hpass' : ∀ a ∈ l₁, m.stops s a = false := fun a ha => by simpa using hpass a ha
      have hlen := congrArg List.length hsplit
      rw [List.length_append, List.length_cons] at hlen
      have htake : ring.takeWhile (fun a => !m.stops s a) = l₁ := by
        rw [hsplit, List.takeWhile_append_of_pos (by simpa using hpass'),
          List.takeWhile_cons_of_neg (by simp [hstop]), List.append_nil]
      refine ⟨v, rfl, ?_⟩
      rw [htake]
      exact walk_part h hs hsplit hnodup hpass' hstop (by omega)
  | none =>
      have hpass : ∀ a ∈ ring, m.stops s a = false := by
        simpa using List.find?_eq_none.mp hfirst
      have htake : ring.takeWhile (fun a => !m.stops s a) = ring :=
        List.takeWhile_eq_self_iff.mpr (by simpa using hpass)
      rcases hsome with ⟨a, ha, hskip⟩
      have hfind : (ring.find? fun a => !m.skip s a).isSome :=
        List.find?_isSome.mpr ⟨a, ha, by simpa using hskip⟩
      rcases Option.isSome_iff_exists.mp hfind with ⟨v, hv⟩
      rcases List.find?_eq_some_iff_append.mp hv with ⟨hskipv, l₁, l₂, hsplit, hskips⟩
      refine ⟨v, by rw [hv]; rfl, ?_⟩
      rw [htake]
      -- a whole round clears every mark
      set cleared : List α := ring.filter fun a => !m.skip s a with hcleared
      have hsub : cleared ⊆ ring := fun a ha => List.mem_of_mem_filter ha
      rcases h.foldl_clear hs hsub with ⟨hI, hmarks⟩
      have hround := walk_append (n - ring.length) [] h hs (fun a ha => ha) hnodup hpass
        (.inl (List.ne_nil_of_mem ha))
      rw [List.append_nil, if_pos rfl, Nat.sub_add_cancel (by omega), ← hcleared] at hround
      rw [hround]
      -- so the second stops at the first entry that may be chosen
      have hv' : v ∈ ring := by rw [hsplit]; simp
      have hpass₂ : ∀ a ∈ l₁, m.skip (cleared.foldl m.clear s) a = true := by
        intro a ha
        have ha' : a ∈ ring := by
          rw [hsplit]
          exact List.mem_append_left _ ha
        rw [(hmarks a ha').1]
        simpa using hskips a ha
      have hlen := congrArg List.length hsplit
      rw [List.length_append, List.length_cons] at hlen
      have hstop : m.stops (cleared.foldl m.clear s) v = true := by
        rcases hmarks v hv' with ⟨hsame, hin, -⟩
        unfold stops
        rw [hsame, hin (List.mem_filter.mpr ⟨hv', hskipv⟩)]
        simpa using hskipv
      rw [walk_part h hI hsplit hnodup (fun a ha => by simp [stops, hpass₂ a ha]) hstop (by omega)]
      have hnone : l₁.filter (fun a => !m.skip (cleared.foldl m.clear s) a) = [] :=
        List.filter_eq_nil_iff.mpr fun a ha => by simpa using hpass₂ a ha
      rw [hnone]
      rfl

end Marks

end Clock
