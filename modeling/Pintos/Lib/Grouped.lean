import Mathlib.Data.List.Nodup
import Mathlib.Order.Lattice

/-! # Releasing the resource of a group behind its last item

A walk over a list that is sorted by a key. The items with one key form a group
and share a resource. The walk notices that a group is over when it visits an
item of the next one: it releases the resource in the middle of that item's
round, and the last one at the end of the list. Every group has its resource
released once, when all its items are finished.
-/

namespace Grouped

variable {α κ ρ : Type*}

/-- What the walk does. The round of an item begins with `visit` and ends with
`finish`. -/
inductive Event (α ρ : Type*) where
  | visit (a : α)
  | release (r : ρ)
  | finish (a : α)
deriving DecidableEq, Repr

/-! ## What a list of events contains -/

def visits (es : List (Event α ρ)) : List α := es.filterMap fun
  | .visit a => some a
  | _ => none

def releases (es : List (Event α ρ)) : List ρ := es.filterMap fun
  | .release r => some r
  | _ => none

def finishes (es : List (Event α ρ)) : List α := es.filterMap fun
  | .finish a => some a
  | _ => none

section

variable {es fs : List (Event α ρ)} {a b : α} {r : ρ}

@[simp] theorem visits_nil : visits ([] : List (Event α ρ)) = [] := rfl

@[simp] theorem releases_nil : releases ([] : List (Event α ρ)) = [] := rfl

@[simp] theorem finishes_nil : finishes ([] : List (Event α ρ)) = [] := rfl

@[simp] theorem visits_visit : visits (.visit a :: es) = a :: visits es := rfl

@[simp] theorem visits_release : visits (.release r :: es) = visits es := rfl

@[simp] theorem visits_finish : visits (.finish a :: es) = visits es := rfl

@[simp] theorem releases_visit : releases (.visit a :: es) = releases es := rfl

@[simp] theorem releases_release : releases (.release r :: es) = r :: releases es := rfl

@[simp] theorem releases_finish : releases (.finish a :: es) = releases es := rfl

@[simp] theorem finishes_visit : finishes (.visit a :: es) = finishes es := rfl

@[simp] theorem finishes_release : finishes (.release r :: es) = finishes es := rfl

@[simp] theorem finishes_finish : finishes (.finish a :: es) = a :: finishes es := rfl

@[simp] theorem visits_append : visits (es ++ fs) = visits es ++ visits fs := List.filterMap_append

@[simp] theorem releases_append : releases (es ++ fs) = releases es ++ releases fs :=
  List.filterMap_append

@[simp] theorem finishes_append : finishes (es ++ fs) = finishes es ++ finishes fs :=
  List.filterMap_append

theorem mem_visits : a ∈ visits es ↔ .visit a ∈ es := by
  induction es with
  | nil => simp
  | cons x es ih => cases x <;> simp [ih]

theorem mem_releases : r ∈ releases es ↔ .release r ∈ es := by
  induction es with
  | nil => simp
  | cons x es ih => cases x <;> simp [ih]

theorem mem_finishes : a ∈ finishes es ↔ .finish a ∈ es := by
  induction es with
  | nil => simp
  | cons x es ih => cases x <;> simp [ih]

end

/-! ## The walk -/

/-- Release what is pending. -/
def releasing (pending : Option (κ × ρ)) : List (Event α ρ) :=
  pending.toList.map fun p => .release p.2

section

variable {pending : Option (κ × ρ)}

@[simp] theorem visits_releasing : visits (releasing pending : List (Event α ρ)) = [] := by
  cases pending <;> rfl

@[simp] theorem finishes_releasing : finishes (releasing pending : List (Event α ρ)) = [] := by
  cases pending <;> rfl

@[simp] theorem releases_releasing :
    releases (releasing pending : List (Event α ρ)) = (pending.map Prod.snd).toList := by
  cases pending <;> rfl

end

section Walk

variable [DecidableEq κ] (key : α → κ) (resource : α → ρ)

/-- The walk. `pending` is the key and the resource of the group of the last item. -/
def walk : List α → Option (κ × ρ) → List (Event α ρ)
  | [], pending => releasing pending
  | a :: rest, pending =>
      if pending.map Prod.fst = some (key a) then
        .visit a :: .finish a :: walk rest pending
      else
        .visit a :: (releasing pending ++ .finish a :: walk rest (some (key a, resource a)))

variable {key resource} {l : List α} {pending : Option (κ × ρ)} {a : α}

/-- An item of the pending group. -/
theorem walk_same (h : pending.map Prod.fst = some (key a)) :
    walk key resource (a :: l) pending = .visit a :: .finish a :: walk key resource l pending :=
  if_pos h

/-- The first item of a group. -/
theorem walk_next (h : pending.map Prod.fst ≠ some (key a)) :
    walk key resource (a :: l) pending =
      .visit a :: (releasing pending ++ .finish a :: walk key resource l (some (key a, resource a))) :=
  if_neg h

theorem walk_cons : ∃ es, walk key resource (a :: l) pending = .visit a :: es := by
  unfold walk
  split
  next => exact ⟨_, rfl⟩
  next => exact ⟨_, rfl⟩

/-- Every item is visited, in the order of the list. -/
theorem visits_walk : visits (walk key resource l pending) = l := by
  induction l generalizing pending with
  | nil => exact visits_releasing
  | cons a rest ih =>
      unfold walk
      split
      next => rw [visits_visit, visits_finish, ih]
      next => rw [visits_visit, visits_append, visits_releasing, visits_finish, ih, List.nil_append]

theorem finishes_walk : finishes (walk key resource l pending) = l := by
  induction l generalizing pending with
  | nil => exact finishes_releasing
  | cons a rest ih =>
      unfold walk
      split
      next => rw [finishes_visit, finishes_finish, ih]
      next =>
        rw [finishes_visit, finishes_append, finishes_releasing, finishes_finish, ih,
          List.nil_append]

end Walk

/-! ## Sorted lists -/

section Sorted

variable [LinearOrder κ] {key : α → κ} {resource : α → ρ} {l : List α}
  {pending : Option (κ × ρ)} {a : α} {r : ρ}

/-- The list is sorted by the key, behind the pending group, and two items have the
same resource exactly if they are of the same group. -/
structure Sorted (key : α → κ) (resource : α → ρ) (l : List α) (pending : Option (κ × ρ)) : Prop where
  le : l.Pairwise fun a b => key a ≤ key b
  same : ∀ a ∈ l, ∀ b ∈ l, key a = key b ↔ resource a = resource b
  pending_le : ∀ p, pending = some p → ∀ a ∈ l, p.1 ≤ key a
  pending_same : ∀ p, pending = some p → ∀ a ∈ l, p.1 = key a ↔ p.2 = resource a

namespace Sorted

/-- The next item is of the pending group. -/
theorem stay (h : Sorted key resource (a :: l) pending) : Sorted key resource l pending where
  le := (List.pairwise_cons.mp h.le).2
  same := fun x hx y hy => h.same x (List.mem_cons_of_mem a hx) y (List.mem_cons_of_mem a hy)
  pending_le := fun p hp x hx => h.pending_le p hp x (List.mem_cons_of_mem a hx)
  pending_same := fun p hp x hx => h.pending_same p hp x (List.mem_cons_of_mem a hx)

/-- It begins a new one. -/
theorem move (h : Sorted key resource (a :: l) pending) :
    Sorted key resource l (some (key a, resource a)) where
  le := (List.pairwise_cons.mp h.le).2
  same := h.stay.same
  pending_le := by
    rintro p ⟨⟩ x hx
    exact (List.pairwise_cons.mp h.le).1 x hx
  pending_same := by
    rintro p ⟨⟩ x hx
    exact h.same a List.mem_cons_self x (List.mem_cons_of_mem a hx)

end Sorted

/-- What is released are the resources of the items, and what was pending. -/
theorem mem_releases_walk (h : Sorted key resource l pending) :
    r ∈ releases (walk key resource l pending) ↔
      pending.map Prod.snd = some r ∨ ∃ a ∈ l, resource a = r := by
  induction l generalizing pending with
  | nil => cases pending <;> simp [walk, eq_comm]
  | cons a rest ih =>
      unfold walk
      split
      next hkey =>
        obtain ⟨p, rfl, hp⟩ := Option.map_eq_some_iff.mp hkey
        have hres : p.2 = resource a := (h.pending_same p rfl a List.mem_cons_self).mp hp
        rw [releases_visit, releases_finish, ih h.stay, Option.map_some, hres]
        simp
      next =>
        rw [releases_visit, releases_append, releases_finish, List.mem_append, ih h.move]
        simp [eq_comm]

/-- Nothing is released twice. -/
theorem nodup_releases_walk (h : Sorted key resource l pending) :
    (releases (walk key resource l pending)).Nodup := by
  induction l generalizing pending with
  | nil => cases pending <;> simp [walk]
  | cons a rest ih =>
      unfold walk
      split
      next => exact ih h.stay
      next hkey =>
        rw [releases_visit, releases_append, releases_finish, releases_releasing]
        refine List.nodup_append.mpr ⟨?_, ih h.move, ?_⟩
        · cases pending <;> simp
        · rintro r hr _ hmem rfl
          obtain ⟨p, rfl, rfl⟩ := Option.map_eq_some_iff.mp (Option.mem_toList.mp hr)
          have hne : p.1 ≠ key a := by
            rintro heq
            exact hkey (by rw [Option.map_some, heq])
          -- the group that is over is not met again
          rcases (mem_releases_walk h.move).mp hmem with hmove | ⟨b, hb, hres⟩
          · exact hne ((h.pending_same p rfl a List.mem_cons_self).mpr
              (Option.some.inj hmove).symm)
          · have hpb : p.1 = key b :=
              (h.pending_same p rfl b (List.mem_cons_of_mem a hb)).mpr hres.symm
            have hpa := h.pending_le p rfl a List.mem_cons_self
            have hab := (List.pairwise_cons.mp h.le).1 b hb
            exact hne (le_antisymm hpa (hpb ▸ hab))

/-- The round of an item is over when the resource of its group is released. -/
theorem sublist_walk (h : Sorted key resource l pending) (ha : a ∈ l) :
    [.visit a, .finish a, .release (resource a)].Sublist (walk key resource l pending) := by
  induction l generalizing pending with
  | nil => cases ha
  | cons b rest ih =>
      unfold walk
      split
      next hkey =>
        rcases List.mem_cons.mp ha with rfl | hmem
        · refine ((List.singleton_sublist.mpr ?_).cons_cons _).cons_cons _
          obtain ⟨p, rfl, hp⟩ := Option.map_eq_some_iff.mp hkey
          have hres : p.2 = resource a := (h.pending_same p rfl a List.mem_cons_self).mp hp
          exact mem_releases.mp ((mem_releases_walk h.stay).mpr (.inl (congrArg some hres)))
        · exact ((ih h.stay hmem).cons _).cons _
      next =>
        rcases List.mem_cons.mp ha with rfl | hmem
        · refine List.Sublist.cons_cons _ (List.Sublist.trans ?_ (List.sublist_append_right ..))
          refine (List.singleton_sublist.mpr ?_).cons_cons _
          exact mem_releases.mp ((mem_releases_walk h.move).mpr (.inl rfl))
        · refine List.Sublist.cons _ (List.Sublist.trans ?_ (List.sublist_append_right ..))
          exact (ih h.move hmem).cons _

/-- What comes after something that is not in the first part is in the second. -/
theorem sublist_of_notMem {ε : Type*} {x : ε} {l es fs : List ε} (hx : x ∉ es)
    (h : (x :: l).Sublist (es ++ fs)) : (x :: l).Sublist fs := by
  obtain ⟨l₁, l₂, heq, h₁, h₂⟩ := List.sublist_append_iff.mp h
  cases l₁ with
  | nil =>
      rw [heq]
      exact h₂
  | cons y l₁ =>
      cases heq
      exact absurd (h₁.subset List.mem_cons_self) hx

section Parts

variable {es fs : List (Event α ρ)} (h : Sorted key resource l pending) (hl : l.Nodup)
include h hl

/-- A round that is over has begun. -/
theorem visited_of_finished (hes : walk key resource l pending = es ++ fs)
    (ha : a ∈ finishes es) : a ∈ visits es := by
  by_contra hvisit
  have hfinishes : (finishes es ++ finishes fs).Nodup := by
    rw [← finishes_append, ← hes, finishes_walk]
    exact hl
  have hmem : a ∈ finishes (walk key resource l pending) := by
    rw [hes, finishes_append]
    exact List.mem_append_left _ ha
  rw [finishes_walk] at hmem
  have hround := sublist_walk h hmem
  rw [hes] at hround
  have hahead := sublist_of_notMem (fun hmem => hvisit (mem_visits.mpr hmem)) hround
  exact List.disjoint_of_nodup_append hfinishes ha (mem_finishes.mpr (hahead.subset (by simp)))

/-- Before an item is visited, its resource has not been released. -/
theorem before_visit (hes : walk key resource l pending = es ++ .visit a :: fs) :
    a ∉ visits es ∧ resource a ∉ releases es := by
  have hvisits : (visits es ++ visits (.visit a :: fs)).Nodup := by
    rw [← visits_append, ← hes, visits_walk]
    exact hl
  have hreleases : (releases es ++ releases (.visit a :: fs)).Nodup := by
    rw [← releases_append, ← hes]
    exact nodup_releases_walk h
  have hvisit : a ∉ visits es := fun hmem =>
    List.disjoint_of_nodup_append hvisits hmem (by rw [visits_visit]; exact List.mem_cons_self)
  have hmem : a ∈ visits (walk key resource l pending) := by
    rw [hes]
    simp
  rw [visits_walk] at hmem
  have hround := sublist_walk h hmem
  rw [hes] at hround
  have hahead := sublist_of_notMem (fun hmem => hvisit (mem_visits.mpr hmem)) hround
  exact ⟨hvisit, fun hrel => List.disjoint_of_nodup_append hreleases hrel
    (mem_releases.mpr (hahead.subset (by simp)))⟩

end Parts

end Sorted

end Grouped
