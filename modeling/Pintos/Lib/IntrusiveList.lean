import Mathlib.Data.List.Nodup
import Mathlib.Logic.Function.Basic
import Mathlib.Tactic.Common

/-! # Doubly linked lists with two sentinels

The elements of a list are nodes of a heap with two links each; a list is given
by the two nodes that stand before its first and behind its last element. The
links of the outer side of a sentinel are null. An operation fails where the
code asserts something that does not hold, or follows a null link.
-/

namespace Intrusive

universe u

variable {N : Type u}

/-- The links of all nodes; `none` is a null pointer. -/
structure Links (N : Type u) where
  prev : N → Option N
  next : N → Option N

/-- The sentinels of a list. -/
structure Ends (N : Type u) where
  head : N
  tail : N

/-- The nodes of a list with the elements `xs`. -/
def Ends.nodes (l : Ends N) (xs : List N) : List N := l.head :: (xs ++ [l.tail])

theorem Ends.mem_nodes {l : Ends N} {xs : List N} {m : N} :
    m ∈ l.nodes xs ↔ m = l.head ∨ m ∈ xs ∨ m = l.tail := by
  unfold Ends.nodes
  rw [List.mem_cons, List.mem_append, List.mem_singleton]

/-- The links read in the other direction. -/
def Links.flip (h : Links N) : Links N := ⟨h.next, h.prev⟩

section Operations

variable [DecidableEq N]

def Links.setPrev (h : Links N) (a : N) (o : Option N) : Links N :=
  { h with prev := Function.update h.prev a o }

def Links.setNext (h : Links N) (a : N) (o : Option N) : Links N :=
  { h with next := Function.update h.next a o }

/-- `list_init`. -/
def listInit (h : Links N) (l : Ends N) : Links N :=
  (((h.setPrev l.head none).setNext l.head (some l.tail)).setPrev l.tail (some l.head)).setNext
    l.tail none

/-- `list_insert`; `before` is an interior element or a tail. -/
def listInsert (h : Links N) (before elem : N) : Option (Links N) :=
  match h.prev before with
  | none => none
  | some p =>
      some ((((h.setPrev elem (some p)).setNext elem (some before)).setNext p (some elem)).setPrev
        before (some elem))

/-- `list_push_back`. -/
def listPushBack (h : Links N) (l : Ends N) (elem : N) : Option (Links N) :=
  listInsert h l.tail elem

/-- `list_remove`; `elem` is an interior element. -/
def listRemove (h : Links N) (elem : N) : Option (Links N) :=
  match h.prev elem, h.next elem with
  | some p, some n => some ((h.setNext p (some n)).setPrev n (some p))
  | _, _ => none

/-- `list_empty`. -/
def listEmpty (h : Links N) (l : Ends N) : Bool := decide (h.next l.head = some l.tail)

/-- `list_pop_front`, which asserts that the list is not empty. -/
def listPopFront (h : Links N) (l : Ends N) : Option (N × Links N) :=
  if listEmpty h l then none
  else
    match h.next l.head with
    | none => none
    | some front => (listRemove h front).map fun h => (front, h)

/-- The loop `for (e = from; e != stop; e = step (e)) if (found (e)) return e;`
with at most so many rounds: the nodes it reads, and what it returns. -/
def search (step : N → Option N) (stop : N) (found : N → Bool) :
    ℕ → N → Option (List N × Option N)
  | 0, _ => none
  | rounds + 1, e =>
      if e = stop then some ([], none)
      else if found e then some ([e], some e)
      else
        match step e with
        | none => none
        | some e' => (search step stop found rounds e').map fun r => (e :: r.1, r.2)

end Operations

/-! ## Segments -/

/-- Two nodes are neighbours. -/
def Links.Linked (h : Links N) (a b : N) : Prop := h.next a = some b ∧ h.prev b = some a

/-- The nodes `xs` are what lies between `a` and `b`. -/
def Links.Segment (h : Links N) : N → List N → N → Prop
  | a, [], b => h.Linked a b
  | a, x :: xs, b => h.Linked a x ∧ h.Segment x xs b

variable {h h' : Links N} {a b e p n : N} {xs ys : List N} {l : Ends N} {found : N → Bool}

theorem segment_append : h.Segment a (xs ++ e :: ys) b ↔ h.Segment a xs e ∧ h.Segment e ys b := by
  induction xs generalizing a with
  | nil => exact Iff.rfl
  | cons x xs ih =>
      show h.Linked a x ∧ h.Segment x (xs ++ e :: ys) b ↔ (h.Linked a x ∧ h.Segment x xs e) ∧ _
      rw [ih, and_assoc]

theorem segment_flip (hs : h.Segment a xs b) : h.flip.Segment b xs.reverse a := by
  induction xs generalizing a with
  | nil => exact ⟨hs.2, hs.1⟩
  | cons x xs ih =>
      rw [List.reverse_cons]
      exact segment_append.mpr ⟨ih hs.2, hs.1.2, hs.1.1⟩

/-- A segment depends on the links that point into it from its two ends. -/
theorem Links.Segment.frame (hs : h.Segment a xs b) (hnext : ∀ m ∈ a :: xs, h'.next m = h.next m)
    (hprev : ∀ m ∈ xs ++ [b], h'.prev m = h.prev m) : h'.Segment a xs b := by
  induction xs generalizing a with
  | nil =>
      constructor
      · rw [hnext a List.mem_cons_self]
        exact hs.1
      · rw [hprev b List.mem_cons_self]
        exact hs.2
  | cons x xs ih =>
      refine ⟨⟨?_, ?_⟩, ih hs.2 (fun m hm => hnext m (List.mem_cons_of_mem a hm))
        fun m hm => hprev m (List.mem_cons_of_mem x hm)⟩
      · rw [hnext a List.mem_cons_self]
        exact hs.1.1
      · rw [hprev x List.mem_cons_self]
        exact hs.1.2

theorem Links.Segment.prev (hs : h.Segment a xs b) : ∃ p ∈ a :: xs, h.prev b = some p := by
  induction xs generalizing a with
  | nil => exact ⟨a, List.mem_cons_self, hs.2⟩
  | cons x xs ih =>
      obtain ⟨p, hp, hprev⟩ := ih hs.2
      exact ⟨p, List.mem_cons_of_mem a hp, hprev⟩

theorem Links.Segment.next (hs : h.Segment a xs b) : ∃ n ∈ xs ++ [b], h.next a = some n := by
  cases xs with
  | nil => exact ⟨b, List.mem_cons_self, hs.1⟩
  | cons x xs => exact ⟨x, List.mem_cons_self, hs.1.1⟩

/-- The node behind the first one of a segment. -/
theorem Links.Segment.next_eq (hs : h.Segment a xs b) : h.next a = (xs ++ [b]).head? := by
  cases xs with
  | nil => exact hs.1
  | cons x xs => exact hs.1.1

theorem Links.Segment.mem_of_prev (hs : h.Segment a xs b) (hp : h.prev b = some p) :
    p ∈ a :: xs := by
  obtain ⟨q, hq, hprev⟩ := hs.prev
  obtain rfl : p = q := Option.some.inj (hp.symm.trans hprev)
  exact hq

/-- The last node of a segment gets another neighbour. -/
theorem Links.Segment.retarget (hs : h.Segment a xs b) (hp : h.prev b = some p)
    (hnodup : (a :: xs).Nodup) (hlinked : h'.Linked p n)
    (hnext : ∀ m ∈ a :: xs, m ≠ p → h'.next m = h.next m)
    (hprev : ∀ m ∈ xs, h'.prev m = h.prev m) : h'.Segment a xs n := by
  induction xs generalizing a with
  | nil =>
      obtain rfl : p = a := Option.some.inj (hp.symm.trans hs.2)
      exact hlinked
  | cons x xs ih =>
      have hmem : p ∈ x :: xs := Links.Segment.mem_of_prev hs.2 hp
      rw [List.nodup_cons] at hnodup
      have hne : a ≠ p := by
        rintro rfl
        exact hnodup.1 hmem
      refine ⟨⟨?_, ?_⟩, ih hs.2 hnodup.2 (fun m hm => hnext m (List.mem_cons_of_mem a hm))
        fun m hm => hprev m (List.mem_cons_of_mem x hm)⟩
      · rw [hnext a List.mem_cons_self hne]
        exact hs.1.1
      · rw [hprev x List.mem_cons_self]
        exact hs.1.2

/-! ## Lists -/

/-- The list with the sentinels `l` has the elements `xs`. -/
structure IsList (h : Links N) (l : Ends N) (xs : List N) : Prop where
  nodup : (l.nodes xs).Nodup
  segment : h.Segment l.head xs l.tail
  headPrev : h.prev l.head = none
  tailNext : h.next l.tail = none

theorem IsList.head_ne_tail (hl : IsList h l xs) : l.head ≠ l.tail := by
  intro heq
  have hnodup := (List.nodup_cons.mp hl.nodup).1
  exact hnodup (List.mem_append_right xs (heq ▸ List.mem_cons_self))

theorem IsList.head_notMem (hl : IsList h l xs) : l.head ∉ xs :=
  fun hmem => (List.nodup_cons.mp hl.nodup).1 (List.mem_append_left _ hmem)

theorem IsList.nodup_elements (hl : IsList h l xs) : xs.Nodup :=
  (List.nodup_append.mp (List.nodup_cons.mp hl.nodup).2).1

theorem IsList.tail_notMem (hl : IsList h l xs) : l.tail ∉ xs := by
  intro hmem
  have hdisjoint := (List.nodup_append.mp (List.nodup_cons.mp hl.nodup).2).2.2
  exact hdisjoint l.tail hmem l.tail List.mem_cons_self rfl

/-- An element and the nodes of the list without it. -/
theorem IsList.nodup_remove (hl : IsList h l (xs ++ e :: ys)) : (e :: l.nodes (xs ++ ys)).Nodup := by
  have hperm : (l.nodes (xs ++ e :: ys)).Perm (e :: l.nodes (xs ++ ys)) := by
    unfold Ends.nodes
    rw [List.append_assoc, List.append_assoc]
    show ((l.head :: xs) ++ e :: (ys ++ [l.tail])).Perm _
    exact List.perm_middle
  exact hperm.nodup_iff.mp hl.nodup

/-- A list only depends on the links of its nodes. -/
theorem IsList.frame (hl : IsList h l xs)
    (hsame : ∀ m ∈ l.nodes xs, h'.prev m = h.prev m ∧ h'.next m = h.next m) : IsList h' l xs where
  nodup := hl.nodup
  segment := by
    refine hl.segment.frame (fun m hm => (hsame m ?_).2) fun m hm => (hsame m ?_).1
    · rcases List.mem_cons.mp hm with rfl | hm
      · exact List.mem_cons_self
      · exact List.mem_cons_of_mem _ (List.mem_append_left _ hm)
    · exact List.mem_cons_of_mem _ hm
  headPrev := by
    rw [(hsame l.head List.mem_cons_self).1]
    exact hl.headPrev
  tailNext := by
    rw [(hsame l.tail ?_).2]
    · exact hl.tailNext
    · exact List.mem_cons_of_mem _ (List.mem_append_right _ List.mem_cons_self)

/-- The links of all nodes but these are the same. -/
def Links.SameOff (h h' : Links N) (S : List N) : Prop :=
  ∀ m ∉ S, h'.prev m = h.prev m ∧ h'.next m = h.next m

theorem Links.SameOff.mono {S T : List N} (hoff : h.SameOff h' S) (hST : ∀ m ∈ S, m ∈ T) :
    h.SameOff h' T :=
  fun m hm => hoff m fun hmem => hm (hST m hmem)

theorem Links.SameOff.trans {h'' : Links N} {S : List N} (hoff : h.SameOff h' S)
    (hoff' : h'.SameOff h'' S) : h.SameOff h'' S := by
  intro m hm
  constructor
  · exact (hoff' m hm).1.trans (hoff m hm).1
  · exact (hoff' m hm).2.trans (hoff m hm).2

theorem IsList.frame_off {S : List N} (hl : IsList h l xs) (hoff : h.SameOff h' S)
    (hdisjoint : ∀ m ∈ l.nodes xs, m ∉ S) : IsList h' l xs :=
  hl.frame fun m hm => hoff m (hdisjoint m hm)

/-! ## Operations -/

section Operations

variable [DecidableEq N]

theorem isList_listInit (hne : l.head ≠ l.tail) : IsList (listInit h l) l [] where
  nodup := by
    unfold Ends.nodes
    simpa using hne
  segment := by
    unfold listInit Links.setPrev Links.setNext
    constructor
    · dsimp only
      rw [Function.update_of_ne hne, Function.update_self]
    · dsimp only
      rw [Function.update_self]
  headPrev := by
    unfold listInit Links.setPrev Links.setNext
    dsimp only
    rw [Function.update_of_ne hne, Function.update_self]
  tailNext := Function.update_self ..

theorem listInsert_prev (hi : listInsert h b e = some h') : h'.prev b = some e := by
  unfold listInsert at hi
  split at hi
  next => cases hi
  next =>
    cases hi
    exact Function.update_self ..

theorem listInit_sameOff : h.SameOff (listInit h l) [l.head, l.tail] := by
  intro m hm
  obtain ⟨hhead, htail⟩ : m ≠ l.head ∧ m ≠ l.tail := by simpa using hm
  unfold listInit Links.setPrev Links.setNext
  constructor
  · dsimp only
    rw [Function.update_of_ne htail, Function.update_of_ne hhead]
  · dsimp only
    rw [Function.update_of_ne htail, Function.update_of_ne hhead]

/-- A node that is not in the list is pushed behind its last element. -/
theorem IsList.pushBack (hl : IsList h l xs) (he : e ∉ l.nodes xs) :
    ∃ h', listPushBack h l e = some h' ∧ IsList h' l (xs ++ [e]) ∧
      h.SameOff h' (e :: l.nodes xs) := by
  obtain ⟨p, hp, hprev⟩ := hl.segment.prev
  have hpmem : p ∈ l.nodes xs := List.mem_append_left [l.tail] hp
  have hne : ∀ m ∈ l.nodes xs, m ≠ e := by
    rintro m hm rfl
    exact he hm
  have hpt : p ≠ l.tail := by
    rintro rfl
    rcases List.mem_cons.mp hp with heq | hp
    · exact hl.head_ne_tail heq.symm
    · exact hl.tail_notMem hp
  have hhead := hne l.head (Ends.mem_nodes.mpr (.inl rfl))
  have htail := hne l.tail (Ends.mem_nodes.mpr (.inr (.inr rfl)))
  refine ⟨_, by unfold listPushBack listInsert; rw [hprev], ?_, ?_⟩
  · -- only the links of the last node, of the tail and of the new node change
    have hnext : ∀ m, m ≠ e → m ≠ p → Function.update (Function.update h.next e (some l.tail)) p
        (some e) m = h.next m := by
      intro m hme hmp
      rw [Function.update_of_ne hmp, Function.update_of_ne hme]
    have hprev' : ∀ m, m ≠ e → m ≠ l.tail → Function.update (Function.update h.prev e (some p))
        l.tail (some e) m = h.prev m := by
      intro m hme hmt
      rw [Function.update_of_ne hmt, Function.update_of_ne hme]
    refine ⟨?_, segment_append.mpr ⟨?_, ?_, ?_⟩, ?_, ?_⟩
    · have hperm : (l.nodes (xs ++ [e])).Perm (e :: l.nodes xs) := by
        unfold Ends.nodes
        rw [List.append_assoc]
        exact .trans (.cons _ List.perm_middle) (.swap ..)
      exact hperm.nodup_iff.mpr (List.nodup_cons.mpr ⟨he, hl.nodup⟩)
    · -- the last node now points to the new one
      refine hl.segment.retarget hprev ?_ ⟨Function.update_self .., ?_⟩
        (fun m hm hmp => hnext m ?_ hmp) fun m hm => hprev' m ?_ ?_
      · exact (List.nodup_append.mp (show (l.head :: xs ++ [l.tail]).Nodup from hl.nodup)).1
      · exact (Function.update_of_ne htail.symm ..).trans (Function.update_self ..)
      · exact hne m (List.mem_append_left [l.tail] hm)
      · exact hne m (Ends.mem_nodes.mpr (.inr (.inl hm)))
      · rintro rfl
        exact hl.tail_notMem hm
    · exact (Function.update_of_ne (hne p hpmem).symm ..).trans (Function.update_self ..)
    · exact Function.update_self ..
    · exact (hprev' _ hhead hl.head_ne_tail).trans hl.headPrev
    · exact (hnext _ htail hpt.symm).trans hl.tailNext
  · intro m hm
    obtain ⟨hme, hm⟩ := not_or.mp (fun hmem => hm (List.mem_cons.mpr hmem))
    have hmp : m ≠ p := by
      rintro rfl
      exact hm hpmem
    have hmt : m ≠ l.tail := by
      rintro rfl
      exact hm (Ends.mem_nodes.mpr (.inr (.inr rfl)))
    constructor
    · exact (Function.update_of_ne hmt ..).trans (Function.update_of_ne hme ..)
    · exact (Function.update_of_ne hmp ..).trans (Function.update_of_ne hme ..)

/-- An element is removed. Its own links stay, so that removing it once more changes
nothing. -/
theorem IsList.remove (hl : IsList h l (xs ++ e :: ys)) :
    ∃ h', listRemove h e = some h' ∧ IsList h' l (xs ++ ys) ∧
      h.SameOff h' (l.nodes (xs ++ ys)) ∧ listRemove h' e = some h' := by
  have hnodup : (l.head :: xs ++ e :: (ys ++ [l.tail])).Nodup := by
    have hnodup := hl.nodup
    unfold Ends.nodes at hnodup
    rwa [List.append_assoc] at hnodup
  obtain ⟨hnotin, hnodup'⟩ := List.nodup_cons.mp hl.nodup_remove
  obtain ⟨hleft, hright, hdisjoint⟩ := List.nodup_append.mp hnodup
  obtain ⟨hs₁, hs₂⟩ := segment_append.mp hl.segment
  -- the neighbours of the element, which are nodes of the list that remains
  obtain ⟨p, hp, hprev⟩ := hs₁.prev
  obtain ⟨n, hn, hnext⟩ := hs₂.next
  have hne : ∀ m ∈ l.nodes (xs ++ ys), m ≠ e := by
    rintro m hm rfl
    exact hnotin hm
  have hpmem : p ∈ l.nodes (xs ++ ys) := by
    unfold Ends.nodes
    rw [List.append_assoc]
    exact List.mem_append_left (ys ++ [l.tail]) hp
  have hnmem : n ∈ l.nodes (xs ++ ys) := by
    unfold Ends.nodes
    rw [List.append_assoc]
    exact List.mem_append_right (l.head :: xs) hn
  have hapart : ∀ m ∈ l.head :: xs, ∀ m' ∈ ys ++ [l.tail], m ≠ m' :=
    fun m hm m' hm' => hdisjoint m hm m' (List.mem_cons_of_mem e hm')
  refine ⟨_, by unfold listRemove; rw [hprev, hnext], ?_, ?_, ?_⟩
  · refine ⟨hnodup', ?_, ?_, ?_⟩
    · -- up to the element only the link of its predecessor changes
      have hfirst : ((h.setNext p (some n)).setPrev n (some p)).Segment l.head xs n := by
        refine hs₁.retarget hprev hleft ⟨Function.update_self .., Function.update_self ..⟩
          (fun m _ hmp => Function.update_of_ne hmp ..) fun m hm => Function.update_of_ne ?_ ..
        exact hapart m (List.mem_cons_of_mem _ hm) n hn
      -- and behind it only the one of its successor
      cases ys with
      | nil =>
          obtain rfl : n = l.tail := by simpa using hn
          rwa [List.append_nil]
      | cons y ys =>
          obtain rfl : n = y := Option.some.inj (hnext.symm.trans hs₂.1.1)
          refine segment_append.mpr ⟨hfirst, hs₂.2.frame ?_ ?_⟩
          · intro m hm
            refine Function.update_of_ne (hapart p hp m ?_).symm ..
            exact List.mem_append_left [l.tail] hm
          · intro m hm
            refine Function.update_of_ne ?_ ..
            rintro rfl
            exact (List.nodup_cons.mp (List.nodup_cons.mp hright).2).1 hm
    · exact (Function.update_of_ne (hapart _ List.mem_cons_self n hn) ..).trans hl.headPrev
    · refine (Function.update_of_ne (hapart p hp _ ?_).symm ..).trans hl.tailNext
      exact List.mem_append_right ys List.mem_cons_self
  · intro m hm
    constructor
    · refine Function.update_of_ne ?_ ..
      rintro rfl
      exact hm hnmem
    · refine Function.update_of_ne ?_ ..
      rintro rfl
      exact hm hpmem
  · -- the links of the element still lead to its neighbours
    have hprev' : Function.update h.prev n (some p) e = some p :=
      (Function.update_of_ne (hne n hnmem).symm ..).trans hprev
    have hnext' : Function.update h.next p (some n) e = some n :=
      (Function.update_of_ne (hne p hpmem).symm ..).trans hnext
    unfold listRemove Links.setPrev Links.setNext
    dsimp only
    rw [hprev', hnext']
    simp only [Function.update_idem]

/-- Removing an element changes nothing if its neighbours are linked to each other. -/
theorem listRemove_eq_self : listRemove h e = some h ↔
    ∃ p n, h.prev e = some p ∧ h.next e = some n ∧ h.Linked p n := by
  unfold listRemove
  constructor
  · intro hremove
    split at hremove
    next p n hprev hnext =>
      have heq : (h.setNext p (some n)).setPrev n (some p) = h := Option.some.inj hremove
      refine ⟨p, n, hprev, hnext, ?_, ?_⟩
      · rw [← heq]
        exact Function.update_self ..
      · rw [← heq]
        exact Function.update_self ..
    next => cases hremove
  · rintro ⟨p, n, hprev, hnext, hlinked⟩
    rw [hprev, hnext]
    unfold Links.setPrev Links.setNext
    dsimp only
    rw [← hlinked.1, ← hlinked.2, Function.update_eq_self, Function.update_eq_self]

/-- The links of an element that has been removed are stale. As long as its list is left
alone, they still lead to its neighbours, and removing it once more changes nothing. -/
theorem IsList.remove_again {h₁ h₂ : Links N} {S : List N} (hl : IsList h l (xs ++ e :: ys))
    (hremove : listRemove h e = some h₁) (hoff : h₁.SameOff h₂ S)
    (hS : ∀ m ∈ l.nodes (xs ++ e :: ys), m ∉ S) : listRemove h₂ e = some h₂ := by
  obtain ⟨h', hremove', -, hoff', hagain⟩ := hl.remove
  obtain rfl := Option.some.inj (hremove'.symm.trans hremove)
  -- the links of the element lead to the nodes next to it
  have he := hoff' e (List.nodup_cons.mp hl.nodup_remove).1
  obtain ⟨hs₁, hs₂⟩ := segment_append.mp hl.segment
  obtain ⟨p, n, hprev, hnext, hlinked⟩ := listRemove_eq_self.mp hagain
  have hp : p ∈ l.head :: xs := hs₁.mem_of_prev (he.1.symm.trans hprev)
  obtain ⟨n', hn, hnext'⟩ := hs₂.next
  obtain rfl : n = n' := Option.some.inj ((hnext.symm.trans he.2).trans hnext')
  have hpS : p ∉ S := by
    refine hS p (Ends.mem_nodes.mpr ?_)
    exact (List.mem_cons.mp hp).imp_right fun hp => .inl (List.mem_append_left _ hp)
  have hnS : n ∉ S := by
    refine hS n (Ends.mem_nodes.mpr (.inr ?_))
    refine (List.mem_append.mp hn).imp (fun hn => ?_) List.mem_singleton.mp
    exact List.mem_append_right xs (List.mem_cons_of_mem e hn)
  have heS : e ∉ S :=
    hS e (Ends.mem_nodes.mpr (.inr (.inl (List.mem_append_right xs List.mem_cons_self))))
  -- and none of these three nodes has changed
  refine listRemove_eq_self.mpr ⟨p, n, ?_, ?_, ?_, ?_⟩
  · exact (hoff e heS).1.trans hprev
  · exact (hoff e heS).2.trans hnext
  · exact (hoff p hpS).2.trans hlinked.1
  · exact (hoff n hnS).1.trans hlinked.2

theorem IsList.listEmpty_nil (hl : IsList h l []) : listEmpty h l = true :=
  decide_eq_true hl.segment.1

theorem IsList.listEmpty_cons (hl : IsList h l (e :: xs)) : listEmpty h l = false := by
  refine decide_eq_false fun heq => ?_
  obtain rfl : e = l.tail := Option.some.inj (hl.segment.1.1.symm.trans heq)
  exact hl.tail_notMem List.mem_cons_self

/-- The first element of a list is taken off. -/
theorem IsList.popFront (hl : IsList h l (e :: xs)) :
    ∃ h', listPopFront h l = some (e, h') ∧ listRemove h e = some h' := by
  have hfirst : IsList h l ([] ++ e :: xs) := hl
  obtain ⟨h', hremove, -⟩ := hfirst.remove
  refine ⟨h', ?_, hremove⟩
  have hnext : h.next l.head = some e := hl.segment.1.1
  unfold listPopFront
  rw [hl.listEmpty_cons, hnext, if_neg Bool.false_ne_true]
  dsimp only
  rw [hremove]
  rfl

/-! ## Walks -/

/-- The elements a search reads: those up to the one it finds. -/
def scanned (found : N → Bool) : List N → List N
  | [] => []
  | x :: xs => if found x then [x] else x :: scanned found xs

/-- A search along a segment from the node behind its first one. -/
theorem Links.Segment.search (found : N → Bool) {rounds : ℕ} (hs : h.Segment a xs b) (hb : b ∉ xs)
    (hrounds : xs.length < rounds) : ∃ x, h.next a = some x ∧
      search h.next b found rounds x = some (scanned found xs, xs.find? found) := by
  induction xs generalizing a rounds with
  | nil =>
      obtain _ | rounds := rounds
      · cases hrounds
      refine ⟨b, hs.1, ?_⟩
      unfold Intrusive.search
      rw [if_pos rfl]
      rfl
  | cons x xs ih =>
      obtain _ | rounds := rounds
      · cases hrounds
      rw [List.length_cons] at hrounds
      obtain ⟨y, hy, hsearch⟩ := ih hs.2 (fun hmem => hb (List.mem_cons_of_mem x hmem))
        (Nat.lt_of_succ_lt_succ hrounds)
      have hxb : x ≠ b := by
        rintro rfl
        exact hb List.mem_cons_self
      refine ⟨x, hs.1.1, ?_⟩
      unfold Intrusive.search
      rw [if_neg hxb]
      by_cases hfound : found x = true
      · rw [if_pos hfound]
        unfold scanned
        rw [if_pos hfound, List.find?_cons_of_pos hfound]
      · rw [if_neg hfound, hy]
        unfold scanned
        rw [if_neg hfound, List.find?_cons_of_neg hfound]
        dsimp only
        rw [hsearch]
        rfl

/-- A walk from the first element to the tail. -/
theorem IsList.search_forward (found : N → Bool) {rounds : ℕ} (hl : IsList h l xs)
    (hrounds : xs.length < rounds) : ∃ x, h.next l.head = some x ∧
      search h.next l.tail found rounds x = some (scanned found xs, xs.find? found) :=
  hl.segment.search found hl.tail_notMem hrounds

/-- A walk from the tail to the head: it starts with the sentinel. -/
theorem IsList.search_backward {rounds : ℕ} (hl : IsList h l xs)
    (hrounds : xs.length + 1 < rounds) :
    search h.prev l.head found rounds l.tail =
      some (scanned found (l.tail :: xs.reverse), (l.tail :: xs.reverse).find? found) := by
  obtain _ | rounds := rounds
  · cases hrounds
  have hnotin : l.head ∉ xs.reverse := fun hmem => hl.head_notMem (List.mem_reverse.mp hmem)
  have hlength : xs.reverse.length < rounds := by
    rw [List.length_reverse]
    exact Nat.lt_of_succ_lt_succ hrounds
  obtain ⟨x, hx, hsearch⟩ := (segment_flip hl.segment).search found hnotin hlength
  have hx' : h.prev l.tail = some x := hx
  unfold search
  rw [if_neg hl.head_ne_tail.symm]
  by_cases hfound : found l.tail = true
  · rw [if_pos hfound]
    unfold scanned
    rw [if_pos hfound, List.find?_cons_of_pos hfound]
  · rw [if_neg hfound, hx']
    unfold scanned
    rw [if_neg hfound, List.find?_cons_of_neg hfound]
    dsimp only
    have hsearch' : search h.prev l.head found rounds x =
        some (scanned found xs.reverse, xs.reverse.find? found) := hsearch
    rw [hsearch']
    rfl

end Operations

/-! ## Some of the nodes -/

section Restrict

universe m

variable {M : Type m} {f : M → N} {g : N → Option M} {a b e : M} {xs : List M} {l : Ends M}
  {k : Links M}

/-- The links of some of the nodes, which `f` names; other nodes are not seen. -/
def Links.restrict (h : Links N) (f : M → N) (g : N → Option M) : Links M where
  prev := fun m => (h.prev (f m)).bind g
  next := fun m => (h.next (f m)).bind g

/-- The sentinels of a list of such nodes. -/
def Ends.map (l : Ends M) (f : M → N) : Ends N := ⟨f l.head, f l.tail⟩

theorem Ends.nodes_map : (l.map f).nodes (xs.map f) = (l.nodes xs).map f := by
  unfold Ends.nodes
  rw [List.map_cons, List.map_append]
  rfl

theorem Links.Linked.restrict (hg : Function.IsPartialInv f g) (hl : h.Linked (f a) (f b)) :
    (h.restrict f g).Linked a b := by
  unfold Links.restrict
  constructor
  · dsimp only
    rw [hl.1]
    exact (hg b _).mpr rfl
  · dsimp only
    rw [hl.2]
    exact (hg a _).mpr rfl

theorem Links.Segment.restrict (hg : Function.IsPartialInv f g)
    (hs : h.Segment (f a) (xs.map f) (f b)) : (h.restrict f g).Segment a xs b := by
  induction xs generalizing a with
  | nil => exact Links.Linked.restrict hg hs
  | cons x xs ih => exact ⟨Links.Linked.restrict hg hs.1, ih hs.2⟩

/-- A list of such nodes is the same list among them. -/
theorem IsList.restrict (hg : Function.IsPartialInv f g) (hl : IsList h (l.map f) (xs.map f)) :
    IsList (h.restrict f g) l xs where
  nodup := by
    have hnodup := hl.nodup
    rw [Ends.nodes_map] at hnodup
    exact hnodup.of_map
  segment := hl.segment.restrict hg
  headPrev := congrArg (Option.bind · g) hl.headPrev
  tailNext := congrArg (Option.bind · g) hl.tailNext

theorem restrict_of_sameOff {S : List N} (hoff : h.SameOff h' S) (hS : ∀ m, f m ∉ S) :
    h'.restrict f g = h.restrict f g := by
  unfold Links.restrict
  congr 1
  · funext m
    rw [(hoff (f m) (hS m)).1]
  · funext m
    rw [(hoff (f m) (hS m)).2]

theorem restrict_update [DecidableEq M] [DecidableEq N] {s : N → Option N} (hg : Function.IsPartialInv f g) :
    (fun m => (Function.update s (f a) (some (f b)) (f m)).bind g) =
      Function.update (fun m => (s (f m)).bind g) a (some b) := by
  funext m
  by_cases hm : m = a
  · subst hm
    rw [Function.update_self, Function.update_self]
    exact (hg b _).mpr rfl
  · rw [Function.update_of_ne hm, Function.update_of_ne (hg.injective.ne hm)]

/-- What is removed among them is removed among all nodes. -/
theorem listRemove_restrict [DecidableEq M] [DecidableEq N] (hg : Function.IsPartialInv f g)
    (hremove : listRemove (h.restrict f g) e = some k) (hremove' : listRemove h (f e) = some h') :
    h'.restrict f g = k := by
  unfold listRemove at hremove
  split at hremove
  next p n hprev hnext =>
    obtain ⟨x, hx, hp⟩ := Option.bind_eq_some_iff.mp hprev
    obtain ⟨y, hy, hn⟩ := Option.bind_eq_some_iff.mp hnext
    obtain rfl := (hg p x).mp hp
    obtain rfl := (hg n y).mp hn
    unfold listRemove at hremove'
    rw [hx, hy] at hremove'
    obtain rfl := Option.some.inj hremove
    obtain rfl := Option.some.inj hremove'
    unfold Links.restrict Links.setPrev Links.setNext
    dsimp only
    rw [restrict_update hg, restrict_update hg]
  next => cases hremove
end Restrict

/-! ## Many lists

Every owner has a list of elements, and no element is in two of them. -/

section Family

universe v w

/-- The nodes of the lists of many owners: their sentinels and the links of elements. -/
inductive Node (T : Type v) (E : Type w) where
  | head (t : T)
  | tail (t : T)
  | elem (e : E)
deriving DecidableEq, Repr

variable {T : Type v} {E : Type w}

/-- The list of an owner. -/
def listOf (t : T) : Ends (Node T E) := ⟨.head t, .tail t⟩

/-- Every owner has its elements in its list. -/
structure Family (h : Links (Node T E)) (xs : T → List E) : Prop where
  list : ∀ t, IsList h (listOf t) ((xs t).map .elem)
  apart : ∀ t u, ∀ e ∈ xs t, e ∈ xs u → t = u

variable {k : Links (Node T E)} {xs : T → List E} {t u : T} {e : E}

theorem elem_mem_map {l : List E} : Node.elem (T := T) e ∈ l.map .elem ↔ e ∈ l := by
  rw [List.mem_map]
  constructor
  · rintro ⟨e', he', heq⟩
    exact Node.elem.inj heq ▸ he'
  · exact fun he => ⟨e, he, rfl⟩

theorem elem_mem_nodes {l : List E} :
    Node.elem e ∈ (listOf t : Ends (Node T E)).nodes (l.map .elem) ↔ e ∈ l := by
  rw [Ends.mem_nodes, elem_mem_map]
  constructor
  · rintro (hno | he | hno)
    · cases hno
    · exact he
    · cases hno
  · exact fun he => .inr (.inl he)

theorem head_mem_nodes {l : List E}
    (hmem : Node.head u ∈ (listOf t : Ends (Node T E)).nodes (l.map .elem)) : u = t := by
  rcases Ends.mem_nodes.mp hmem with heq | hno | hno
  · exact Node.head.inj heq
  · obtain ⟨e, -, hno⟩ := List.mem_map.mp hno
    cases hno
  · cases hno

theorem tail_mem_nodes {l : List E}
    (hmem : Node.tail u ∈ (listOf t : Ends (Node T E)).nodes (l.map .elem)) : u = t := by
  rcases Ends.mem_nodes.mp hmem with hno | hno | heq
  · cases hno
  · obtain ⟨e, -, hno⟩ := List.mem_map.mp hno
    cases hno
  · exact Node.tail.inj heq

theorem Family.nodup (hk : Family k xs) (t : T) : (xs t).Nodup :=
  (hk.list t).nodup_elements.of_map _

/-- The owners in `P` have their elements in their lists. -/
structure FamilyOn (h : Links (Node T E)) (P : T → Prop) (xs : T → List E) : Prop where
  list : ∀ t, P t → IsList h (listOf t) ((xs t).map .elem)
  apart : ∀ t u, P t → P u → ∀ e ∈ xs t, e ∈ xs u → t = u

variable {P Q : T → Prop}

theorem Family.on (hk : Family k xs) : FamilyOn k (fun _ => True) xs :=
  ⟨fun t _ => hk.list t, fun t u _ _ => hk.apart t u⟩

theorem FamilyOn.mono (hk : FamilyOn k P xs) (hQ : ∀ t, Q t → P t) : FamilyOn k Q xs :=
  ⟨fun t ht => hk.list t (hQ t ht), fun t u ht hu => hk.apart t u (hQ t ht) (hQ u hu)⟩

/-- Two owners have no node in common. -/
theorem FamilyOn.nodes_apart (hk : FamilyOn k P xs) (hu : P u) (ht : P t) (hne : u ≠ t) :
    ∀ n ∈ (listOf u).nodes ((xs u).map .elem), n ∉ (listOf t).nodes ((xs t).map .elem) := by
  intro n hn hn'
  cases n with
  | head v => exact hne ((head_mem_nodes hn).symm.trans (head_mem_nodes hn'))
  | tail v => exact hne ((tail_mem_nodes hn).symm.trans (tail_mem_nodes hn'))
  | elem e =>
      exact hne (hk.apart u t hu ht e (elem_mem_nodes.mp hn) (elem_mem_nodes.mp hn'))

theorem Family.nodes_apart (hk : Family k xs) (hne : u ≠ t) :
    ∀ n ∈ (listOf u).nodes ((xs u).map .elem), n ∉ (listOf t).nodes ((xs t).map .elem) :=
  hk.on.nodes_apart trivial trivial hne

/-- Links of other nodes do not matter. -/
theorem FamilyOn.frame_off {k' : Links (Node T E)} {ns : List (Node T E)} (hk : FamilyOn k P xs)
    (hoff : k.SameOff k' ns)
    (hns : ∀ t, P t → ∀ n ∈ (listOf t).nodes ((xs t).map .elem), n ∉ ns) : FamilyOn k' P xs :=
  ⟨fun t ht => (hk.list t ht).frame_off hoff (hns t ht), hk.apart⟩

/-- A list is replaced by one with elements of its own. -/
theorem FamilyOn.shrink [DecidableEq T] {k' : Links (Node T E)} {es : List E} (hk : FamilyOn k P xs) (ht : P t)
    (hlist : IsList k' (listOf t) (es.map .elem)) (hes : ∀ x ∈ es, x ∈ xs t)
    (hoff : k.SameOff k' ((listOf t).nodes ((xs t).map .elem))) :
    FamilyOn k' P (Function.update xs t es) := by
  have hsub : ∀ u, ∀ x ∈ Function.update xs t es u, x ∈ xs u := by
    intro u x hx
    by_cases hu : u = t
    · subst hu
      rw [Function.update_self] at hx
      exact hes x hx
    · rwa [Function.update_of_ne hu] at hx
  constructor
  · intro u hPu
    by_cases hu : u = t
    · subst hu
      rw [Function.update_self]
      exact hlist
    · rw [Function.update_of_ne hu]
      exact (hk.list u hPu).frame_off hoff (hk.nodes_apart hPu ht hu)
  · intro u v hu hv x hx hx'
    exact hk.apart u v hu hv x (hsub u x hx) (hsub v x hx')

variable [DecidableEq T] [DecidableEq E]

/-- An element that is in no list is pushed to one. -/
theorem FamilyOn.pushBack (hk : FamilyOn k P xs) (ht : P t) (he : ∀ u, P u → e ∉ xs u) :
    ∃ k', listPushBack k (listOf t) (.elem e) = some k' ∧
      FamilyOn k' P (Function.update xs t (xs t ++ [e])) := by
  have hnode : Node.elem e ∉ (listOf t).nodes ((xs t).map .elem) :=
    fun hmem => he t ht (elem_mem_nodes.mp hmem)
  obtain ⟨k', hpush, hlist, hoff⟩ := (hk.list t ht).pushBack hnode
  have hmem : ∀ u x, x ∈ Function.update xs t (xs t ++ [e]) u → x ∈ xs u ∨ x = e ∧ u = t := by
    intro u x hx
    by_cases hu : u = t
    · subst hu
      rw [Function.update_self, List.mem_append, List.mem_singleton] at hx
      exact hx.imp_right fun hx => ⟨hx, rfl⟩
    · rw [Function.update_of_ne hu] at hx
      exact .inl hx
  refine ⟨k', hpush, ?_, ?_⟩
  · intro u hPu
    by_cases hu : u = t
    · subst hu
      rw [Function.update_self, List.map_append]
      exact hlist
    · rw [Function.update_of_ne hu]
      refine (hk.list u hPu).frame_off hoff ?_
      intro n hn hmem
      rcases List.mem_cons.mp hmem with rfl | hmem
      · exact he u hPu (elem_mem_nodes.mp hn)
      · exact hk.nodes_apart hPu ht hu n hn hmem
  · intro u v hu hv x hx hx'
    rcases hmem u x hx with hxu | ⟨rfl, rfl⟩
    · rcases hmem v x hx' with hxv | ⟨rfl, rfl⟩
      · exact hk.apart u v hu hv x hxu hxv
      · exact absurd hxu (he u hu)
    · rcases hmem v x hx' with hxv | ⟨-, rfl⟩
      · exact absurd hxv (he v hv)
      · rfl

theorem FamilyOn.pushBack_sameOff {k' : Links (Node T E)} (hk : FamilyOn k P xs) (ht : P t)
    (he : e ∉ xs t) (hpush : listPushBack k (listOf t) (.elem e) = some k') :
    k.SameOff k' (.elem e :: (listOf t).nodes ((xs t).map .elem)) := by
  have hnode : Node.elem e ∉ (listOf t).nodes ((xs t).map .elem) :=
    fun hmem => he (elem_mem_nodes.mp hmem)
  obtain ⟨k'', hpush', -, hoff⟩ := (hk.list t ht).pushBack hnode
  obtain rfl := Option.some.inj (hpush'.symm.trans hpush)
  exact hoff

theorem Family.pushBack (hk : Family k xs) (he : ∀ u, e ∉ xs u) :
    ∃ k', listPushBack k (listOf t) (.elem e) = some k' ∧
      Family k' (Function.update xs t (xs t ++ [e])) := by
  obtain ⟨k', hpush, hlist⟩ := hk.on.pushBack (t := t) trivial fun u _ => he u
  exact ⟨k', hpush, fun u => hlist.list u trivial, fun u v => hlist.apart u v trivial trivial⟩

/-- A new owner gets an empty list. -/
theorem FamilyOn.listInit (hk : FamilyOn k P xs) (ht : ¬ P t) :
    FamilyOn (listInit k (listOf t)) (fun u => P u ∨ u = t) (Function.update xs t []) := by
  have hoff : k.SameOff (Intrusive.listInit k (listOf t)) [.head t, .tail t] := listInit_sameOff
  have hold : ∀ u, P u → u ≠ t := fun u hu heq => ht (heq ▸ hu)
  constructor
  · intro u hu
    by_cases heq : u = t
    · subst heq
      rw [Function.update_self]
      exact isList_listInit (by simp [listOf])
    · have hPu : P u := hu.resolve_right heq
      rw [Function.update_of_ne heq]
      refine (hk.list u hPu).frame_off hoff ?_
      intro n hn hmem
      rcases List.mem_pair.mp hmem with rfl | rfl
      · exact heq (head_mem_nodes hn).symm
      · exact heq (tail_mem_nodes hn).symm
  · intro u v hu hv x hx hx'
    by_cases hut : u = t
    · rw [hut, Function.update_self] at hx
      exact absurd hx List.not_mem_nil
    · by_cases hvt : v = t
      · rw [hvt, Function.update_self] at hx'
        exact absurd hx' List.not_mem_nil
      · rw [Function.update_of_ne hut] at hx
        rw [Function.update_of_ne hvt] at hx'
        exact hk.apart u v (hu.resolve_right hut) (hv.resolve_right hvt) x hx hx'

/-- An element is removed from its list; removing it once more changes nothing. -/
theorem FamilyOn.remove (hk : FamilyOn k P xs) (ht : P t) (he : e ∈ xs t) :
    ∃ k', listRemove k (.elem e) = some k' ∧
      FamilyOn k' P (Function.update xs t ((xs t).erase e)) ∧
      k.SameOff k' ((listOf t).nodes ((xs t).map .elem)) ∧ listRemove k' (.elem e) = some k' := by
  obtain ⟨as, bs, hsplit⟩ := List.append_of_mem he
  have hlist := hk.list t ht
  have hnodup : (xs t).Nodup := hlist.nodup_elements.of_map _
  rw [hsplit] at hnodup
  have has : e ∉ as := by
    have hnotin := (List.nodup_cons.mp (List.nodup_middle.mp hnodup)).1
    exact fun hmem => hnotin (List.mem_append_left bs hmem)
  have herase : (xs t).erase e = as ++ bs := by
    rw [hsplit, List.erase_append_right _ has, List.erase_cons_head]
  rw [hsplit, List.map_append, List.map_cons] at hlist
  obtain ⟨k', hremove, hlist', hoff, hagain⟩ := hlist.remove
  rw [← List.map_append, ← herase] at hlist' hoff
  have hes : ∀ x ∈ (xs t).erase e, x ∈ xs t := fun x hx => List.mem_of_mem_erase hx
  -- what is left of the list has no other nodes
  have hoff' : k.SameOff k' ((listOf t).nodes ((xs t).map .elem)) := by
    refine hoff.mono fun n hn => Ends.mem_nodes.mpr ?_
    refine (Ends.mem_nodes.mp hn).imp_right (Or.imp_left fun hx => ?_)
    obtain ⟨x, hmem, rfl⟩ := List.mem_map.mp hx
    exact List.mem_map_of_mem (hes x hmem)
  exact ⟨k', hremove, hk.shrink ht hlist' hes hoff', hoff', hagain⟩

theorem Family.remove (hk : Family k xs) (he : e ∈ xs t) :
    ∃ k', listRemove k (.elem e) = some k' ∧
      Family k' (Function.update xs t ((xs t).erase e)) ∧ listRemove k' (.elem e) = some k' := by
  obtain ⟨k', hremove, hlist, -, hagain⟩ := hk.on.remove trivial he
  refine ⟨k', hremove, ⟨fun u => hlist.list u trivial, fun u v => ?_⟩, hagain⟩
  exact hlist.apart u v trivial trivial

/-- The first element is taken off a list. -/
theorem FamilyOn.popFront {es : List E} (hk : FamilyOn k P xs) (ht : P t) (hxs : xs t = e :: es) :
    ∃ k', listPopFront k (listOf t) = some (.elem e, k') ∧
      FamilyOn k' P (Function.update xs t es) ∧
      k.SameOff k' ((listOf t).nodes ((xs t).map .elem)) := by
  have he : e ∈ xs t := by
    rw [hxs]
    exact List.mem_cons_self
  obtain ⟨k', hremove, hfamily, hoff, -⟩ := hk.remove ht he
  have hlist := hk.list t ht
  rw [hxs, List.map_cons] at hlist
  obtain ⟨k'', hpop, hremove'⟩ := hlist.popFront
  obtain rfl := Option.some.inj (hremove'.symm.trans hremove)
  rw [hxs, List.erase_cons_head] at hfamily
  exact ⟨k'', hpop, hfamily, hoff⟩

/-- A list that is empty can be made anew. -/
theorem listInit_of_empty {h : Links N} [DecidableEq N] {l : Ends N} (hl : IsList h l []) :
    listInit h l = h := by
  have hlinked : h.Linked l.head l.tail := hl.segment
  unfold listInit Links.setPrev Links.setNext
  have hprev : Function.update (Function.update h.prev l.head none) l.tail (some l.head) =
      h.prev := by
    rw [← hl.headPrev, Function.update_eq_self, ← hlinked.2, Function.update_eq_self]
  have hnext : Function.update (Function.update h.next l.head (some l.tail)) l.tail none =
      h.next := by
    rw [← hlinked.1, Function.update_eq_self, ← hl.tailNext, Function.update_eq_self]
  dsimp only
  rw [hprev, hnext]

end Family

end Intrusive
