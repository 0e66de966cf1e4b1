import Mathlib.Algebra.Order.Ring.Int
import Mathlib.Data.List.TakeWhile
import Mathlib.Tactic.Common

/-! # Tokens of a string in a buffer

The tokens of a string are its longest parts without delimiters. `strtok_r` finds
them in a buffer one after the other, with the position that it goes on from next
time; it ends the token that it has found in place, by overwriting the delimiter
behind it with the character `nul` that ends strings.
-/

namespace Tokens

universe u

variable {α : Type u} [DecidableEq α]

/-- The tokens of a string. -/
def tokens (d : α) (s : List α) : List (List α) := (s.splitOn d).filter (· ≠ [])

section

variable {d : α} {s t : List α} {ts : List (List α)}

@[simp] theorem tokens_nil : tokens d [] = [] := by
  unfold tokens
  rw [List.splitOn_nil]
  rfl

theorem tokens_delim_cons : tokens d (d :: s) = tokens d s := by
  unfold tokens
  rw [List.splitOn_cons_eq_if_modifyHead, if_pos (beq_self_eq_true d)]
  rfl

theorem tokens_delims_append (hs : ∀ c ∈ s, c = d) : tokens d (s ++ t) = tokens d t := by
  induction s with
  | nil => rfl
  | cons c s ih =>
      obtain rfl : c = d := hs c List.mem_cons_self
      rw [List.cons_append, tokens_delim_cons]
      exact ih fun c hc => hs c (List.mem_cons_of_mem _ hc)

theorem tokens_of_delims (hs : ∀ c ∈ s, c = d) : tokens d s = [] := by
  have happ := tokens_delims_append (t := []) hs
  rwa [List.append_nil, tokens_nil] at happ

theorem tokens_token (ht : d ∉ t) (hne : t ≠ []) : tokens d t = [t] := by
  unfold tokens
  rw [List.splitOn_eq_singleton ht]
  exact List.filter_cons_of_pos (decide_eq_true hne)

theorem tokens_token_append (ht : d ∉ t) (hne : t ≠ []) :
    tokens d (t ++ d :: s) = t :: tokens d s := by
  unfold tokens
  rw [List.splitOn_append_cons_self_of_not_mem ht]
  exact List.filter_cons_of_pos (decide_eq_true hne)

/-- What a string looks like up to the end of its first token. -/
inductive FirstToken (d : α) : List α → Prop where
  | blank {b : List α} : (∀ c ∈ b, c = d) → FirstToken d b
  | last {b t : List α} : (∀ c ∈ b, c = d) → d ∉ t → t ≠ [] → FirstToken d (b ++ t)
  | more {b t s : List α} : (∀ c ∈ b, c = d) → d ∉ t → t ≠ [] → FirstToken d (b ++ (t ++ d :: s))

/-- A string is blank, or starts with a token behind some delimiters. -/
theorem firstToken (d : α) (s : List α) : FirstToken d s := by
  have hb : ∀ c ∈ s.takeWhile (· = d), c = d := fun c hc => by simpa using List.mem_takeWhile_imp hc
  have hs : s.takeWhile (· = d) ++ s.dropWhile (· = d) = s := List.takeWhile_append_dropWhile
  have hhead := List.head?_dropWhile_not (· = d) s
  generalize s.takeWhile (· = d) = b at hb hs
  cases hrest : s.dropWhile (· = d) with
  | nil =>
      rw [hrest, List.append_nil] at hs
      exact hs ▸ .blank hb
  | cons c rest =>
      rw [hrest] at hs hhead
      have hc : c ≠ d := by simpa using hhead
      have ht : d ∉ (c :: rest).takeWhile (· ≠ d) := fun hmem => by
        simpa using List.mem_takeWhile_imp hmem
      have hne : (c :: rest).takeWhile (· ≠ d) ≠ [] := by
        have hcons : (c :: rest).takeWhile (· ≠ d) = c :: rest.takeWhile (· ≠ d) :=
          List.takeWhile_cons_of_pos (decide_eq_true hc)
        rw [hcons]
        exact List.cons_ne_nil _ _
      have hsplit : (c :: rest).takeWhile (· ≠ d) ++ (c :: rest).dropWhile (· ≠ d) = c :: rest :=
        List.takeWhile_append_dropWhile
      have hnext := List.head?_dropWhile_not (· ≠ d) (c :: rest)
      generalize (c :: rest).takeWhile (· ≠ d) = t at ht hne hsplit
      cases hmore : (c :: rest).dropWhile (· ≠ d) with
      | nil =>
          rw [hmore, List.append_nil] at hsplit
          rw [← hs, ← hsplit]
          exact .last hb ht hne
      | cons x s' =>
          rw [hmore] at hsplit hnext
          obtain rfl : x = d := by simpa using hnext
          rw [← hs, ← hsplit]
          exact .more hb ht hne

theorem dropWhile_delims {b : List α} (hb : ∀ c ∈ b, c = d) (ht : d ∉ t) (hne : t ≠ []) :
    (b ++ (t ++ s)).dropWhile (· = d) = t ++ s := by
  obtain ⟨c, t, rfl⟩ := List.exists_cons_of_ne_nil hne
  have hc : c ≠ d := by
    rintro rfl
    exact ht List.mem_cons_self
  rw [List.dropWhile_append_of_pos fun x hx => decide_eq_true (hb x hx)]
  exact List.dropWhile_cons_of_neg (by simpa using hc)

theorem takeWhile_token (ht : d ∉ t) : t.takeWhile (· ≠ d) = t :=
  List.takeWhile_eq_self_iff.mpr fun _ hc => decide_eq_true fun h => ht (h ▸ hc)

theorem takeWhile_token_append (ht : d ∉ t) : (t ++ d :: s).takeWhile (· ≠ d) = t := by
  have hpos : ∀ c ∈ t, decide (c ≠ d) = true := fun c hc => decide_eq_true fun h => ht (h ▸ hc)
  rw [List.takeWhile_append_of_pos hpos, List.takeWhile_cons_of_neg (by simp), List.append_nil]

end

/-! ## `strtok_r` -/

/-- The string at an offset of a buffer: up to the next `nul`, or the end. -/
def cstring (nul : α) (buf : List α) (i : ℕ) : List α := (buf.drop i).takeWhile (· ≠ nul)

/-- What `strtok_r` leaves: the offset of the token, if there is one, the buffer, and
where to go on. -/
structure Strtok (α : Type u) where
  token : Option ℕ
  buf : List α
  save : ℕ

/-- `strtok_r (NULL, d, &save)`. -/
def strtokR (nul d : α) (buf : List α) (save : ℕ) : Strtok α :=
  let s := cstring nul buf save
  let rest := s.dropWhile (· = d)
  let start := save + (s.length - rest.length)
  let stop := start + (rest.takeWhile (· ≠ d)).length
  if rest = [] then { token := none, buf := buf, save := start }
  else if stop < start + rest.length then
    { token := some start, buf := buf.set stop nul, save := stop + 1 }
  else { token := some start, buf := buf, save := stop }

section

variable {nul d : α} {buf buf' s t : List α} {ts : List (List α)} {i j save : ℕ}

theorem nul_notMem_cstring : nul ∉ cstring nul buf i := fun h => by
  simpa using List.mem_takeWhile_imp h

/-- A buffer from the string at an offset on. -/
theorem cstring_drop (nul : α) (buf : List α) (i : ℕ) :
    ∃ post, buf.drop i = cstring nul buf i ++ post ∧ ∀ c ∈ post.head?, c = nul := by
  refine ⟨(buf.drop i).dropWhile (· ≠ nul), List.takeWhile_append_dropWhile.symm, ?_⟩
  intro c hc
  have hhead := List.head?_dropWhile_not (· ≠ nul) (buf.drop i)
  rw [Option.mem_def.mp hc] at hhead
  simpa using hhead

theorem cstring_eq {post : List α} (hs : buf.drop i = s ++ post) (hnul : nul ∉ s)
    (hpost : ∀ c ∈ post.head?, c = nul) : cstring nul buf i = s := by
  unfold cstring
  rw [hs]
  cases post with
  | nil =>
      rw [List.append_nil]
      exact takeWhile_token hnul
  | cons c post =>
      obtain rfl : c = nul := hpost c rfl
      exact takeWhile_token_append hnul

/-- What a call of `strtok_r` that finds the token `t` leaves for the tokens `ts`. -/
structure Found (nul d : α) (buf : List α) (save : ℕ) (t : List α) (ts : List (List α))
    (start : ℕ) (buf' : List α) (next : ℕ) : Prop where
  token : cstring nul buf' start = t
  /-- The string that the call began with is cut behind the token. -/
  first : tokens d (cstring nul buf' save) = [t]
  rest : tokens d (cstring nul buf' next) = ts
  start_ge : save ≤ start
  next_ge : start + t.length ≤ next
  length : buf'.length = buf.length
  /-- What is before the token is not written. -/
  keeps : ∀ i ≤ save, buf'[i]? = buf[i]?

theorem strtokR_nil (h : tokens d (cstring nul buf save) = []) :
    strtokR nul d buf save =
      { token := none, buf := buf, save := save + (cstring nul buf save).length } := by
  have hblank : ∀ c ∈ cstring nul buf save, c = d := by
    generalize cstring nul buf save = s at h
    cases firstToken d s with
    | blank hb => exact hb
    | last hb ht hne =>
        rw [tokens_delims_append hb, tokens_token ht hne] at h
        cases h
    | more hb ht hne =>
        rw [tokens_delims_append hb, tokens_token_append ht hne] at h
        cases h
  have hrest : (cstring nul buf save).dropWhile (· = d) = [] :=
    List.dropWhile_eq_nil_iff.mpr fun c hc => decide_eq_true (hblank c hc)
  unfold strtokR
  dsimp only
  rw [hrest]
  rfl

omit [DecidableEq α] in
/-- Behind the first elements of a part. -/
theorem drop_add (h : buf.drop i = s ++ t) : buf.drop (i + s.length) = t := by
  rw [← List.drop_drop, h, List.drop_left]

/-- The token is the end of the string, and the buffer stays as it is. -/
theorem found_last {b post : List α} (hbuf : buf.drop save = b ++ t ++ post)
    (hnul : nul ∉ b ++ t) (hend : ∀ c ∈ post.head?, c = nul) (hb : ∀ c ∈ b, c = d) (ht : d ∉ t)
    (hne : t ≠ []) :
    Found nul d buf save t [] (save + b.length) buf (save + b.length + t.length) := by
  have htoken : buf.drop (save + b.length) = t ++ post := by
    rw [List.append_assoc] at hbuf
    exact drop_add hbuf
  have hrest : cstring nul buf (save + b.length + t.length) = [] :=
    cstring_eq (s := []) (drop_add htoken) List.not_mem_nil hend
  refine ⟨?_, ?_, ?_, Nat.le_add_right .., le_rfl, rfl, fun _ _ => rfl⟩
  · exact cstring_eq htoken (fun h => hnul (List.mem_append_right _ h)) hend
  · rw [cstring_eq hbuf hnul hend, tokens_delims_append hb, tokens_token ht hne]
  · rw [hrest, tokens_nil]

/-- A delimiter behind the token is overwritten. -/
theorem found_more {b post : List α} (hbuf : buf.drop save = b ++ (t ++ d :: s) ++ post)
    (hnul : nul ∉ b ++ (t ++ d :: s)) (hend : ∀ c ∈ post.head?, c = nul) (hb : ∀ c ∈ b, c = d)
    (ht : d ∉ t) (hne : t ≠ []) :
    Found nul d buf save t (tokens d s) (save + b.length)
      (buf.set (save + b.length + t.length) nul) (save + b.length + t.length + 1) := by
  have hpos : 0 < t.length := List.length_pos_iff.mpr hne
  have htoken : buf.drop (save + b.length) = t ++ d :: (s ++ post) := by
    rw [List.append_assoc] at hbuf
    rw [drop_add hbuf, List.append_assoc, List.cons_append]
  have hcut : (buf.set (save + b.length + t.length) nul).drop (save + b.length) =
      t ++ nul :: (s ++ post) := by
    rw [List.drop_set, if_neg (by omega), htoken, List.set_append_right _ _ (by omega)]
    have hzero : save + b.length + t.length - (save + b.length) - t.length = 0 := by omega
    rw [hzero]
    rfl
  have hrest : (buf.set (save + b.length + t.length) nul).drop
      (save + b.length + t.length + 1) = s ++ post := by
    rw [← List.drop_drop, drop_add hcut]
    rfl
  have hfirst : (buf.set (save + b.length + t.length) nul).drop save =
      (b ++ t) ++ nul :: (s ++ post) := by
    have hsplit : buf.drop save = b ++ (t ++ d :: (s ++ post)) := by
      rw [hbuf]
      simp only [List.append_assoc, List.cons_append]
    have hoffset : save + b.length + t.length - save = b.length + t.length := by omega
    rw [List.drop_set, if_neg (by omega), hoffset, hsplit,
      List.set_append_right _ _ (Nat.le_add_right ..), Nat.add_sub_cancel_left,
      List.set_append_right _ _ le_rfl, Nat.sub_self, List.append_assoc]
    rfl
  simp only [List.mem_append, List.mem_cons, not_or] at hnul
  refine ⟨?_, ?_, ?_, Nat.le_add_right .., Nat.le_succ _, List.length_set, ?_⟩
  · exact cstring_eq hcut hnul.2.1 (by simp)
  · have hnul' : nul ∉ b ++ t := by
      rw [List.mem_append, not_or]
      exact ⟨hnul.1, hnul.2.1⟩
    rw [cstring_eq hfirst hnul' (by simp), tokens_delims_append hb, tokens_token ht hne]
  · rw [cstring_eq hrest hnul.2.2.2 hend]
  · intro i hi
    exact List.getElem?_set_ne (by omega)

theorem strtokR_cons (h : tokens d (cstring nul buf save) = t :: ts) :
    ∃ start buf' next, strtokR nul d buf save = ⟨some start, buf', next⟩ ∧
      Found nul d buf save t ts start buf' next := by
  obtain ⟨post, hpost, hend⟩ := cstring_drop nul buf save
  have hnul : nul ∉ cstring nul buf save := nul_notMem_cstring
  unfold strtokR
  dsimp only
  generalize cstring nul buf save = s at h hpost hnul
  cases firstToken d s with
  | blank hb =>
      rw [tokens_of_delims hb] at h
      cases h
  | @last b t' hb ht hne =>
      rw [tokens_delims_append hb, tokens_token ht hne] at h
      obtain ⟨rfl, rfl⟩ := List.cons.inj h
      have hrest : (b ++ t').dropWhile (· = d) = t' := by
        have hdrop := dropWhile_delims (s := []) hb ht hne
        rwa [List.append_nil] at hdrop
      have hlen : (b ++ t').length - t'.length = b.length := by
        rw [List.length_append, Nat.add_sub_cancel]
      rw [hrest, hlen, takeWhile_token ht, if_neg hne, if_neg (Nat.lt_irrefl _)]
      exact ⟨_, _, _, rfl, found_last hpost hnul hend hb ht hne⟩
  | @more b t' s' hb ht hne =>
      rw [tokens_delims_append hb, tokens_token_append ht hne] at h
      obtain ⟨rfl, rfl⟩ := List.cons.inj h
      have hlen : (b ++ (t' ++ d :: s')).length - (t' ++ d :: s').length = b.length := by
        rw [List.length_append, Nat.add_sub_cancel]
      have hlt : save + b.length + t'.length < save + b.length + (t' ++ d :: s').length := by
        rw [List.length_append, List.length_cons]
        omega
      rw [dropWhile_delims hb ht hne, hlen, takeWhile_token_append ht,
        if_neg (List.append_ne_nil_of_left_ne_nil hne _), if_pos hlt]
      exact ⟨_, _, _, rfl, found_more hpost hnul hend hb ht hne⟩

/-- The tokens that are left after a call of `strtok_r`, the one that it found first. -/
def Strtok.Yields (nul d : α) (r : Strtok α) : List (List α) → Prop
  | [] => r.token = none
  | t :: ts => ∃ start, r.token = some start ∧ cstring nul r.buf start = t ∧
      start + t.length ≤ r.save ∧ tokens d (cstring nul r.buf r.save) = ts

theorem strtokR_yields (nul d : α) (buf : List α) (save : ℕ) :
    (strtokR nul d buf save).Yields nul d (tokens d (cstring nul buf save)) := by
  cases h : tokens d (cstring nul buf save) with
  | nil =>
      rw [strtokR_nil h]
      rfl
  | cons t ts =>
      obtain ⟨start, buf', next, heq, hfound⟩ := strtokR_cons h
      rw [heq]
      exact ⟨start, rfl, hfound.token, hfound.next_ge, hfound.rest⟩

/-- The next call goes on with the tokens that are left. -/
theorem Strtok.Yields.next {r : Strtok α} (h : r.Yields nul d (t :: ts)) :
    (strtokR nul d r.buf r.save).Yields nul d ts := by
  obtain ⟨start, -, -, -, rfl⟩ := h
  exact strtokR_yields nul d r.buf r.save

/-- What is not behind the place where a call goes on is not written, and later calls go
on behind it. -/
theorem strtokR_keeps (nul d : α) (buf : List α) (save : ℕ) :
    (∀ i ≤ save, (strtokR nul d buf save).buf[i]? = buf[i]?) ∧
      save ≤ (strtokR nul d buf save).save := by
  cases h : tokens d (cstring nul buf save) with
  | nil =>
      rw [strtokR_nil h]
      exact ⟨fun _ _ => rfl, Nat.le_add_right ..⟩
  | cons t ts =>
      obtain ⟨start, buf', next, heq, hfound⟩ := strtokR_cons h
      rw [heq]
      have hstart := hfound.start_ge
      have hnext := hfound.next_ge
      exact ⟨hfound.keeps, show save ≤ next by omega⟩

/-- A string is determined by the buffer up to its end. -/
theorem cstring_congr (h : ∀ j ≤ i + (cstring nul buf i).length, buf'[j]? = buf[j]?) :
    cstring nul buf' i = cstring nul buf i := by
  obtain ⟨post, hpost, hend⟩ := cstring_drop nul buf i
  have hnul : nul ∉ cstring nul buf i := nul_notMem_cstring
  generalize cstring nul buf i = s at h hpost hnul
  have hget : ∀ k, buf[i + k]? = (s ++ post)[k]? := fun k => by
    rw [← hpost, List.getElem?_drop]
  have hbuf' : buf'.drop i = s ++ buf'.drop (i + s.length) := by
    refine List.ext_getElem? ?_
    intro k
    rw [List.getElem?_drop, List.getElem?_append]
    split
    next hk =>
      rw [h _ (by omega), hget, List.getElem?_append_left hk]
    next hk =>
      rw [List.getElem?_drop]
      congr 1
      omega
  refine cstring_eq hbuf' hnul fun c hc => hend c ?_
  have hhead := hget s.length
  rw [List.head?_drop, h _ le_rfl, hhead, List.getElem?_append_right le_rfl, Nat.sub_self] at hc
  rw [List.head?_eq_getElem?]
  exact hc

/-- The tokens fit into the string, each with a character behind it. -/
theorem tokens_size (s : List α) : ((tokens d s).map fun t => t.length + 1).sum ≤ s.length + 1 := by
  induction hn : s.length using Nat.strong_induction_on generalizing s with
  | _ n ih =>
      cases firstToken d s with
      | blank hb =>
          rw [tokens_of_delims hb]
          exact Nat.zero_le _
      | last hb ht hne =>
          rw [tokens_delims_append hb, tokens_token ht hne]
          rw [List.length_append] at hn
          show _ + 1 + 0 ≤ _
          omega
      | @more b t s hb ht hne =>
          rw [tokens_delims_append hb, tokens_token_append ht hne, List.map_cons, List.sum_cons]
          rw [List.length_append, List.length_append, List.length_cons] at hn
          have hrest := ih s.length (by omega) s rfl
          omega

theorem tokens_length_le (s : List α) : (tokens d s).length ≤ s.length + 1 := by
  have hsize := tokens_size (d := d) s
  have hle : (tokens d s).length ≤ ((tokens d s).map fun t => t.length + 1).sum := by
    generalize tokens d s = ts
    induction ts with
    | nil => exact le_rfl
    | cons t ts ih =>
        rw [List.map_cons, List.sum_cons, List.length_cons]
        omega
  exact hle.trans hsize

theorem strtokR_length : (strtokR nul d buf save).buf.length = buf.length := by
  cases h : tokens d (cstring nul buf save) with
  | nil => rw [strtokR_nil h]
  | cons t ts =>
      obtain ⟨start, buf', next, heq, hfound⟩ := strtokR_cons h
      rw [heq]
      exact hfound.length

theorem cstring_zero (h : nul ∉ buf) : cstring nul buf 0 = buf := takeWhile_token h

/-- A token of a string has only characters of it. -/
theorem mem_of_mem_tokens {c : α} (s : List α) (ht : t ∈ tokens d s) (hc : c ∈ t) : c ∈ s := by
  induction hn : s.length using Nat.strong_induction_on generalizing s with
  | _ n ih =>
      cases firstToken d s with
      | blank hb =>
          rw [tokens_of_delims hb] at ht
          cases ht
      | last hb htok hne =>
          rw [tokens_delims_append hb, tokens_token htok hne, List.mem_singleton] at ht
          exact List.mem_append_right _ (ht ▸ hc)
      | @more b u s hb htok hne =>
          rw [tokens_delims_append hb, tokens_token_append htok hne, List.mem_cons] at ht
          rw [List.mem_append, List.mem_append, List.mem_cons]
          rcases ht with rfl | ht
          · exact .inr (.inl hc)
          · refine .inr (.inr (.inr (ih s.length ?_ s ht rfl)))
            rw [← hn, List.length_append, List.length_append, List.length_cons]
            omega

end

end Tokens
