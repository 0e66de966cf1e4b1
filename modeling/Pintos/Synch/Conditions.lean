import Mathlib.Data.List.Count
import Pintos.Synch.Semaphores

/-! # Condition variables

A thread in `cond_wait` stands in the list of the condition, until a signal takes
it out; the signalling thread ups the semaphore on its stack, and then it goes on.
An interrupt can come between any two of these, also between the release of the
lock and the `sema_down`: each signal ends one call of `cond_wait` all the same,
and no call ends without one.
-/

namespace Pintos.Synch

variable {k k' : Kernel} {p t u v : Ptr} {s : Sema} {a : Act} {acts r : List Act} {c l : Ptr}
  {e : Event} {b : Bool}

/-- How far the call of `cond_wait` is that a thread is in:

* `out`: it is in none, or its call is not in the list yet, or it has been woken up;
* `waiting`: it is in the list of the condition;
* `signalled`: another thread has taken it out, and is going to up the semaphore;
* `posted`: the semaphore has been upped. -/
inductive Turn where
  | out
  | waiting (c : Ptr)
  | signalled (c : Ptr)
  | posted (c : Ptr)
deriving DecidableEq, Repr

namespace Turn

/-- The semaphore is upped. -/
def post : Turn → Option Turn
  | .signalled c => some (.posted c)
  | _ => none

/-- The semaphore is downed. -/
def leave : Turn → Option Turn
  | .posted _ => some .out
  | _ => none

def inside (ph : Turn) : Bool := ph ≠ .out

def isSignalled : Turn → Bool
  | .signalled _ => true
  | _ => false

def isPosted : Turn → Bool
  | .posted _ => true
  | _ => false

end Turn

/-- What an event means for the call that thread `t` is in, if it may occur. -/
def Event.turn (t : Ptr) : Event → Turn → Option Turn
  | .wait u c, ph => if u = t then if ph = .out then some (.waiting c) else none else some ph
  | .signal u c, ph =>
      if u = t then if ph = .waiting c then some (.signalled c) else none else some ph
  | .up s, ph => if s = .ofWaiter t then ph.post else some ph
  | .down u s, ph => if s = .ofWaiter t then if u = t then ph.leave else none else some ph
  | _, ph => some ph

/-- How far the call is that thread `t` is in, if everything has come in its turn. -/
def turn (t : Ptr) : List Event → Option Turn
  | [] => some .out
  | e :: es => (turn t es).bind (e.turn t)

/-- Whether the thread is inside a call of `cond_wait` after an act, if it may be there now. -/
def Act.inside : Act → Bool → Option Bool
  | .enqueueWaiter _ _, b => if b then none else some true
  | .down (.ofWaiter _), b => if b then some false else none
  | .retest (.ofWaiter _), b => if b then some false else none
  | .tryDown (.ofWaiter _), _ => none
  | _, b => some b

/-- The acts lead out of `cond_wait`. -/
def LeadsOut : List Act → Bool → Prop
  | [], b => b = false
  | a :: acts, b => ∃ b', a.inside b = some b' ∧ LeadsOut acts b'

/-- What the kernel says about the call that a thread is in. -/
structure Standing (k : Kernel) (t : Ptr) (ph : Turn) : Prop where
  history : turn t k.hist = some ph
  code : LeadsOut (k.rest t) ph.inside
  listed : ∀ c, (k.conds c).count t = if ph = .waiting c then 1 else 0
  pending : (∃ u, (k.rest u).head? = some (.up (.ofWaiter t))) ↔ ph.isSignalled = true
  value : k.value (.ofWaiter t) = if ph.isPosted then 1 else 0

/-- Everybody's calls are in order, and a thread that is going to up the semaphore of a
waiter does this next. -/
structure Monitors (k : Kernel) : Prop where
  standing : ∀ t, ∃ ph, Standing k t ph
  tail : ∀ u t, .up (.ofWaiter t) ∉ (k.rest u).tail
  sole : ∀ t u v, (k.rest u).head? = some (.up (.ofWaiter t)) →
    (k.rest v).head? = some (.up (.ofWaiter t)) → u = v

/-- An event that is no part of the call of `cond_wait` that `t` is in. -/
theorem turn_silent_of (he : ∀ ph, e.turn t ph = some ph) {es : List Event} :
    turn t (e :: es) = turn t es := by
  show (turn t es).bind (e.turn t) = turn t es
  rw [show e.turn t = some from funext he]
  exact Option.bind_fun_some _

/-- An event that is no part of a call of `cond_wait`. -/
def Event.Silent (e : Event) : Prop := ∀ t ph, e.turn t ph = some ph

theorem turn_silent (he : e.Silent) {es : List Event} : turn t (e :: es) = turn t es :=
  turn_silent_of (he t)

theorem Event.silent_down (hs : ∀ t, s ≠ .ofWaiter t) : (Event.down u s).Silent :=
  fun t _ => if_neg (hs t)

theorem Event.silent_up (hs : ∀ t, s ≠ .ofWaiter t) : (Event.up s).Silent :=
  fun t _ => if_neg (hs t)

/-- The state changes only what the running thread has to do, and nothing of importance. -/
theorem Monitors.congr (h : Monitors k) (hhist : ∀ t, turn t k'.hist = turn t k.hist)
    (hconds : k'.conds = k.conds) (hvalue : ∀ t, k'.value (.ofWaiter t) = k.value (.ofWaiter t))
    (hcode : ∀ t b, LeadsOut (k.rest t) b → LeadsOut (k'.rest t) b)
    (hhead : ∀ u t, (k'.rest u).head? = some (.up (.ofWaiter t)) ↔
      (k.rest u).head? = some (.up (.ofWaiter t)))
    (htail : ∀ u t, .up (.ofWaiter t) ∉ (k'.rest u).tail) : Monitors k' := by
  refine ⟨fun t => ?_, htail, fun t u v hu hv => ?_⟩
  · obtain ⟨ph, hst⟩ := h.standing t
    refine ⟨ph, (hhist t).trans hst.history, hcode t _ hst.code, fun c => ?_, ?_, ?_⟩
    · rw [hconds]
      exact hst.listed c
    · simp only [hhead]
      exact hst.pending
    · rw [hvalue]
      exact hst.value
  · exact h.sole t u v ((hhead u t).mp hu) ((hhead v t).mp hv)

/-- The same with the acts of all threads as they were. -/
theorem Monitors.same (h : Monitors k) (hhist : ∀ t, turn t k'.hist = turn t k.hist)
    (hconds : k'.conds = k.conds) (hvalue : ∀ t, k'.value (.ofWaiter t) = k.value (.ofWaiter t))
    (hrest : k'.rest = k.rest) : Monitors k' := by
  refine h.congr hhist hconds hvalue (fun t b hb => ?_) (fun u t => ?_) fun u t => ?_
  · rw [hrest]
    exact hb
  · rw [hrest]
  · rw [hrest]
    exact h.tail u t

/-- The running thread gets something else to do. -/
theorem Monitors.setRest (h : Monitors k) (hcode : ∀ b, LeadsOut k.todo b → LeadsOut r b)
    (hhead : ∀ t, k.todo.head? ≠ some (.up (.ofWaiter t))) (hr : ∀ t, .up (.ofWaiter t) ∉ r) :
    Monitors (k.setRest k.current r) := by
  refine h.congr (fun _ => rfl) rfl (fun _ => rfl) (fun t b hb => ?_) (fun u t => ?_) fun u t => ?_
  · show LeadsOut (Function.update k.rest k.current r t) b
    by_cases ht : t = k.current
    · subst ht
      rw [Function.update_self]
      exact hcode b hb
    · rw [Function.update_of_ne ht]
      exact hb
  · show (Function.update k.rest k.current r u).head? = _ ↔ _
    by_cases hu : u = k.current
    · subst hu
      rw [Function.update_self]
      exact iff_of_false (fun hmem => hr t (List.mem_of_mem_head? hmem)) (hhead t)
    · rw [Function.update_of_ne hu]
  · show _ ∉ (Function.update k.rest k.current r u).tail
    by_cases hu : u = k.current
    · subst hu
      rw [Function.update_self]
      exact fun hmem => hr t (List.mem_of_mem_tail hmem)
    · rw [Function.update_of_ne hu]
      exact h.tail u t

theorem Monitors.notMem_acts (h : Monitors k) (htodo : k.todo = a :: acts) (t : Ptr) :
    .up (.ofWaiter t) ∉ acts := by
  have hno := h.tail k.current t
  rw [show k.rest k.current = _ from htodo] at hno
  exact hno

/-- The running thread is done with an act that is no part of a call of `cond_wait`. -/
theorem Monitors.advance (h : Monitors k) (htodo : k.todo = a :: acts)
    (hplain : ∀ b, a.inside b = some b) (ha : ∀ t, a ≠ .up (.ofWaiter t)) :
    Monitors (k.setRest k.current acts) := by
  refine h.setRest (fun b hb => ?_) (fun t => ?_) (h.notMem_acts htodo)
  · rw [htodo] at hb
    obtain ⟨b', hb', hacts⟩ := hb
    rw [hplain] at hb'
    rw [Option.some.inj hb']
    exact hacts
  · rw [htodo]
    exact fun heq => ha t (Option.some.inj heq)

/-! ## The acts of `cond_wait` and `cond_signal` -/

/-- What the running thread is going to do fits its turn. -/
theorem Monitors.head (h : Monitors k) (htodo : k.todo = a :: acts) :
    ∃ ph b, Standing k k.current ph ∧ a.inside ph.inside = some b ∧ LeadsOut acts b := by
  obtain ⟨ph, hst⟩ := h.standing k.current
  have hcode := hst.code
  rw [show k.rest k.current = _ from htodo] at hcode
  obtain ⟨b, hb, hacts⟩ := hcode
  exact ⟨ph, b, hst, hb, hacts⟩

/-- A step of the running thread that concerns the call of thread `t`, and of no other one. -/
theorem Monitors.change (h : Monitors k) (t : Ptr) (ph : Turn) (hst : Standing k' t ph)
    (hhist : ∀ u, u ≠ t → turn u k'.hist = turn u k.hist)
    (hcode : ∀ u b, u ≠ t → LeadsOut (k.rest u) b → LeadsOut (k'.rest u) b)
    (hconds : ∀ c u, u ≠ t → (k'.conds c).count u = (k.conds c).count u)
    (hhead : ∀ u v, v ≠ t → ((k'.rest u).head? = some (.up (.ofWaiter v)) ↔
      (k.rest u).head? = some (.up (.ofWaiter v))))
    (hvalue : ∀ u, u ≠ t → k'.value (.ofWaiter u) = k.value (.ofWaiter u))
    (htail : ∀ u v, .up (.ofWaiter v) ∉ (k'.rest u).tail)
    (hsole : ∀ u v, (k'.rest u).head? = some (.up (.ofWaiter t)) →
      (k'.rest v).head? = some (.up (.ofWaiter t)) → u = v) : Monitors k' := by
  refine ⟨fun u => ?_, htail, fun w u v hu hv => ?_⟩
  · by_cases hu : u = t
    · subst hu
      exact ⟨ph, hst⟩
    · obtain ⟨ph', hst'⟩ := h.standing u
      refine ⟨ph', (hhist u hu).trans hst'.history, hcode u _ hu hst'.code, fun c => ?_, ?_, ?_⟩
      · rw [hconds c u hu]
        exact hst'.listed c
      · simp only [hhead _ u hu]
        exact hst'.pending
      · rw [hvalue u hu]
        exact hst'.value
  · by_cases hw : w = t
    · subst hw
      exact hsole u v hu hv
    · exact h.sole w u v ((hhead u w hw).mp hu) ((hhead v w hw).mp hv)

/-- The acts of the other threads stay, and the running one has no semaphore of a waiter
to up. -/
theorem Monitors.tail_update (h : Monitors k) (htodo : k.todo = a :: acts) (u v : Ptr) :
    .up (.ofWaiter v) ∉ (Function.update k.rest k.current acts u).tail := by
  by_cases hu : u = k.current
  · subst hu
    rw [Function.update_self]
    exact fun hmem => h.notMem_acts htodo v (List.mem_of_mem_tail hmem)
  · rw [Function.update_of_ne hu]
    exact h.tail u v

theorem Monitors.head_update (h : Monitors k) (htodo : k.todo = a :: acts)
    (ha : a ≠ .up (.ofWaiter v)) (u : Ptr) :
    (Function.update k.rest k.current acts u).head? = some (.up (.ofWaiter v)) ↔
      (k.rest u).head? = some (.up (.ofWaiter v)) := by
  by_cases hu : u = k.current
  · subst hu
    rw [Function.update_self, show k.rest k.current = _ from htodo]
    refine iff_of_false (fun hmem => h.notMem_acts htodo v (List.mem_of_mem_head? hmem)) ?_
    exact fun heq => ha (Option.some.inj heq)
  · rw [Function.update_of_ne hu]

/-- `cond_wait` puts the thread into the list. -/
theorem Monitors.enqueue (h : Monitors k) (htodo : k.todo = .enqueueWaiter c l :: acts)
    (hvalue : k'.value = Function.update k.value (.ofWaiter k.current) 0)
    (hconds : k'.conds = Function.update k.conds c (k.conds c ++ [k.current]))
    (hrest : k'.rest = Function.update k.rest k.current acts)
    (hhist : k'.hist = .wait k.current c :: k.hist) : Monitors k' := by
  obtain ⟨ph, b, hst, hb, hacts⟩ := h.head htodo
  obtain rfl : ph = .out := by
    cases ph with
    | out => rfl
    | _ => cases hb
  obtain rfl := Option.some.inj hb
  have hhead := fun u v => h.head_update (v := v) htodo nofun u
  refine h.change k.current (.waiting c) ⟨?_, ?_, fun c' => ?_, ?_, ?_⟩
    (fun u hu => ?_) (fun u b hu hcode => ?_) (fun c' u hu => ?_) (fun u v _ => ?_)
    (fun u hu => ?_) (fun u v => ?_) fun u v hu hv => ?_
  · rw [hhist]
    show (turn k.current k.hist).bind _ = _
    rw [hst.history]
    simp [Event.turn]
  · rw [hrest, Function.update_self]
    exact hacts
  · rw [hconds]
    have hlisted := hst.listed c'
    by_cases hc : c' = c
    · subst hc
      rw [Function.update_self, List.count_append, hlisted]
      simp
    · rw [Function.update_of_ne hc, hlisted]
      simp [Ne.symm hc]
  · rw [hrest]
    simp only [hhead]
    exact hst.pending
  · rw [hvalue, Function.update_self]
    rfl
  · rw [hhist]
    refine turn_silent_of fun ph => ?_
    exact if_neg (Ne.symm hu)
  · rw [hrest, Function.update_of_ne hu]
    exact hcode
  · rw [hconds]
    by_cases hc : c' = c
    · subst hc
      rw [Function.update_self, List.count_append, List.count_singleton]
      simp [Ne.symm hu]
    · rw [Function.update_of_ne hc]
  · rw [hrest]
    exact hhead u v
  · rw [hvalue]
    exact Function.update_of_ne (fun heq => hu (Sema.ofWaiter.inj heq)) ..
  · rw [hrest]
    exact h.tail_update htodo u v
  · rw [hrest] at hu hv
    exact h.sole k.current u v ((hhead u _).mp hu) ((hhead v _).mp hv)

/-- `cond_signal` takes the first thread out of the list. -/
theorem Monitors.signal (h : Monitors k) {ts : List Ptr} (htodo : k.todo = .signal c l :: acts)
    (hc : k.conds c = t :: ts) :
    Monitors (((k.setConds c ts).setRest k.current (.up (.ofWaiter t) :: acts)).log
      (.signal t c)) := by
  obtain ⟨ph, hst⟩ := h.standing t
  have hlisted := hst.listed
  have hrest : k.rest k.current = .signal c l :: acts := htodo
  obtain rfl : ph = .waiting c := by
    by_contra hne
    have hzero := hlisted c
    rw [hc, List.count_cons_self, if_neg hne] at hzero
    exact Nat.succ_ne_zero _ hzero
  have hcode : ∀ u b, LeadsOut (k.rest u) b →
      LeadsOut (Function.update k.rest k.current (.up (.ofWaiter t) :: acts) u) b := by
    intro u b hb
    by_cases hu : u = k.current
    · subst hu
      rw [hrest] at hb
      rw [Function.update_self]
      exact hb
    · rw [Function.update_of_ne hu]
      exact hb
  have hnone : ∀ u, (k.rest u).head? ≠ some (.up (.ofWaiter t)) :=
    fun u hu => Bool.false_ne_true (hst.pending.mp ⟨u, hu⟩)
  refine h.change t (.signalled c) ⟨?_, hcode t _ hst.code, fun c' => ?_, ?_, hst.value⟩
    (fun u hu => ?_) (fun u b _ => hcode u b) (fun c' u hu => ?_) (fun u v hv => ?_)
    (fun _ _ => rfl) (fun u v => ?_) fun u v hu hv => ?_
  · show (turn t k.hist).bind _ = _
    rw [hst.history]
    simp [Event.turn]
  · show (Function.update k.conds c ts c').count t = 0
    have hcount := hlisted c'
    by_cases hc' : c' = c
    · subst hc'
      rw [hc, List.count_cons_self, if_pos rfl] at hcount
      rw [Function.update_self]
      exact Nat.succ.inj hcount
    · rw [Function.update_of_ne hc', hcount, if_neg]
      exact fun heq => hc' (Turn.waiting.inj heq).symm
  · refine iff_of_true ⟨k.current, ?_⟩ rfl
    show (Function.update k.rest k.current _ k.current).head? = _
    rw [Function.update_self]
    rfl
  · refine turn_silent_of fun ph => ?_
    exact if_neg (Ne.symm hu)
  · show (Function.update k.conds c ts c').count u = _
    by_cases hc' : c' = c
    · subst hc'
      rw [Function.update_self, hc, List.count_cons_of_ne (Ne.symm hu)]
    · rw [Function.update_of_ne hc']
  · show (Function.update k.rest k.current _ u).head? = _ ↔ _
    by_cases huc : u = k.current
    · subst huc
      rw [Function.update_self, hrest]
      refine iff_of_false (fun heq => hv ?_) nofun
      exact (Sema.ofWaiter.inj (Act.up.inj (Option.some.inj heq))).symm
    · rw [Function.update_of_ne huc]
  · show _ ∉ (Function.update k.rest k.current _ u).tail
    by_cases huc : u = k.current
    · subst huc
      rw [Function.update_self]
      exact h.notMem_acts htodo v
    · rw [Function.update_of_ne huc]
      exact h.tail u v
  · -- the thread that signals is the only one that is going to up this semaphore
    have hcur : ∀ w, (Function.update k.rest k.current (.up (.ofWaiter t) :: acts) w).head? =
        some (.up (.ofWaiter t)) → w = k.current := by
      intro w hw
      by_contra hwc
      rw [Function.update_of_ne hwc] at hw
      exact hnone w hw
    exact (hcur u hu).trans (hcur v hv).symm

theorem turn_popWaiter : turn t (popWaiter k s).hist = turn t k.hist := by
  unfold popWaiter
  split
  next => rfl
  next u us hw =>
    show turn t (.enqueue u :: .wake u s :: k.hist) = _
    rw [turn_silent fun _ _ => rfl, turn_silent fun _ _ => rfl]

theorem popWaiter_conds : (popWaiter k s).conds = k.conds := by
  unfold popWaiter
  split
  next => rfl
  next => rfl

/-- The signalling thread ups the semaphore. -/
theorem Monitors.post (h : Monitors k) (htodo : k.todo = .up (.ofWaiter t) :: acts) :
    Monitors (raised (k.setRest k.current acts) (.ofWaiter t)) := by
  obtain ⟨ph, hst⟩ := h.standing t
  have hrest : k.rest k.current = .up (.ofWaiter t) :: acts := htodo
  have hup : (k.rest k.current).head? = some (.up (.ofWaiter t)) := by
    rw [hrest]
    rfl
  obtain ⟨c, rfl⟩ : ∃ c, ph = .signalled c := by
    have hsig := hst.pending.mp ⟨_, hup⟩
    cases ph with
    | signalled c => exact ⟨c, rfl⟩
    | _ => cases hsig
  have hcode : ∀ u b, LeadsOut (k.rest u) b →
      LeadsOut (Function.update k.rest k.current acts u) b := by
    intro u b hb
    by_cases hu : u = k.current
    · subst hu
      rw [hrest] at hb
      obtain ⟨b', hb', hacts⟩ := hb
      rw [Function.update_self]
      exact Option.some.inj hb' ▸ hacts
    · rw [Function.update_of_ne hu]
      exact hb
  have hhist : ∀ u, turn u (raised (k.setRest k.current acts) (.ofWaiter t)).hist =
      (turn u k.hist).bind (Event.turn u (.up (.ofWaiter t))) := by
    intro u
    show (turn u (popWaiter (k.setRest k.current acts) (.ofWaiter t)).hist).bind _ = _
    rw [turn_popWaiter]
    rfl
  have hrest' : (raised (k.setRest k.current acts) (.ofWaiter t)).rest =
      Function.update k.rest k.current acts := raised_rest
  have hconds : (raised (k.setRest k.current acts) (.ofWaiter t)).conds = k.conds :=
    popWaiter_conds
  have hvalue : (raised (k.setRest k.current acts) (.ofWaiter t)).value =
      Function.update k.value (.ofWaiter t) ((k.value (.ofWaiter t) + 1) % uintRange) :=
    raised_value
  have hnone : ∀ u, (Function.update k.rest k.current acts u).head? ≠
      some (.up (.ofWaiter t)) := by
    intro u hu
    by_cases huc : u = k.current
    · subst huc
      rw [Function.update_self] at hu
      exact h.notMem_acts htodo t (List.mem_of_mem_head? hu)
    · rw [Function.update_of_ne huc] at hu
      exact huc (h.sole t u k.current hu hup)
  refine h.change t (.posted c) ⟨?_, ?_, fun c' => ?_, ?_, ?_⟩ (fun u hu => ?_)
    (fun u b _ hb => ?_) (fun c' u _ => ?_) (fun u v hv => ?_) (fun u hu => ?_) (fun u v => ?_)
    fun u v hu _ => ?_
  · rw [hhist, hst.history]
    exact if_pos rfl
  · rw [hrest']
    exact hcode t _ hst.code
  · rw [hconds]
    exact hst.listed c'
  · rw [hrest']
    exact iff_of_false (fun hex => hex.elim hnone) nofun
  · rw [hvalue, Function.update_self, hst.value]
    rfl
  · rw [hhist]
    refine turn_silent_of fun ph => ?_
    exact if_neg fun heq => hu (Sema.ofWaiter.inj heq).symm
  · rw [hrest']
    exact hcode u b hb
  · rw [hconds]
  · rw [hrest']
    refine h.head_update htodo (fun heq => hv ?_) u
    exact (Sema.ofWaiter.inj (Act.up.inj heq)).symm
  · rw [hvalue]
    exact Function.update_of_ne (fun heq => hu (Sema.ofWaiter.inj heq)) ..
  · rw [hrest']
    exact h.tail_update htodo u v
  · rw [hrest'] at hu
    exact absurd hu (hnone u)

/-- The thread goes on behind `sema_down`. -/
theorem Monitors.leave (h : Monitors k) (htodo : k.todo = a :: acts)
    (ha : a = .down (.ofWaiter k.current) ∨ a = .retest (.ofWaiter k.current))
    (hv : k.value (.ofWaiter k.current) ≠ 0) :
    Monitors (taken k (.ofWaiter k.current) acts) := by
  obtain ⟨ph, b, hst, hb, hacts⟩ := h.head htodo
  obtain ⟨c, rfl⟩ : ∃ c, ph = .posted c := by
    have hvalue := hst.value
    cases ph with
    | posted c => exact ⟨c, rfl⟩
    | _ => exact absurd hvalue hv
  obtain rfl : b = false := by
    rcases ha with rfl | rfl
    · exact (Option.some.inj hb).symm
    · exact (Option.some.inj hb).symm
  have hne : ∀ v, a ≠ .up (.ofWaiter v) := by
    rcases ha with rfl | rfl
    · exact nofun
    · exact nofun
  refine h.change k.current .out ⟨?_, ?_, hst.listed, ?_, ?_⟩ (fun u hu => ?_)
    (fun u b hu hb => ?_) (fun _ _ _ => rfl) (fun u v _ => h.head_update htodo (hne v) u)
    (fun u hu => ?_) (h.tail_update htodo) fun u v hu hv => ?_
  · show (turn k.current k.hist).bind _ = _
    rw [hst.history]
    show (if _ then if _ then _ else _ else _) = _
    rw [if_pos rfl, if_pos rfl]
    rfl
  · show LeadsOut (Function.update k.rest k.current acts k.current) _
    rw [Function.update_self]
    exact hacts
  · have hhead := fun u => h.head_update htodo (hne k.current) u
    show (∃ u, (Function.update k.rest k.current acts u).head? = _) ↔ _
    simp only [hhead]
    exact hst.pending
  · show Function.update k.value _ _ (.ofWaiter k.current) = _
    rw [Function.update_self, hst.value]
    rfl
  · refine turn_silent_of fun ph => ?_
    exact if_neg fun heq => hu (Sema.ofWaiter.inj heq).symm
  · show LeadsOut (Function.update k.rest k.current acts u) b
    rw [Function.update_of_ne hu]
    exact hb
  · exact Function.update_of_ne (fun heq => hu (Sema.ofWaiter.inj heq)) ..
  · exact h.sole _ u v ((h.head_update htodo (hne _) u).mp hu)
      ((h.head_update htodo (hne _) v).mp hv)

/-! ## Steps -/

theorem Monitors.scheduled (h : Monitors k) (hs : schedule k = .ok k') : Monitors k' := by
  obtain ⟨-, n, hn, -, rfl⟩ := schedule_iff.mp hs
  refine h.same (fun t => ?_) rfl (fun _ => rfl) rfl
  refine turn_silent fun t ph => ?_
  cases k.readyList.head? with
  | none => rfl
  | some m => rfl

/-- A semaphore that is no waiter's is upped. -/
theorem Monitors.raised (h : Monitors k) (hs : ∀ t, s ≠ .ofWaiter t) :
    Monitors (raised k s) := by
  refine h.same (fun t => ?_) popWaiter_conds (fun t => ?_) raised_rest
  · show turn t (.up s :: (popWaiter k s).hist) = _
    rw [turn_silent (Event.silent_up hs), turn_popWaiter]
  · rw [raised_value]
    exact Function.update_of_ne (hs t).symm ..

/-- A semaphore that is no waiter's is downed. -/
theorem Monitors.taken (h : Monitors (k.setRest k.current acts)) (hs : ∀ t, s ≠ .ofWaiter t) :
    Monitors (taken k s acts) :=
  h.same (fun _ => turn_silent (Event.silent_down hs)) rfl
    (fun t => Function.update_of_ne (hs t).symm ..) rfl

theorem Act.inside_of_ne (ha : a = .down s ∨ a = .retest s ∨ a = .tryDown s)
    (hs : ∀ t, s ≠ .ofWaiter t) (b : Bool) : a.inside b = some b := by
  cases s with
  | ofWaiter t => exact absurd rfl (hs t)
  | plain q =>
      rcases ha with rfl | rfl | rfl
      · rfl
      · rfl
      · rfl
  | ofLock l =>
      rcases ha with rfl | rfl | rfl
      · rfl
      · rfl
      · rfl

/-- No function tries to down the semaphore of a waiter. -/
theorem Monitors.tryDown_ne (h : Monitors k) (htodo : k.todo = .tryDown s :: acts) (t : Ptr) :
    s ≠ .ofWaiter t := by
  rintro rfl
  obtain ⟨ph, b, -, hb, -⟩ := h.head htodo
  cases hb

/-- The thread takes a unit. -/
theorem Monitors.take (h : Monitors k) (hs : Settled k p) (htodo : k.todo = a :: acts)
    (ha : a = .down s ∨ a = .retest s) (hv : k.value s ≠ 0) : Monitors (Synch.taken k s acts) := by
  by_cases hw : ∃ t, s = .ofWaiter t
  · obtain ⟨t, rfl⟩ := hw
    have hmem : a ∈ k.rest k.current := by
      rw [show k.rest k.current = _ from htodo]
      exact List.mem_cons_self
    -- a thread sleeps on no other stack than its own
    obtain rfl : k.current = t := by
      refine hs.queues.ownWaiter k.current t ?_
      rcases ha with rfl | rfl
      · exact .inl hmem
      · exact .inr hmem
    exact h.leave htodo ha hv
  · have hne : ∀ t, s ≠ .ofWaiter t := fun t heq => hw ⟨t, heq⟩
    refine (h.advance htodo (Act.inside_of_ne ?_ hne) fun t => ?_).taken hne
    · rcases ha with rfl | rfl
      · exact .inl rfl
      · exact .inr (.inl rfl)
    · rcases ha with rfl | rfl
      · exact nofun
      · exact nofun

/-- The thread goes to sleep, to test the value again. -/
theorem Monitors.asleep (h : Monitors k) (htodo : k.todo = a :: acts)
    (ha : a = .down s ∨ a = .retest s) : Monitors (asleep k s acts) := by
  have h₁ : Monitors (k.setRest k.current (.retest s :: acts)) := by
    refine h.setRest (fun b hb => ?_) (fun t => ?_) fun t hmem => ?_
    · rw [htodo] at hb
      rcases ha with rfl | rfl
      · cases s with
        | _ => exact hb
      · exact hb
    · rw [htodo]
      rcases ha with rfl | rfl
      · exact nofun
      · exact nofun
    · rcases List.mem_cons.mp hmem with heq | hmem
      · cases heq
      · exact h.notMem_acts htodo t hmem
  exact h₁.same (fun _ => turn_silent fun _ _ => rfl) rfl (fun _ => rfl) rfl

theorem Monitors.yielded (h : Monitors k) : Monitors (yielded k) := by
  unfold Synch.yielded
  split
  next => exact h.same (fun _ => turn_silent fun _ _ => rfl) rfl (fun _ => rfl) rfl
  next => exact h.same (fun _ => rfl) rfl (fun _ => rfl) rfl

/-- An act keeps the calls in order. -/
theorem Monitors.exec (h : Monitors k) (hs : Settled k p) (htodo : k.todo = a :: acts)
    (he : Exec k acts a k') : Monitors k' := by
  have hkeep : ∀ {k₁ : Kernel}, Monitors k₁ → ∀ {k₂ : Kernel}, k₂.hist = k₁.hist →
      k₂.conds = k₁.conds → k₂.value = k₁.value → k₂.rest = k₁.rest → Monitors k₂ :=
    fun h₁ _ hhist hconds hvalue hrest =>
      h₁.same (fun _ => by rw [hhist]) hconds (fun _ => by rw [hvalue]) hrest
  cases he with
  | sleep ha hv hsched => exact (h.asleep htodo ha).scheduled hsched
  | take ha hv => exact h.take hs htodo ha hv
  | tryTake hv =>
      have hne := h.tryDown_ne htodo
      exact (h.advance htodo (Act.inside_of_ne (.inr (.inr rfl)) hne) nofun).taken hne
  | tryFails hv =>
      exact h.advance htodo (Act.inside_of_ne (.inr (.inr rfl)) (h.tryDown_ne htodo)) nofun
  | @up s hw =>
      by_cases hs : ∃ t, s = .ofWaiter t
      · obtain ⟨t, rfl⟩ := hs
        exact h.post htodo
      · have hne : ∀ t, s ≠ .ofWaiter t := fun t heq => hs ⟨t, heq⟩
        exact (h.advance htodo (fun _ => rfl) fun t heq => hne t (Act.up.inj heq)).raised hne
  | checkFree hl => exact h.advance htodo (fun _ => rfl) nofun
  | setHolder => exact hkeep (h.advance htodo (fun _ => rfl) nofun) rfl rfl rfl rfl
  | pushLock => exact hkeep (h.advance htodo (fun _ => rfl) nofun) rfl rfl rfl rfl
  | clearHolder hl => exact hkeep (h.advance htodo (fun _ => rfl) nofun) rfl rfl rfl rfl
  | removeLock hl => exact hkeep (h.advance htodo (fun _ => rfl) nofun) rfl rfl rfl rfl
  | enqueueWaiter hl => exact h.enqueue htodo rfl rfl rfl rfl
  | signalNone hl hc => exact h.advance htodo (fun _ => rfl) nofun
  | signal hl hc => exact h.signal htodo hc
  | broadcastEnd hc => exact h.advance htodo (fun _ => rfl) nofun
  | @broadcast c l hc =>
      refine h.setRest (fun b hb => ?_) (fun t => ?_) fun t hmem => ?_
      · rw [htodo] at hb
        exact ⟨b, rfl, hb⟩
      · rw [htodo]
        exact nofun
      · rcases List.mem_cons.mp hmem with heq | hmem
        · cases heq
        · rcases List.mem_cons.mp hmem with heq | hmem
          · cases heq
          · exact h.notMem_acts htodo t hmem
  | loadTid => exact hkeep (h.advance htodo (fun _ => rfl) nofun) rfl rfl rfl rfl
  | storeTid ht => exact hkeep (h.advance htodo (fun _ => rfl) nofun) rfl rfl rfl rfl
  | setTid =>
      exact (h.advance htodo (fun _ => rfl) nofun).same (fun _ => turn_silent fun _ _ => rfl) rfl
        (fun _ => rfl) rfl
  | unblock ht =>
      exact (h.advance htodo (fun _ => rfl) nofun).same (fun _ => turn_silent fun _ _ => rfl) rfl
        (fun _ => rfl) rfl
  | yield hsched => exact (h.advance htodo (fun _ => rfl) nofun).yielded.scheduled hsched
  | finish hl hsched =>
      have hnil := hs.queues.exits k.current (by
        rw [show k.rest k.current = _ from htodo]
        exact List.mem_cons_self)
      obtain rfl : acts = [] := (List.cons.inj (htodo.symm.trans hnil)).2
      have h₁ : Monitors (ended k) := hkeep (h.advance htodo (fun _ => rfl) nofun) rfl rfl rfl rfl
      exact h₁.scheduled hsched
  | @releaseLock l hl hmem hw =>
      have h₁ : Monitors (unlisted k l) := hkeep h rfl rfl rfl rfl
      exact h₁.raised nofun
  | setIdle => exact hkeep (h.advance htodo (fun _ => rfl) nofun) rfl rfl rfl rfl
  | idleBlock hsched =>
      have h₁ : Monitors (k.setRest k.current [.halt]) := by
        refine h.setRest (fun b hb => ?_) (fun t => ?_) fun t hmem => ?_
        · obtain ⟨-, -, rfl⟩ := hs.queues.idle.of_idleBlock htodo
          rw [htodo] at hb
          exact hb
        · rw [htodo]
          exact nofun
        · cases List.mem_singleton.mp hmem
      have h₂ : Monitors ((k.setRest k.current [.halt]).setStatus k.current (some .blocked)) :=
        hkeep h₁ rfl rfl rfl rfl
      exact h₂.scheduled hsched

theorem Monitors.leaveHalt (h : Monitors k) : Monitors (leaveHalt k) := by
  unfold Synch.leaveHalt
  split
  next htodo =>
    refine h.setRest (fun b hb => ?_) (fun t => ?_) fun t hmem => ?_
    · rw [htodo] at hb
      exact hb
    · rw [htodo]
      exact nofun
    · cases List.mem_singleton.mp hmem
  next => exact h

theorem Monitors.ticked (h : Monitors k) : Monitors (ticked k) := by
  unfold Synch.ticked countTick
  split
  next => exact h.same (fun _ => rfl) rfl (fun _ => rfl) rfl
  next =>
    split
    next => exact h.same (fun _ => rfl) rfl (fun _ => rfl) rfl
    next => exact h.same (fun _ => rfl) rfl (fun _ => rfl) rfl

/-- Every function ends outside of `cond_wait`. -/
theorem Call.leadsOut (c : Call) : LeadsOut (c.code t) false := by
  cases c <;>
    simp [Call.code, LeadsOut, Act.inside, Synch.lockAcquire, Synch.lockRelease, Synch.condWait,
      Synch.threadCreate, allocateTid]

theorem Call.up_notMem (c : Call) : .up (.ofWaiter u) ∉ c.code t := by
  cases c <;>
    simp [Call.code, Synch.lockAcquire, Synch.lockRelease, Synch.condWait, Synch.threadCreate,
      allocateTid]

theorem Monitors.begin (h : Monitors k) (hs : Settled k p) {c : Call} (hc : c.Allowed k)
    (hidle : k.todo = []) : Monitors (begin k c) := by
  have hcall : Monitors (k.setRest k.current (c.code k.current)) := by
    refine h.setRest (fun b hb => ?_) (fun t => ?_) fun t => c.up_notMem
    · rw [hidle] at hb
      obtain rfl : b = false := hb
      exact c.leadsOut
    · rw [hidle]
      exact nofun
  cases c with
  | threadCreate t =>
      -- the page of the new thread was free
      have hnew : k.rest t = [] := by
        by_contra hne
        exact (hs.queues.alive t hne).1 hc.2
      refine hcall.same (fun _ => rfl) rfl (fun _ => rfl) ?_
      show Function.update (Function.update k.rest t []) k.current _ = _
      rw [← hnew, Function.update_eq_self]
      rfl
  | _ => exact hcall

/-- A step keeps the calls in order. -/
theorem Monitors.step (h : Monitors k) (hs : Settled k p) {b : Label} (hstep : Step k b k') :
    Monitors k' := by
  obtain ⟨-, hhappens⟩ := step_cases hstep
  cases hhappens with
  | call hc hidle => exact h.begin hs hc hidle
  | exec htodo he => exact h.exec hs htodo he
  | tick hon ht => exact h.leaveHalt.ticked
  | slice hon ht hsched => exact h.leaveHalt.ticked.yielded.scheduled hsched
  | device hon hw => exact h.leaveHalt.raised nofun
  | setPagedir hidle => exact h.same (fun _ => rfl) rfl (fun _ => rfl) rfl

theorem monitors_boot {listed : Bool} {main started : Ptr} {value : Ptr → ℕ} :
    Monitors (boot listed main p started value) := by
  have hno : ∀ u t, .up (.ofWaiter t) ∉ (boot listed main p started value).rest u := by
    intro u t hmem
    simpa using boot_acts hmem
  refine ⟨fun t => ⟨.out, rfl, ?_, fun c => rfl, ?_, rfl⟩,
    fun u t hmem => hno u t (List.mem_of_mem_tail hmem),
    fun t u v hu => absurd (List.mem_of_mem_head? hu) (hno u t)⟩
  · rw [boot_rest]
    split_ifs
    · exact ⟨false, rfl, false, rfl, false, rfl, rfl⟩
    · exact ⟨false, rfl, rfl⟩
    · exact rfl
  · exact iff_of_false (fun ⟨u, hu⟩ => hno u t (List.mem_of_mem_head? hu)) nofun

theorem Reachable.monitors (h : Reachable k) : Monitors k := by
  obtain ⟨k₀, ⟨listed, main, p, started, value, hne, rfl⟩, hreach⟩ := h
  exact (hreach.invariant (P := fun k => Settled k p ∧ Monitors k)
    (fun _ _ _ hs hk => ⟨hk.1.step hs, hk.2.step hk.1 hs⟩) ⟨settled_boot hne, monitors_boot⟩).2

/-! ## Reachable states -/

/-- The event begins, or ends, a wait of thread `t`, or is a signal for it. -/
def Event.begins (t : Ptr) : Event → Bool
  | .wait u _ => u = t
  | _ => false

@[inherit_doc Event.begins]
def Event.ends (t : Ptr) : Event → Bool
  | .down _ s => s = .ofWaiter t
  | _ => false

@[inherit_doc Event.begins]
def Event.signals (t : Ptr) : Event → Bool
  | .signal u _ => u = t
  | _ => false

theorem turn_cons {es : List Event} {ph : Turn} :
    turn t (e :: es) = some ph ↔ ∃ ph', turn t es = some ph' ∧ e.turn t ph' = some ph := by
  show (turn t es).bind _ = _ ↔ _
  rw [Option.bind_eq_some_iff]

/-- Where everything comes in its turn, waits, signals and ends alternate. -/
theorem turn_counts {es : List Event} {ph : Turn} (h : turn t es = some ph) :
    es.countP (Event.begins t) = es.countP (Event.ends t) + (if ph.inside then 1 else 0) ∧
      es.countP (Event.signals t) =
        es.countP (Event.ends t) + if ph.isSignalled || ph.isPosted then 1 else 0 := by
  induction es generalizing ph with
  | nil =>
      cases h
      exact ⟨rfl, rfl⟩
  | cons e es ih =>
      obtain ⟨ph', hes, he⟩ := turn_cons.mp h
      obtain ⟨hbegins, hsignals⟩ := ih hes
      simp only [List.countP_cons, hbegins, hsignals]
      cases e with
      | wait u c =>
          dsimp only [Event.turn] at he
          split_ifs at he with hu hph
          · cases he
            simp [Event.begins, Event.ends, Event.signals, hu, hph, Turn.inside, Turn.isSignalled,
              Turn.isPosted]
          · cases he
            simp [Event.begins, Event.ends, Event.signals, hu]
      | signal u c =>
          dsimp only [Event.turn] at he
          split_ifs at he with hu hph
          · cases he
            simp [Event.begins, Event.ends, Event.signals, hu, hph, Turn.inside, Turn.isSignalled,
              Turn.isPosted]
          · cases he
            simp [Event.begins, Event.ends, Event.signals, hu]
      | up s =>
          dsimp only [Event.turn] at he
          split_ifs at he with hs
          · cases ph' with
            | signalled c =>
                cases he
                simp [Event.begins, Event.ends, Event.signals, Turn.inside, Turn.isSignalled,
                  Turn.isPosted]
            | _ => cases he
          · cases he
            simp [Event.begins, Event.ends, Event.signals]
      | down u s =>
          dsimp only [Event.turn] at he
          split_ifs at he with hs hu
          · cases ph' with
            | posted c =>
                cases he
                simp [Event.begins, Event.ends, Event.signals, hs, Turn.inside, Turn.isSignalled,
                  Turn.isPosted]
            | _ => cases he
          · cases he
            simp [Event.begins, Event.ends, Event.signals, hs]
      | _ =>
          cases he
          simp [Event.begins, Event.ends, Event.signals]

/-- The call of `cond_wait` that a thread is in, in a reachable state. -/
structure Waits (k : Kernel) (t : Ptr) (ph : Turn) : Prop extends Standing k t ph where
  /-- The call has its own signal, and the thread does not go on without it. -/
  signals : k.hist.countP (Event.signals t) =
    k.hist.countP (Event.ends t) + if ph.isSignalled || ph.isPosted then 1 else 0
  begins : k.hist.countP (Event.begins t) =
    k.hist.countP (Event.ends t) + if ph.inside then 1 else 0
  /-- One thread is going to up the semaphore of a thread that has been signalled. -/
  sole : ph.isSignalled = true → ∃! u, (k.rest u).head? = some (.up (.ofWaiter t))
  /-- A thread whose semaphore has been upped does not sleep on it. -/
  awake : ph.isPosted = true → t ∉ k.waiters (.ofWaiter t)
  /-- A thread that is not inside a function is in no list of a condition. -/
  outside : k.rest t = [] → ph = .out

theorem Turn.eq_out {ph : Turn} (h : ph.inside = false) : ph = .out :=
  Decidable.not_not.mp (of_decide_eq_false h)

/-- Each signal wakes one thread, the one that it took out of the list, and ends one call of
`cond_wait`; no call ends without one, and none that has been signalled sleeps on. -/
theorem signal_ends_wait (h : Reachable k) (t : Ptr) : ∃ ph, Waits k t ph := by
  have hm := h.monitors
  obtain ⟨p, hs⟩ := h.settled
  obtain ⟨ph, hst⟩ := hm.standing t
  obtain ⟨hbegins, hsignals⟩ := turn_counts hst.history
  refine ⟨ph, hst, hsignals, hbegins, fun hsig => ?_, fun hposted ht => ?_, fun hrest => ?_⟩
  · obtain ⟨u, hu⟩ := hst.pending.mpr hsig
    exact ⟨u, hu, fun v hv => hm.sole t v u hv hu⟩
  · obtain ⟨ts, -, hway, hlen⟩ := h.noneForgotten _ (List.ne_nil_of_mem ht)
    -- nobody else could be on the way, and `t` is not
    have hnil : ts = [] := by
      rw [List.eq_nil_iff_forall_not_mem]
      intro u hu
      obtain ⟨hhead, hno⟩ := hway u hu
      obtain rfl := hs.queues.ownWaiter u t (.inr (List.mem_of_mem_head? hhead))
      exact hno ht
    rw [hnil, hst.value, if_pos hposted] at hlen
    exact Nat.not_succ_le_zero _ hlen
  · have hcode := hst.code
    rw [hrest] at hcode
    exact Turn.eq_out hcode

theorem signal_ends_wait_signalling : ∃ k, Reachable k ∧
    k.todo = [.up (.ofWaiter 1)] ∧ k.waiters (.ofWaiter 1) = [1] ∧ ∃ ph, Waits k 1 ph := by
  obtain ⟨k, hk, -, hw⟩ := reachable_of_check signalling
    (fun k => k.todo = [.up (.ofWaiter 1)] ∧ k.waiters (.ofWaiter 1) = [1]) (by decide +kernel)
  obtain ⟨htodo, hwaits⟩ := of_decide_eq_true hw
  exact ⟨k, hk, htodo, hwaits, signal_ends_wait hk 1⟩

end Pintos.Synch
