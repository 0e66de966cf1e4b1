import Pintos.Lib.Memory
import Pintos.Lib.Run
import Pintos.Vm.Swap

/-! # The swap store by itself

`swap.c` down to the sectors: `swap_out` and `swap_in` transfer a page in eight
sectors between kernel memory, at any address, and the swap block. Its purpose
is a map from slots to pages (`Held`); `swap_store_refines` says that the code
is that map, whatever calls are made in between. What the loops compute is what
the whole-page model of the virtual memory takes for granted
(`swapOut_whole`, `swapIn_whole`).
-/

namespace Pintos.Vm.SwapStore

open Memory

/-- A block device. `accessed` are the sectors that have been read or written,
newest first. -/
structure Block where
  size : ℕ
  sectors : ℕ → Sector
  accessed : List ℕ

def blockSectorSize : ℕ := 512

def swapFree : Bool := false
def swapInUse : Bool := true

/-- `swap_block`, `swap_map` and the kernel's memory. -/
structure State where
  swapBlock : Option Block
  swapMap : Option (List Bool)
  mem : Mem

/-! ## What Pintos provides -/

/-- `block_read` and `block_write` check the number of the sector. -/
def checkSector (b : Block) (sector : ℕ) : Except String Unit :=
  if sector < b.size then .ok () else .error "Access past end of device"

/-- `block_read`. -/
def blockRead (b : Block) (sector : ℕ) (m : Mem) (buffer : ℕ) : Except String (Mem × Block) := do
  checkSector b sector
  return (store m buffer (List.ofFn (b.sectors sector)),
    { b with accessed := sector :: b.accessed })

/-- `block_write`. -/
def blockWrite (b : Block) (sector : ℕ) (m : Mem) (buffer : ℕ) : Except String Block := do
  checkSector b sector
  return { b with
    sectors := Function.update b.sectors sector fun j => m (buffer + j.val)
    accessed := sector :: b.accessed }

/-- `bitmap_scan_and_flip (b, 0, 1, value)`. -/
def bitmapScanAndFlip (map : List Bool) (value : Bool) : Option (ℕ × List Bool) :=
  (map.findIdx? fun bit => bit = value).map fun i => (i, map.set i (!value))

/-- `bitmap_flip`, of a bit that is `value`. -/
def bitmapFlip (map : List Bool) (i : ℕ) (value : Bool) : List Bool := map.set i (!value)

/-! ## swap.c -/

/-- `start_swap`; `role` is the size and the contents of the block that
`block_get_role` returns, and `created` says whether `bitmap_create` returns a
bitmap. -/
def startSwap (role : Option (ℕ × (ℕ → Sector))) (created : Bool) (m : Mem) : State :=
  match role with
  | none => { swapBlock := none, swapMap := none, mem := m }
  | some (size, sectors) =>
      { swapBlock := some { size := size, sectors := sectors, accessed := [] }
        swapMap := if created then some (List.replicate (size / sectorsPerPage) swapFree)
          else none
        mem := m }

/-- The loop of `swap_out`. -/
def writeLoop (m : Mem) (freeIndex frame : ℕ) (b : Block) : Except String Block :=
  (List.finRange sectorsPerPage).foldlM
    (fun b i => blockWrite b (freeIndex * sectorsPerPage + i.val) m
      (frame + i.val * blockSectorSize)) b

/-- `swap_out`. -/
def swapOut (s : State) (frame : ℕ) : Except String (ℕ × State) :=
  match s.swapBlock, s.swapMap with
  | some b, some map =>
      match bitmapScanAndFlip map swapFree with
      | none => .error "Swap partition is full!"
      | some (freeIndex, map) => do
          let b ← writeLoop s.mem freeIndex frame b
          return (freeIndex, { s with swapBlock := some b, swapMap := some map })
  | _, _ => .error "Need swap partition but no swap partition present!"

/-- The loop of `swap_in`. -/
def readLoop (usedIndex frame : ℕ) (m : Mem) (b : Block) : Except String (Mem × Block) :=
  (List.finRange sectorsPerPage).foldlM
    (fun mb i => blockRead mb.2 (usedIndex * sectorsPerPage + i.val) mb.1
      (frame + i.val * blockSectorSize)) (m, b)

/-- `swap_in`. -/
def swapIn (s : State) (usedIndex frame : ℕ) : Except String State :=
  match s.swapBlock, s.swapMap with
  | some b, some map =>
      match map[usedIndex]? with
      | none => .error "bit_idx < b->bit_cnt"
      | some bit =>
          if bit = swapFree then
            .error swapInFree
          else do
            let (m, b) ← readLoop usedIndex frame s.mem b
            return { swapBlock := some b, swapMap := some (bitmapFlip map usedIndex bit), mem := m }
  | _, _ => .ok s

/-! ## The loops -/

/-- The page at an address. -/
def pageAt (m : Mem) (frame : ℕ) : Page := fun b => m (frame + b.val)

/-- The sectors of a slot. -/
def slotSectors (index : ℕ) : List ℕ :=
  (List.finRange sectorsPerPage).map fun i => index * sectorsPerPage + i.val

variable {s s' : State} {b : Block} {map : List Bool} {m : Mem} {i j index frame x : ℕ}
  {page : Page}

theorem mem_slotSectors : x ∈ slotSectors index ↔ x / sectorsPerPage = index := by
  unfold slotSectors
  rw [List.mem_map]
  constructor
  · rintro ⟨i, -, rfl⟩
    have hi : i.val < 8 := i.isLt
    show (index * 8 + i.val) / 8 = index
    omega
  · intro hx
    refine ⟨⟨x % 8, Nat.mod_lt _ (by decide)⟩, List.mem_finRange _, ?_⟩
    have hx' : x / 8 = index := hx
    show index * 8 + x % 8 = x
    omega

/-- The sectors of a slot of the bitmap are on the block. -/
theorem lt_size_of_slot (hindex : index < b.size / sectorsPerPage) (hx : x ∈ slotSectors index) :
    x < b.size := by
  have hx' : x / 8 = index := mem_slotSectors.mp hx
  have hindex' : index < b.size / 8 := hindex
  omega

/-- The loop of `swap_out` writes the page at `frame` to the sectors of the slot. -/
theorem writeLoop_eq (hindex : index < b.size / sectorsPerPage) :
    writeLoop m index frame b = .ok
      { size := b.size, sectors := blockWritePage b.sectors index (pageAt m frame),
        accessed := (slotSectors index).reverse ++ b.accessed } := by
  have hsector : ∀ i : Fin sectorsPerPage, index * sectorsPerPage + i.val < b.size :=
    fun i => lt_size_of_slot hindex (List.mem_map_of_mem (List.mem_finRange i))
  unfold writeLoop blockWritePage slotSectors
  generalize List.finRange sectorsPerPage = l
  induction l generalizing b with
  | nil => rfl
  | cons i l ih =>
      have hwrite : blockWrite b (index * sectorsPerPage + i.val) m
          (frame + i.val * blockSectorSize) = .ok { b with
            sectors := Function.update b.sectors (index * sectorsPerPage + i.val)
              (sectorOf (pageAt m frame) i)
            accessed := (index * sectorsPerPage + i.val) :: b.accessed } := by
        unfold blockWrite checkSector
        rw [if_pos (hsector i)]
        have hdata : (fun j : Fin 512 => m (frame + i.val * blockSectorSize + j.val)) =
            sectorOf (pageAt m frame) i := by
          funext j
          exact congrArg m (Nat.add_assoc ..)
        rw [hdata]
        rfl
      rw [List.foldlM_cons, hwrite]
      refine (ih (b := { b with
            sectors := Function.update b.sectors (index * sectorsPerPage + i.val)
              (sectorOf (pageAt m frame) i)
            accessed := (index * sectorsPerPage + i.val) :: b.accessed }) hindex hsector).trans ?_
      rw [List.map_cons, List.reverse_cons, List.append_assoc]
      rfl

/-- One sector of a page in memory. -/
theorem store_sector {n : ℕ} {sector : Sector} (o : ℕ) :
    store m (frame + n * blockSectorSize) (List.ofFn sector) (frame + o) =
      if o / 512 = n then sector ⟨o % 512, Nat.mod_lt _ (by decide)⟩ else m (frame + o) := by
  have hdiv := Nat.div_add_mod o 512
  have hmod : o % 512 < 512 := Nat.mod_lt _ (by decide)
  unfold blockSectorSize
  rcases lt_trichotomy (o / 512) n with hlt | heq | hgt
  · rw [if_neg hlt.ne]
    exact store_below (by omega)
  · have hx : frame + o = frame + n * 512 + o % 512 := by omega
    rw [if_pos heq, hx, store_add, List.getElem?_eq_getElem (by rw [List.length_ofFn]; exact hmod),
      Option.getD_some, List.getElem_ofFn]
  · rw [if_neg hgt.ne']
    exact store_above (by rw [List.length_ofFn]; omega)

/-- The memory after the sectors in `l` have been read, one behind the other. -/
def readSectors (sectors : ℕ → Sector) (index frame : ℕ) (m : Mem) (l : List (Fin 8)) : Mem :=
  l.foldl (fun m i => store m (frame + i.val * blockSectorSize)
    (List.ofFn (sectors (index * sectorsPerPage + i.val)))) m

theorem readSectors_below {sectors : ℕ → Sector} (l : List (Fin 8)) (hx : x < frame) :
    readSectors sectors index frame m l x = m x := by
  induction l generalizing m with
  | nil => rfl
  | cons i l ih =>
      refine (ih (m := store m _ _)).trans ?_
      exact store_below (by unfold blockSectorSize; omega)

theorem readSectors_add {sectors : ℕ → Sector} (l : List (Fin 8)) (o : ℕ) :
    readSectors sectors index frame m l (frame + o) =
      if o / 512 ∈ l.map (·.val) then
        sectors (index * sectorsPerPage + o / 512) ⟨o % 512, Nat.mod_lt _ (by decide)⟩
      else m (frame + o) := by
  induction l generalizing m with
  | nil => rfl
  | cons i l ih =>
      refine (ih (m := store m _ _)).trans ?_
      rw [store_sector]
      by_cases hi : o / 512 = i.val
      · rw [if_pos hi, ← hi, ite_self, if_pos (by simp [hi])]
      · simp only [List.map_cons, List.mem_cons, hi, if_false, false_or]

/-- The loop of `swap_in` reads the page in the slot to `frame`, and changes no
other memory. -/
theorem readLoop_eq (m : Mem) (frame : ℕ) (hindex : index < b.size / sectorsPerPage) :
    ∃ m', readLoop index frame m b =
        .ok (m', { b with accessed := (slotSectors index).reverse ++ b.accessed }) ∧
      pageAt m' frame = blockReadPage b.sectors index ∧
      ∀ x, x < frame ∨ frame + pgSize ≤ x → m' x = m x := by
  have hsector : ∀ i : Fin sectorsPerPage, index * sectorsPerPage + i.val < b.size :=
    fun i => lt_size_of_slot hindex (List.mem_map_of_mem (List.mem_finRange i))
  have hall : ∀ n < 8, n ∈ (List.finRange 8).map (·.val) :=
    fun n hn => List.mem_map.mpr ⟨⟨n, hn⟩, List.mem_finRange _, rfl⟩
  refine ⟨readSectors b.sectors index frame m (List.finRange sectorsPerPage), ?_, ?_, ?_⟩
  · unfold readLoop slotSectors readSectors
    generalize List.finRange sectorsPerPage = l
    induction l generalizing m b with
    | nil => rfl
    | cons i l ih =>
        have hread : blockRead b (index * sectorsPerPage + i.val) m
            (frame + i.val * blockSectorSize) = .ok
              (store m (frame + i.val * blockSectorSize)
                (List.ofFn (b.sectors (index * sectorsPerPage + i.val))),
              { b with accessed := (index * sectorsPerPage + i.val) :: b.accessed }) := by
          unfold blockRead checkSector
          rw [if_pos (hsector i)]
          rfl
        rw [List.foldlM_cons, hread]
        refine (ih (b := { b with accessed := (index * sectorsPerPage + i.val) :: b.accessed })
          (m := store m _ _) hindex hsector).trans ?_
        rw [List.map_cons, List.reverse_cons, List.append_assoc]
        rfl
  · funext o
    have ho : o.val / 512 < 8 := Nat.div_lt_of_lt_mul o.isLt
    show readSectors b.sectors index frame m (List.finRange 8) (frame + o.val) = _
    rw [readSectors_add, if_pos (hall _ ho)]
    rfl
  · intro x hx
    rcases hx with hlt | hge
    · exact readSectors_below _ hlt
    · obtain ⟨o, rfl⟩ := Nat.exists_eq_add_of_le (show frame ≤ x by omega)
      have ho : ¬ o / 512 < 8 := by
        have hge' : frame + 4096 ≤ frame + o := hge
        omega
      rw [readSectors_add, if_neg]
      intro hm
      rcases List.mem_map.mp hm with ⟨i, -, hi⟩
      exact ho (hi ▸ i.isLt)

/-! ## The map -/

/-- What the store is for: the pages that are swapped out, by slot. -/
abbrev Held := ℕ → Option Page

/-- The calls, and what other code does to the memory between them. `swapOut`
carries the index that the call returns. -/
inductive Call where
  | swapOut (frame index : ℕ)
  | swapIn (index frame : ℕ)
  | other (mem : Mem)

/-- The map after a call from state `s`: `swap_out` puts the page it is passed
under the index it returns, `swap_in` takes it out. -/
def record (h : Held) (s : State) : Call → Held
  | .swapOut frame index => Function.update h index (some (pageAt s.mem frame))
  | .swapIn index _ => Function.update h index none
  | .other _ => h

/-- One call, with the map beside the state. `swap_in` is called with an index
that an earlier `swap_out` has returned and that has not been swapped in since. -/
def Step (c : State × Held) (a : Call) (c' : State × Held) : Prop :=
  c'.2 = record c.2 c.1 a ∧
    match a with
    | .swapOut frame index => swapOut c.1 frame = .ok (index, c'.1)
    | .swapIn index frame => c.2 index ≠ none ∧ swapIn c.1 index frame = .ok c'.1
    | .other mem => c'.1 = { c.1 with mem := mem }

/-- The pages in the slots that are in use. -/
def contents (b : Block) (map : List Bool) : Held := fun i =>
  if map[i]? = some swapInUse then some (blockReadPage b.sectors i) else none

/-- The state is that of the map. -/
structure Represents (s : State) (h : Held) : Prop where
  ready : ∀ b map, s.swapBlock = some b → s.swapMap = some map →
    map.length = b.size / sectorsPerPage ∧ h = contents b map
  absent : s.swapBlock = none ∨ s.swapMap = none → ∀ i, h i = none
  accessed : ∀ b, s.swapBlock = some b → ∀ n ∈ b.accessed, n < b.size

variable {h : Held} {role : Option (ℕ × (ℕ → Sector))} {created : Bool} {as : List Call}

theorem represents_startSwap : Represents (startSwap role created m) fun _ => none := by
  rcases role with _ | ⟨size, sectors⟩
  · refine ⟨?_, fun _ _ => rfl, ?_⟩
    · intro b map hb
      cases hb
    · intro b hb
      cases hb
  · refine ⟨?_, fun _ _ => rfl, ?_⟩
    · intro b map hb hmap
      cases hb
      cases created with
      | false => cases hmap
      | true =>
          cases hmap
          refine ⟨List.length_replicate, ?_⟩
          funext i
          unfold contents
          rw [if_neg]
          intro huse
          have hmem : swapInUse ∈ List.replicate (size / sectorsPerPage) swapFree :=
            List.mem_of_getElem? huse
          cases (List.mem_replicate.mp hmem).2
    · intro b hb n hn
      cases hb
      cases hn

/-- Writing one slot and setting its bit. -/
theorem contents_write {accessed : List ℕ} (hlt : index < map.length) :
    contents ⟨b.size, blockWritePage b.sectors index page, accessed⟩ (map.set index swapInUse) =
      Function.update (contents b map) index (some page) := by
  funext i
  unfold contents
  by_cases hi : i = index
  · subst hi
    rw [List.getElem?_set_self hlt, if_pos rfl, Function.update_self, blockReadPage_blockWritePage]
  · rw [List.getElem?_set_ne (Ne.symm hi), Function.update_of_ne hi,
      blockReadPage_blockWritePage_of_ne hi]

/-- Clearing the bit of a slot. -/
theorem contents_free {accessed : List ℕ} :
    contents { b with accessed := accessed } (map.set index swapFree) =
      Function.update (contents b map) index none := by
  funext i
  unfold contents
  by_cases hi : i = index
  · subst hi
    rw [Function.update_self, if_neg]
    intro huse
    rcases List.getElem?_eq_some_iff.mp huse with ⟨hlt, hget⟩
    rw [List.getElem_set_self] at hget
    cases hget
  · rw [List.getElem?_set_ne (Ne.symm hi), Function.update_of_ne hi]

/-- The first free slot is found, and marked. -/
theorem bitmapScanAndFlip_some {map' : List Bool}
    (hscan : bitmapScanAndFlip map swapFree = some (index, map')) :
    map[index]? = some swapFree ∧ map' = map.set index swapInUse := by
  rcases Option.map_eq_some_iff.mp hscan with ⟨i, hfind, heq⟩
  cases heq
  rcases List.findIdx?_eq_some_iff_getElem.mp hfind with ⟨hlt, hfree, -⟩
  exact ⟨List.getElem?_eq_some_iff.mpr ⟨hlt, by simpa using hfree⟩, rfl⟩

/-- If no slot is free, all are in use. -/
theorem bitmapScanAndFlip_none (hscan : bitmapScanAndFlip map swapFree = none)
    (hlt : index < map.length) : map[index]? = some swapInUse := by
  have hfind := List.findIdx?_eq_none_iff.mp (Option.map_eq_none_iff.mp hscan)
  have hbit := hfind map[index] (List.getElem_mem hlt)
  rw [List.getElem?_eq_getElem hlt]
  cases hval : map[index] with
  | true => rfl
  | false => simp [hval, swapFree] at hbit

/-! ## The calls -/

/-- A call of `swap_out` or `swap_in` for slot `index`: it reads or writes the
sectors of that slot, once each. -/
def Accesses (s s' : State) (index : ℕ) : Prop :=
  ∃ b b', s.swapBlock = some b ∧ s'.swapBlock = some b' ∧ b'.size = b.size ∧
    b'.accessed = (slotSectors index).reverse ++ b.accessed

/-- The slot can be given out again. -/
def Available (s : State) (index : ℕ) : Prop :=
  ∃ map, s.swapMap = some map ∧ map[index]? = some swapFree

/-- The sectors accessed so far are on the block after another access of a slot. -/
theorem accessed_append {accessed : List ℕ} (hindex : index < b.size / sectorsPerPage)
    (hold : ∀ n ∈ accessed, n < b.size) :
    ∀ n ∈ (slotSectors index).reverse ++ accessed, n < b.size := by
  intro n hn
  rcases List.mem_append.mp hn with hm | hm
  · exact lt_size_of_slot hindex (List.mem_reverse.mp hm)
  · exact hold n hm

/-- `swap_out` puts the page into a slot that was not in use. -/
theorem swapOut_spec (hrep : Represents s h) (hout : swapOut s frame = .ok (index, s')) :
    h index = none ∧ Represents s' (Function.update h index (some (pageAt s.mem frame))) ∧
      Accesses s s' index := by
  unfold swapOut at hout
  split at hout
  next b map hb hmap =>
    rcases hrep.ready b map hb hmap with ⟨hlength, hcontents⟩
    split at hout
    next => cases hout
    next free map' hscan =>
      rcases bitmapScanAndFlip_some hscan with ⟨hfree, rfl⟩
      have hlt : free < map.length := (List.getElem?_eq_some_iff.mp hfree).1
      have hindex : free < b.size / sectorsPerPage := hlength ▸ hlt
      rw [writeLoop_eq hindex] at hout
      cases hout
      refine ⟨?_, ⟨?_, ?_, ?_⟩, b, _, hb, rfl, rfl, rfl⟩
      · rw [hcontents]
        unfold contents
        rw [hfree]
        rfl
      · intro b' map' hb' hmap'
        cases hb'
        cases hmap'
        refine ⟨List.length_set.trans hlength, ?_⟩
        rw [hcontents, contents_write hlt]
      · rintro (hnone | hnone)
        · cases hnone
        · cases hnone
      · intro b' hb'
        cases hb'
        exact accessed_append hindex (hrep.accessed b hb)
  next => cases hout

/-- `swap_out` fails only if there is no swap partition or every slot is in use. -/
theorem swapOut_error {msg : String} (hrep : Represents s h)
    (hout : swapOut s frame = .error msg) : s.swapBlock = none ∨ s.swapMap = none ∨
      msg = "Swap partition is full!" ∧
        ∀ b, s.swapBlock = some b → ∀ i < b.size / sectorsPerPage, h i ≠ none := by
  unfold swapOut at hout
  split at hout
  next b map hb hmap =>
    rcases hrep.ready b map hb hmap with ⟨hlength, hcontents⟩
    split at hout
    next hscan =>
      cases hout
      refine .inr (.inr ⟨rfl, ?_⟩)
      intro b' hb' i hi
      rw [hb] at hb'
      cases hb'
      rw [hcontents]
      unfold contents
      rw [if_pos (bitmapScanAndFlip_none hscan (hlength ▸ hi))]
      exact Option.some_ne_none _
    next free map' hscan =>
      rcases bitmapScanAndFlip_some hscan with ⟨hfree, -⟩
      have hindex : free < b.size / sectorsPerPage :=
        hlength ▸ (List.getElem?_eq_some_iff.mp hfree).1
      rw [writeLoop_eq hindex] at hout
      cases hout
  next hnot =>
    cases hb : s.swapBlock with
    | none => exact .inl rfl
    | some b =>
        cases hmap : s.swapMap with
        | none => exact .inr (.inl rfl)
        | some map => exact absurd hmap (hnot b map hb)

/-- `swap_in` reads the page of the slot and gives the slot back. -/
theorem swapIn_spec (hrep : Represents s h) (hheld : h index = some page) (frame : ℕ) :
    ∃ s', swapIn s index frame = .ok s' ∧ pageAt s'.mem frame = page ∧
      (∀ x, x < frame ∨ frame + pgSize ≤ x → s'.mem x = s.mem x) ∧
      Represents s' (Function.update h index none) ∧ Accesses s s' index ∧ Available s' index := by
  cases hb : s.swapBlock with
  | none =>
      rw [hrep.absent (.inl hb)] at hheld
      cases hheld
  | some b =>
      cases hmap : s.swapMap with
      | none =>
          rw [hrep.absent (.inr hmap)] at hheld
          cases hheld
      | some map =>
          rcases hrep.ready b map hb hmap with ⟨hlength, hcontents⟩
          have huse : map[index]? = some swapInUse ∧ blockReadPage b.sectors index = page := by
            rw [hcontents] at hheld
            unfold contents at hheld
            split at hheld
            next huse => exact ⟨huse, Option.some.inj hheld⟩
            next => cases hheld
          rcases huse with ⟨huse, hpage⟩
          have hlt : index < map.length := (List.getElem?_eq_some_iff.mp huse).1
          have hindex : index < b.size / sectorsPerPage := hlength ▸ hlt
          rcases readLoop_eq s.mem frame hindex with
            ⟨m', hloop, hread, helse⟩
          refine ⟨⟨some { b with accessed := (slotSectors index).reverse ++ b.accessed },
            some (map.set index swapFree), m'⟩, ?_, hread.trans hpage, helse, ⟨?_, ?_, ?_⟩,
            ⟨b, _, hb, rfl, rfl, rfl⟩, map.set index swapFree, rfl, ?_⟩
          · unfold swapIn
            rw [hb, hmap]
            dsimp only
            rw [huse]
            dsimp only
            rw [if_neg (by decide), hloop]
            rfl
          · intro b' map' hb' hmap'
            cases hb'
            cases hmap'
            refine ⟨List.length_set.trans hlength, ?_⟩
            rw [hcontents, contents_free]
          · rintro (hnone | hnone)
            · cases hnone
            · cases hnone
          · intro b' hb'
            cases hb'
            exact accessed_append hindex (hrep.accessed b hb)
          · exact List.getElem?_set_self hlt

/-- As long as a slot is available `swap_out` succeeds. -/
theorem swapOut_available (hrep : Represents s h) (hblock : s.swapBlock = some b)
    (hfree : Available s index) : ∃ j s', swapOut s frame = .ok (j, s') := by
  rcases hfree with ⟨map, hmap, hbit⟩
  rcases hrep.ready b map hblock hmap with ⟨hlength, hcontents⟩
  cases hout : swapOut s frame with
  | ok r => exact ⟨r.1, r.2, rfl⟩
  | error msg =>
      exfalso
      rcases swapOut_error hrep hout with hnone | hnone | ⟨-, hfull⟩
      · rw [hblock] at hnone
        cases hnone
      · rw [hmap] at hnone
        cases hnone
      · have hlt : index < b.size / sectorsPerPage :=
          hlength ▸ (List.getElem?_eq_some_iff.mp hbit).1
        refine hfull b hblock index hlt ?_
        rw [hcontents]
        unfold contents
        rw [hbit]
        rfl

/-- Every call keeps the state that of the map. -/
theorem Represents.step {c c' : State × Held} {a : Call} (hrep : Represents c.1 c.2)
    (hs : Step c a c') : Represents c'.1 c'.2 := by
  rcases c with ⟨s, h⟩
  rcases c' with ⟨s', h'⟩
  rcases hs with ⟨hh, hcall⟩
  dsimp only at hrep hh ⊢
  subst hh
  cases a with
  | swapOut frame index => exact (swapOut_spec hrep hcall).2.1
  | swapIn index frame =>
      rcases Option.ne_none_iff_exists'.mp hcall.1 with ⟨page, hpage⟩
      rcases swapIn_spec hrep hpage frame with ⟨s'', hin, -, -, hrep', -⟩
      obtain rfl : s'' = s' := Except.ok.inj (hin.symm.trans hcall.2)
      exact hrep'
  | other mem =>
      obtain rfl : s' = { s with mem := mem } := hcall
      exact ⟨hrep.ready, hrep.absent, hrep.accessed⟩

/-- What the calls do in a state whose map is `h`. -/
structure RefinesMap (s : State) (h : Held) : Prop where
  /-- `swap_in` of a page that is swapped out gets its bytes back to any address,
  changes no other memory, and makes the slot available: `swap_out` can give it
  out again. -/
  swapIn : ∀ index page, h index = some page → ∀ frame, ∃ s', swapIn s index frame = .ok s' ∧
    pageAt s'.mem frame = page ∧ (∀ x, x < frame ∨ frame + pgSize ≤ x → s'.mem x = s.mem x) ∧
    Accesses s s' index ∧ Available s' index ∧
    ∀ frame', ∃ j s'', swapOut s' frame' = .ok (j, s'')
  /-- `swap_out` never returns the index of a slot in use. -/
  swapOut : ∀ frame index s', swapOut s frame = .ok (index, s') →
    h index = none ∧ Accesses s s' index
  /-- Every sector that has been accessed is on the block. -/
  accessed : ∀ b, s.swapBlock = some b → ∀ n ∈ b.accessed, n < b.size
  /-- Slots in use share no sector, and lie on the block. -/
  apart : ∀ i j, h i ≠ none → h j ≠ none → i ≠ j → (slotSectors i).Disjoint (slotSectors j)
  /-- `swap_out` panics only without a swap partition or with every slot in use. -/
  panics : ∀ frame msg, SwapStore.swapOut s frame = .error msg →
    s.swapBlock = none ∨ s.swapMap = none ∨ msg = "Swap partition is full!" ∧
      ∀ b, s.swapBlock = some b → ∀ i < b.size / sectorsPerPage, h i ≠ none

theorem Represents.refinesMap (hrep : Represents s h) : RefinesMap s h where
  swapIn := by
    intro index page hheld frame
    rcases swapIn_spec hrep hheld frame with ⟨s', hin, hpage, helse, hrep', hacc, hfree⟩
    refine ⟨s', hin, hpage, helse, hacc, hfree, ?_⟩
    intro frame'
    rcases hacc with ⟨b, b', -, hb', -⟩
    exact swapOut_available hrep' hb' hfree
  swapOut := by
    intro frame index s' hout
    rcases swapOut_spec hrep hout with ⟨hnone, -, hacc⟩
    exact ⟨hnone, hacc⟩
  accessed := hrep.accessed
  apart := by
    intro i j _ _ hne x hi hj
    exact hne ((mem_slotSectors.mp hi).symm.trans (mem_slotSectors.mp hj))
  panics := fun _ _ hout => swapOut_error hrep hout

/-- The swap store is a map from slots to pages. For every swap block, and after
every sequence of calls in which `swap_in` is called with indices of pages that
are swapped out, with any changes of memory in between: `swap_in` reads back
exactly the bytes that `swap_out` was passed for that index. -/
theorem swap_store_refines
    (hrun : Lts.Run Step (startSwap role created m, fun _ => none) as (s, h)) :
    RefinesMap s h := by
  have hrep : Represents s h :=
    hrun.invariant (P := fun c => Represents c.1 c.2) (fun _ _ _ hs hc => hc.step hs)
      represents_startSwap
  exact hrep.refinesMap

/-- A block of 20 sectors has two slots. A page of ones and, from the same frame, a
page of twos are swapped out; the page of ones can be swapped in elsewhere. -/
theorem swap_store_refines_run : ∃ s h, Lts.Run Step
      (startSwap (some (20, fun _ _ => 0)) true fun _ => 1, fun _ => none)
      [.swapOut 0 0, .other fun _ => 2, .swapOut 0 1] (s, h) ∧
    (∃ s', swapIn s 0 8192 = .ok s' ∧ pageAt s'.mem 8192 = fun _ => 1) ∧ RefinesMap s h := by
  have hout : ∃ s₁ s₂, swapOut (startSwap (some (20, fun _ _ => 0)) true fun _ => 1) 0 =
      .ok (0, s₁) ∧ swapOut { s₁ with mem := fun _ => 2 } 0 = .ok (1, s₂) := ⟨_, _, rfl, rfl⟩
  rcases hout with ⟨s₁, s₂, h₁, h₂⟩
  set start : State := startSwap (some (20, fun _ _ => 0)) true fun _ => 1
  set held₁ : Held := record (fun _ => none) start (.swapOut 0 0)
  set held₂ : Held := record held₁ { s₁ with mem := fun _ => 2 } (.swapOut 0 1)
  have hone : Step (start, fun _ => none) (.swapOut 0 0) (s₁, held₁) := ⟨rfl, h₁⟩
  have hother : Step (s₁, held₁) (.other fun _ => 2) ({ s₁ with mem := fun _ => 2 }, held₁) :=
    ⟨rfl, rfl⟩
  have htwo : Step ({ s₁ with mem := fun _ => 2 }, held₁) (.swapOut 0 1) (s₂, held₂) := ⟨rfl, h₂⟩
  have hrun : Lts.Run Step (start, fun _ => none)
      [.swapOut 0 0, .other fun _ => 2, .swapOut 0 1] (s₂, held₂) :=
    .cons hone (.cons hother (.single htwo))
  have hrefines := swap_store_refines hrun
  rcases hrefines.swapIn 0 (fun _ => 1) rfl 8192 with ⟨s', hin, hpage, -⟩
  exact ⟨s₂, held₂, hrun, ⟨s', hin, hpage⟩, hrefines⟩

/-! ## The whole-page model -/

/-- The swap block and the bitmap of the virtual memory's model. -/
def Whole (s : State) (k : Kernel) : Prop :=
  ∃ b w, s.swapBlock = some b ∧ s.swapMap = some w.map ∧ k.swap = some w ∧
    b.size = w.blockSize ∧ b.sectors = w.disk

/-- `swap_out` of the virtual memory's model is what the loop over the sectors
does with a frame that holds the page. -/
theorem swapOut_whole {k k' : Kernel} {f : Frame} (hwhole : Whole s k)
    (hframe : pageAt s.mem frame = k.mem f) (hout : Vm.swapOut k f = .ok (index, k')) :
    ∃ s', swapOut s frame = .ok (index, s') ∧ Whole s' k' := by
  rcases hwhole with ⟨b, w, hb, hmap, hw, hsize, hdisk⟩
  unfold Vm.swapOut at hout
  rw [hw] at hout
  dsimp only at hout
  have hsame : (w.map.findIdx? fun bit => bit = swapFree) =
      w.map.findIdx? fun inUse => !inUse := by
    congr 1
    funext bit
    cases bit <;> rfl
  cases hfind : w.map.findIdx? fun inUse => !inUse with
  | none =>
      rw [hfind] at hout
      cases hout
  | some free =>
      rw [hfind] at hout
      cases hout
      have hlt : index < w.map.length := by
        rcases List.findIdx?_eq_some_iff_getElem.mp hfind with ⟨hlt, -⟩
        exact hlt
      have hindex : index < b.size / sectorsPerPage := by
        rw [hsize, ← w.map_length]
        exact hlt
      have hscan : bitmapScanAndFlip w.map swapFree = some (index, w.map.set index swapInUse) := by
        unfold bitmapScanAndFlip
        rw [hsame, hfind]
        rfl
      refine ⟨⟨some ⟨b.size, blockWritePage b.sectors index (pageAt s.mem frame),
        (slotSectors index).reverse ++ b.accessed⟩, some (w.map.set index swapInUse), s.mem⟩, ?_,
        _, _, rfl, rfl, rfl, hsize, ?_⟩
      · unfold swapOut
        rw [hb, hmap]
        dsimp only
        rw [hscan]
        dsimp only
        rw [writeLoop_eq hindex]
        rfl
      · rw [hdisk, hframe]
        rfl

/-- `swap_in` of the virtual memory's model stores, through the page directory,
the page that the loop over the sectors reads to any address. -/
theorem swapIn_whole {k k' : Kernel} {t : Tid} {upage : Vaddr} (hwhole : Whole s k)
    (hin : Vm.swapIn k t index upage = .ok k') (frame : ℕ) :
    ∃ s' pte, swapIn s index frame = .ok s' ∧ Whole s' k' ∧ k.pteOf t upage = some pte ∧
      k'.mem pte.frame = pageAt s'.mem frame := by
  rcases hwhole with ⟨b, w, hb, hmap, hw, hsize, hdisk⟩
  unfold Vm.swapIn at hin
  rw [hw] at hin
  dsimp only at hin
  cases huse : w.map[index]? with
  | none =>
      rw [huse] at hin
      cases hin
  | some bit =>
      rw [huse] at hin
      cases bit with
      | false => cases hin
      | true =>
          dsimp only at hin
          rcases Lts.bind_eq_ok.mp hin with ⟨pte, hpte, hstore⟩
          have hindex : index < b.size / sectorsPerPage := by
            rw [hsize, ← w.map_length]
            exact (List.getElem?_eq_some_iff.mp huse).1
          rcases readLoop_eq s.mem frame hindex with ⟨m', hloop, hread, -⟩
          refine ⟨⟨some { b with accessed := (slotSectors index).reverse ++ b.accessed },
            some (w.map.set index swapFree), m'⟩, pte, ?_, ?_, deref_ok hpte, ?_⟩
          · unfold swapIn
            rw [hb, hmap]
            dsimp only
            rw [huse]
            dsimp only
            rw [if_neg (by decide), hloop]
            rfl
          · split at hstore
            next =>
              cases hstore
              exact ⟨_, _, rfl, rfl, rfl, hsize, hdisk⟩
            next => cases hstore
          · split at hstore
            next =>
              cases hstore
              show Function.update k.mem pte.frame _ pte.frame = _
              rw [Function.update_self, hread, hdisk]
            next => cases hstore

end Pintos.Vm.SwapStore
