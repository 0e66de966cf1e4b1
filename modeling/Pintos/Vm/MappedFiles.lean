import Pintos.Vm.MappedPages

/-! # Memory-mapped files

A file that is mapped, stored to and unmapped in the end has the bytes that were
stored, as far as it reaches: however often its pages are evicted and read back
in between, and whether `munmap` or `process_exit` ends the mapping.
-/

namespace Pintos.Vm

open Ownership

variable {k k' k₁ k₂ k₃ : Kernel} {t u : Tid} {p : Ptr} {e : Spte} {a : Act} {as : List Act}
  {m : Machine} {f : FilePtr} {i : Inode} {va addr : Vaddr} {R : Scope} {r : Region}
  {want : ℕ → UInt8} {gone : Prop} {n : ℕ} {env : Env}

/-! ## Operations -/

/-- What holds of a mapping whose pages may be `gone`. -/
structure Region.Kept (r : Region) (want : ℕ → UInt8) (gone : Prop) (k : Kernel) : Prop where
  sound : Sound k
  exclusive : (slots k).Exclusive
  mapped : r.Mapped want k
  covered : r.Covered want gone k

/-- A mapping with pages has its handle in use. -/
theorem Region.Kept.holds (h : r.Kept want gone k) (hno : ¬ gone) :
    Holds k r.file (.mapping r.process r.mapid) := by
  rcases h.covered 0 (by rw [Nat.mul_zero]; exact r.length_pos) with ⟨p, e, he, hp⟩ | ⟨hg, _⟩
  · rcases h.mapped.page _ p e he hp.type hp.file with ⟨n, hpage⟩
    exact ⟨_, hpage.listed, rfl, e, he.at_ptr, hp.file⟩
  · exact absurd hg hno

/-- A sequence of changes keeps a mapping, if it adds nothing to it, and removes
pages of it only if they may be gone. -/
theorem Region.Kept.changes (h : r.Kept want gone k) (hc : Changes R k k')
    (hadds : ¬ R.adds r.process r.mapid) (hnone : gone → ∀ u j, ¬ R.adds u j)
    (hgone : R.removes r.process r.mapid → gone) : r.Kept want gone k' := by
  refine hc.invariant (fun x y hc hx => ?_) h
  refine ⟨hx.sound.change hc, (slots_change hx.sound hx.exclusive hc).exclusive hx.exclusive,
    hx.mapped.change hx.sound hx.exclusive hc hadds fun u hu => ?_,
    hx.covered.change hx.sound hx.mapped hc hgone⟩
  refine ⟨_, hx.holds fun hg => hnone hg _ _ hu, ?_⟩
  intro heq
  rcases Role.mapping.inj heq with ⟨rfl, hid⟩
  rw [← hid] at hu
  exact hadds hu

/-- Nothing changes for the mapping. -/
theorem Region.Kept.congr (h : r.Kept want gone k) (hsound : Sound k') (hi : (slots k').Exclusive)
    (hspt : k'.spt = k.spt) (hsptes : k'.sptes = k.sptes) (hmmap : k'.mmapList = k.mmapList)
    (hlook : ∀ u p e, Entry k u p e → e.type = .mmap →
      k'.files.lookup e.file = k.files.lookup e.file)
    (hbytes : k'.bytesOf r.inode = k.bytesOf r.inode)
    (hdenied : WritesDenied k' r.inode → WritesDenied k r.inode)
    (hpagedir : ∀ u, k.spt u ≠ [] → k'.pagedir u = k.pagedir u) (hmem : k'.mem = k.mem)
    (hswap : k'.swap = k.swap) (hhist : k'.hist = k.hist) : r.Kept want gone k' := by
  have hback : ∀ {u p e}, Entry k' u p e → Entry k u p e := fun he =>
    ⟨hspt ▸ he.mem, hsptes ▸ he.at_ptr⟩
  -- a process with a page has its page directory still
  have hdir : ∀ {u p e}, Entry k u p e → k'.pagedir u = k.pagedir u := by
    intro u p e he
    refine hpagedir u ?_
    intro hnil
    have hmem := he.mem
    rw [hnil] at hmem
    cases hmem
  refine ⟨hsound, hi, ⟨?_, fun hd => h.mapped.undenied (hdenied hd), ?_, ?_, ?_⟩, ?_⟩
  · rw [hbytes]
    exact h.mapped.length
  · intro u p e o he hty ho hino hd
    have hold := hback he
    rw [hlook u p e hold hty] at ho
    unfold pagedirIsDirty Kernel.pteOf at hd
    rw [hdir hold] at hd
    exact h.mapped.alone u p e o hold hty ho hino hd
  · intro u p e he hty hfile
    have hold := hback he
    rcases h.mapped.page u p e hold hty hfile with ⟨n, hpage⟩
    rcases hpage.lookup with ⟨o, ho, hino⟩
    have hu := hpage.process
    subst hu
    have hlook' := hlook r.process p e hold hty
    rw [hfile] at hlook'
    refine ⟨n, rfl, hmmap ▸ hpage.listed, ⟨o, hlook'.trans ho, hino⟩, hpage.pageAt, ?_, ?_⟩
    · refine hpage.content.of_fields (hdir hold) hmem hswap hhist ?_
      intro _
      -- the contents of the page may be read from the file again
      refine filePage_congr (hfile ▸ ho) (hfile ▸ hlook'.trans ho) ?_
      rw [hino]
      exact hbytes
    · rw [hhist]
      exact hpage.wanted
  · intro p e he hty hlisted
    exact h.mapped.own p e (hback he) hty (hmmap ▸ hlisted)
  · intro n hn
    rw [hbytes]
    exact (h.covered n hn).imp_left fun ⟨p, e, he, hp⟩ =>
      ⟨p, e, ⟨hspt ▸ he.mem, hsptes ▸ he.at_ptr⟩, hp⟩

/-! ## Stores -/

/-- Where the bytes of a page of the mapping are. -/
theorem Region.address_iff (r : Region) (hn : pgSize * n < r.length) {b : Fin pgSize} :
    va = r.addr + UInt32.ofNat (pgSize * n + b.val) ↔
      pgRoundDown va = r.addr + UInt32.ofNat (pgSize * n) ∧ pgOfs va = b := by
  have hlen := r.length_lt
  have hb : b.val < 4096 := b.isLt
  have haddr : r.addr.toNat % 4096 = 0 := toNat_aligned r.aligned
  have hn' : 4096 * n < r.length := hn
  have hva := pgRoundDown_add va
  have hofs : (pgOfs va).val = va.toNat % 4096 := rfl
  have hlt := va.toNat_lt
  have h₁ : (UInt32.ofNat (pgSize * n + b.val)).toNat = 4096 * n + b.val := by
    rw [UInt32.toNat_ofNat_of_lt']
    show 4096 * n + b.val < 4294967296
    omega
  have h₂ : (UInt32.ofNat (pgSize * n)).toNat = 4096 * n := by
    rw [UInt32.toNat_ofNat_of_lt']
    show 4096 * n < 4294967296
    omega
  rw [← UInt32.toNat_inj, ← UInt32.toNat_inj, UInt32.toNat_add, UInt32.toNat_add, h₁, h₂, Fin.ext_iff]
  constructor
  · intro h
    constructor <;> omega
  · rintro ⟨h, h'⟩
    omega

/-- The byte a label stores at an address of process `t`. -/
def Act.storeAt (t : Tid) (va : Vaddr) : Act → Option UInt8
  | .userStore u a byte => if u = t ∧ a = va then some byte else none
  | _ => none

theorem Act.NotStore.storeAt (h : a.NotStore) : a.storeAt t va = none := by
  cases a with
  | userStore u va byte => exact absurd rfl (h u va byte)
  | _ => rfl

/-- What should be in the file after a label. -/
def Region.after (r : Region) (want : ℕ → UInt8) (a : Act) : ℕ → UInt8 := fun j =>
  (a.storeAt r.process (r.addr + UInt32.ofNat j)).getD (want j)

theorem Region.after_of_notStore (h : a.NotStore) : r.after want a = want := by
  funext j
  unfold Region.after
  rw [h.storeAt]
  rfl

theorem Region.after_userStore {byte : UInt8} {j : ℕ} :
    r.after want (.userStore u va byte) j =
      if u = r.process ∧ va = r.addr + UInt32.ofNat j then byte else want j := by
  unfold Region.after Act.storeAt
  dsimp only
  split <;> rfl

/-- A store to a page of the mapping, or to a page of another file. -/
theorem Region.Kept.store {byte : UInt8} (h : r.Kept want gone k) (hno : ¬ gone)
    (hsound : Sound k') (hi : (slots k').Exclusive) (hs : userStore k u va byte = .ok k')
    (hown : ∀ p e o, Entry k u p e → e.unusedVirtualAddress = pgRoundDown va → e.type = .mmap →
      k.files.lookup e.file = some o → o.inode = r.inode → e.file = r.file) :
    r.Kept (r.after want (.userStore u va byte)) gone k' := by
  rcases userStore_ok hs with ⟨pte, hpte, _, rfl⟩
  set k' := ((k.setMem pte.frame (Function.update (k.mem pte.frame) (pgOfs va) byte)).setPte u
    (pgRoundDown va) { pte with accessed := true, dirty := true }).log (.store u va byte) with hk'
  have hback : ∀ {v p e}, Entry k' v p e → Entry k v p e := fun he => ⟨he.mem, he.at_ptr⟩
  refine ⟨hsound, hi, ⟨h.mapped.length, h.mapped.undenied, ?_, ?_, ?_⟩, ?_⟩
  · -- a page that becomes dirty is one of the mapping, if it is one of the file
    intro v p e o he hty ho hino hd
    by_cases hpage : v = u ∧ e.unusedVirtualAddress = pgRoundDown va
    · rcases hpage with ⟨rfl, haddr⟩
      exact hown p e o (hback he) haddr hty ho hino
    · refine h.mapped.alone v p e o (hback he) hty ho hino ?_
      unfold pagedirIsDirty at hd ⊢
      rwa [show k'.pteOf v e.unusedVirtualAddress = _ from pteOf_setPte, if_neg hpage] at hd
  · intro v p e he hty hfile
    rcases h.mapped.page v p e (hback he) hty hfile with ⟨n, hpage⟩
    have hv := hpage.process
    subst hv
    refine ⟨n, rfl, hpage.listed, hpage.lookup, hpage.pageAt,
      hpage.content.store h.sound hs (hback he), fun b hb => ?_⟩
    -- the offset in the file decides the address, and the other way round
    have hiff : va = r.addr + UInt32.ofNat (pgSize * n + b.val) ↔ _ :=
      r.address_iff hpage.pageAt.inFile (b := b)
    rw [← hpage.pageAt.address] at hiff
    rw [Region.after_userStore]
    show contents (.store u va byte :: k.hist) r.process e.unusedVirtualAddress b = _
    by_cases hu : u = r.process
    · subst hu
      by_cases haddr : pgRoundDown va = e.unusedVirtualAddress
      · rw [← haddr, contents_store]
        by_cases hofs : b = pgOfs va
        · subst hofs
          -- the byte itself
          rw [Function.update_self, if_pos ⟨rfl, hiff.mpr ⟨haddr, rfl⟩⟩]
        · rw [Function.update_of_ne hofs, if_neg fun hcond => hofs (hiff.mp hcond.2).2.symm]
          rw [haddr]
          exact hpage.wanted b hb
      · -- another page of the process
        rw [(SamePage.store fun hcond => haddr hcond.2.symm).contents,
          if_neg fun hcond => haddr (hiff.mp hcond.2).1]
        exact hpage.wanted b hb
    · rw [(SamePage.store fun hcond => hu hcond.1.symm).contents, if_neg fun hcond => hu hcond.1]
      exact hpage.wanted b hb
  · intro p e he hty hlisted
    exact h.mapped.own p e (hback he) hty hlisted
  · intro n hn
    rcases h.covered n hn with ⟨p, e, he, hp⟩ | ⟨hg, _⟩
    · exact .inl ⟨p, e, ⟨he.mem, he.at_ptr⟩, hp⟩
    · exact absurd hg hno

/-! ## Runs -/

/-- A step in which nobody else changes the file with inode `i` or denies writes
to it, and which does not end the mapping `id` of process `t`. -/
structure Calm (t : Tid) (id : ℤ) (i : Inode) (k : Kernel) (a : Act) (k' : Kernel) : Prop where
  step : Step k a k'
  /-- The file is not executed. -/
  load : ∀ u segments env, a ≠ .load u i segments env
  /-- It is not written to with `write`. -/
  write : ∀ u fd data size ofs f o, a = .writeFile u fd data size ofs →
    processGetFile k u fd = .ok (some f) → k.files.lookup f = some o → o.inode ≠ i
  /-- Nothing is stored to a page of another mapping of it. -/
  store : ∀ u va byte p e o, a = .userStore u va byte → Entry k u p e →
    e.unusedVirtualAddress = pgRoundDown va → e.type = .mmap → k.files.lookup e.file = some o →
    o.inode = i → u = t ∧ { spte := p, mapid := id } ∈ k.mmapList t
  munmap : ∀ j, a = .munmap t j → j ≠ id ∧ j ≠ closeAll
  exit : a ≠ .processExit t

/-- A status changes. -/
theorem Region.Kept.setStatus {s : ProcessStatus} (h : r.Kept want gone k)
    (hsound : Sound (k.setStatus t s)) (hi : (slots (k.setStatus t s)).Exclusive) :
    r.Kept want gone (k.setStatus t s) :=
  h.congr hsound hi rfl rfl rfl (fun _ _ _ _ _ => rfl) rfl id (fun _ _ => rfl) rfl rfl rfl

/-- A process that has left had nothing to do with the mapping any more. -/
theorem Region.Kept.leave (h : r.Kept want gone k) (hspt : k.spt t = [])
    (hsound : Sound ((pagedirDestroy k t).setStatus t .absent))
    (hi : (slots ((pagedirDestroy k t).setStatus t .absent)).Exclusive) :
    r.Kept want gone ((pagedirDestroy k t).setStatus t .absent) := by
  refine h.congr hsound hi rfl rfl rfl (fun _ _ _ _ _ => rfl) rfl id (fun u hu => ?_) rfl rfl rfl
  refine Function.update_of_ne ?_ ..
  rintro rfl
  exact hu hspt

theorem Region.Kept.step (hset : Settled k) (h : r.Kept want False k)
    (hs : Calm r.process r.mapid r.inode k a k') : r.Kept (r.after want a) False k' := by
  have hset' := hset.step hs.step
  have hi' := slots_exclusive_step hset h.exclusive hs.step
  -- the changes of a step do not concern the mapping
  have hscope : ¬ (a.scope k).adds r.process r.mapid ∧
      ((a.scope k).removes r.process r.mapid → False) := by
    cases a with
    | munmap u j =>
        refine ⟨fun hno => hno, ?_⟩
        rintro ⟨rfl, hj⟩
        rcases hs.munmap j rfl with ⟨hne, hall⟩
        rcases hj with hj | hj
        · exact hne hj.symm
        · exact hall hj
    | mmap u fd addr env =>
        -- the next mapping has a greater number
        have hnew : ¬ (r.process = u ∧ r.mapid = k.mapid u + 1) := by
          rintro ⟨rfl, hid⟩
          rcases h.holds id with ⟨mm, hmm, hmid, _⟩
          have hle := (hset.sound.mappings.bounded _ mm hmm).2
          omega
        exact ⟨hnew, hnew⟩
    | processExit u =>
        refine ⟨fun hno => hno, ?_⟩
        rintro rfl
        exact hs.exit rfl
    | _ => exact ⟨fun hno => hno, fun hno => hno⟩
  have heff := step_effect hset.sound hset.noneExiting hs.step
  cases heff with
  | changes ha hc =>
      rw [Region.after_of_notStore ha]
      exact h.changes hc hscope.1 (fun hno => absurd hno id) hscope.2
  | killed ha ht hc =>
      rw [Region.after_of_notStore ha]
      have h₁ := h.changes hc hscope.1 (fun hno => absurd hno id) hscope.2
      exact h₁.setStatus hset'.sound hi'
  | @store u va byte _ hst =>
      refine h.store id hset'.sound hi' hst ?_
      intro p e o he haddr hty ho hino
      rcases hs.store u va byte p e o rfl he haddr hty ho hino with ⟨rfl, hlisted⟩
      exact h.mapped.own p e he hty hlisted
  | @write u fd data size ofs f o hget ho =>
      rw [Region.after_of_notStore (fun _ _ _ => by simp)]
      have hne := hs.write u fd data size ofs f o rfl hget ho
      rcases (write_fields : (inodeWriteAt k o.inode data size ofs).swap = _ ∧ _) with
        ⟨hswap, _, hspt, hsptes⟩
      rcases (write_pages : (inodeWriteAt k o.inode data size ofs).pagedir = _ ∧ _) with
        ⟨hpagedir, hmem, hhist⟩
      refine h.congr hset'.sound hi' hspt hsptes write_mmapList (fun _ _ _ _ _ => by rw [write_files])
        (bytesOf_inodeWriteAt_of_ne fun heq => hne heq.symm) (fun hd => ?_)
        (fun _ _ => by rw [hpagedir]) hmem hswap hhist
      unfold WritesDenied at hd ⊢
      rwa [write_files] at hd
  | @start u exe segments env file _ ht hfile hc =>
      rw [Region.after_of_notStore (fun _ _ _ => by simp)]
      have hstart : r.Kept want False (startProcess k u file exe) := by
        rcases hset.sound.bare ht with ⟨_, hmmap, _⟩
        refine h.congr (hset.sound.start ht hfile) (slots_exclusive_start hset.sound h.exclusive ht)
          rfl rfl ?_ (fun v p e he hty => ?_) rfl (fun hd => ?_) (fun _ _ => rfl) rfl rfl rfl
        · show Function.update k.mmapList u [] = k.mmapList
          rw [← hmmap, Function.update_eq_self]
        · apply AList.lookup_insert_ne
          rintro rfl
          rcases hset.sound.holds_mapping he hty with ⟨j, _, hholds⟩
          exact hfile (hset.sound.handles.opened _ _ hholds)
        · rcases writesDenied_iff.mp hd with ⟨g, o, ho, hino, hdeny⟩
          have hg : g ≠ file := by
            rintro rfl
            have hlook : (startProcess k u g exe).files.lookup g = some _ := AList.lookup_insert _
            rw [Option.some.inj (ho.symm.trans hlook)] at hino
            exact hs.load u segments env (by rw [← hino])
          have hlook : (startProcess k u file exe).files.lookup g = k.files.lookup g :=
            AList.lookup_insert_ne hg
          exact writesDenied_iff.mpr ⟨g, o, hlook.symm.trans ho, hino, hdeny⟩
      exact hstart.changes hc (fun hno => hno) (fun hno => absurd hno id) fun hno => hno
  | @leave u k₁ ht hc hspt hmmap hfiles =>
      rw [Region.after_of_notStore (fun _ _ _ => by simp)]
      have h₀ := h.setStatus (t := u) (s := .exiting)
        (hset.sound.setStatus (.inr ht) (by decide)) (slots_exclusive_setStatus h.exclusive (.inl rfl))
      have h₁ := h₀.changes hc (fun hno => hno) (fun hno => absurd hno id) hscope.2
      exact h₁.leave hspt hset'.sound hi'

/-! ## The end of a mapping -/

theorem Region.Kept.mono {gone' : Prop} (h : r.Kept want gone k) (hg : gone → gone') :
    r.Kept want gone' k :=
  ⟨h.sound, h.exclusive, h.mapped, fun n hn => (h.covered n hn).imp_right fun hb => ⟨hg hb.1, hb.2⟩⟩

/-- When no page of the mapping is left, the file is as it should be. -/
theorem Region.Kept.file (h : r.Kept want gone k) (hnone : ∀ n, ¬ r.Present k n) :
    (k.bytesOf r.inode).length = r.length ∧
      ∀ j < r.length, (k.bytesOf r.inode).getD j 0 = want j := by
  refine ⟨h.mapped.length, ?_⟩
  intro j hj
  have hpg : 0 < pgSize := by decide
  have hle : pgSize * (j / pgSize) ≤ j := Nat.mul_div_le j pgSize
  rcases h.covered (j / pgSize) (by omega) with hpres | ⟨_, hbytes⟩
  · exact absurd hpres (hnone _)
  · exact hbytes j hle (Nat.lt_mul_div_succ j hpg) hj

theorem Region.Kept.finish (hset : Settled k) (h : r.Kept want False k) (hs : Step k a k')
    (ha : a = .munmap r.process r.mapid ∨ a = .munmap r.process closeAll ∨
      a = .processExit r.process) :
    (k'.bytesOf r.inode).length = r.length ∧
      ∀ j < r.length, (k'.bytesOf r.inode).getD j 0 = want j := by
  have hgone : r.Kept want True k := h.mono fun hno => hno.elim
  have hmunmap : ∀ {j}, a = .munmap r.process j → j = r.mapid ∨ j = closeAll →
      (k'.bytesOf r.inode).length = r.length ∧
        ∀ j < r.length, (k'.bytesOf r.inode).getD j 0 = want j := by
    rintro j rfl hj
    rcases processRemoveMmap_changes (R := Act.scope k (.munmap r.process j)) hset.sound
      (fun _ hj => ⟨rfl, hj⟩) hs.2 with ⟨hc, hremoved⟩
    have h' := hgone.changes hc (fun hno => hno) (fun _ _ _ hno => hno) fun _ => trivial
    apply h'.file
    rintro n ⟨p, e, he, hp⟩
    rcases h'.mapped.page _ p e he hp.type hp.file with ⟨l, hpage⟩
    exact hremoved _ hpage.listed (hj.imp_left Eq.symm)
  rcases ha with rfl | rfl | rfl
  · exact hmunmap rfl (.inl rfl)
  · exact hmunmap rfl (.inr rfl)
  · rcases processExit_ok (R := Act.scope k (.processExit r.process)) hset.sound (fun _ => rfl) hs.1
      hs.2 with ⟨k₁, hc, hspt, _, _, rfl⟩
    have h₀ := hgone.setStatus (hset.sound.setStatus (.inr hs.1) (s := .exiting) (by decide))
      (slots_exclusive_setStatus hgone.exclusive (.inl rfl))
    have h₁ := h₀.changes hc (fun hno => hno) (fun _ _ _ hno => hno) fun _ => trivial
    apply h₁.file
    rintro n ⟨p, e, he, _⟩
    have hmem := he.mem
    rw [hspt] at hmem
    cases hmem

/-! ## The beginning of a mapping -/

/-- A page is added to the mapping. -/
theorem Region.Mapped.addPage (h : Sound k) (hi : (slots k).Exclusive) (hm : r.Mapped want k)
    (hp : Unused k p) (he : k.sptes p = some e) (hat : r.PageAt n e)
    (hnew : hashFind k r.process e.unusedVirtualAddress = none)
    (hid : k.mapid r.process = r.mapid)
    (hlook : ∃ o, k.files.lookup r.file = some o ∧ o.inode = r.inode)
    (hwant : ∀ b : Fin pgSize, b.val < e.readBytes.toNat → filePage k e b = want (pgSize * n + b.val))
    (hc : Change R k (insertEntry (listMapping k r.process p) r.process p e.unusedVirtualAddress
      (filePage k e))) :
    r.Mapped want (insertEntry (listMapping k r.process p) r.process p e.unusedVirtualAddress
      (filePage k e)) := by
  set k' := insertEntry (listMapping k r.process p) r.process p e.unusedVirtualAddress
    (filePage k e) with hk'
  -- the pages are the old ones and the new one
  have hcases : ∀ {u q x}, Entry k' u q x → Entry k u q x ∨ u = r.process ∧ q = p ∧ x = e :=
    (entry_addMmap he).mp
  -- which has never been stored to
  have hclean : pagedirIsDirty k r.process e.unusedVirtualAddress = false :=
    not_dirty_of_none (h.tables.pteOf_new hnew)
  refine ⟨hm.length, hm.undenied, ?_, ?_, ?_⟩
  · intro u q x o hx hty ho hino hd
    have hd' : pagedirIsDirty k u x.unusedVirtualAddress = true := hd
    rcases hcases hx with hx' | ⟨rfl, rfl, rfl⟩
    · exact hm.alone u q x o hx' hty ho hino hd'
    · rw [hclean] at hd'
      cases hd'
  · intro u q x hx hty hfile
    -- an old page of the file is one of the mapping already
    have hcontent : Content k' u x := by
      refine Content.change h hi hc (.inr hty) hx ?_
      intro y hy _
      rcases hcases hx with hx' | ⟨rfl, rfl, rfl⟩
      · have hyx : y = x := hy.eq_of_at hx'.at_ptr
        subst hyx
        rcases hm.page u q y hx' hty hfile with ⟨l, hpage⟩
        rw [hpage.process]
        exact ⟨hpage.content, fun _ => hm.follows h hc hx' hty hfile⟩
      · exact absurd hy.mem (hp.spt _)
    rcases hcases hx with hx' | ⟨rfl, rfl, rfl⟩
    · rcases hm.page u q x hx' hty hfile with ⟨l, hpage⟩
      have hu := hpage.process
      subst hu
      refine ⟨l, rfl, mem_listMapping.mpr (.inl hpage.listed), hpage.lookup, hpage.pageAt, hcontent, ?_⟩
      intro b hb
      rw [(hc.samePage hx').contents]
      exact hpage.wanted b hb
    · refine ⟨n, rfl, mem_listMapping.mpr (.inr ⟨rfl, by rw [hid]⟩), hlook, hat, hcontent, ?_⟩
      intro b hb
      -- the new page starts with the bytes of the file
      rw [show k'.hist = .map r.process x.unusedVirtualAddress (filePage k x) :: k.hist from rfl,
        contents_map]
      exact hwant b hb
  · intro q x hx hty hlisted
    rcases hcases hx with hx' | ⟨_, rfl, rfl⟩
    · rcases mem_listMapping.mp hlisted with hold | ⟨_, heq⟩
      · exact hm.own q x hx' hty hold
      · have hqp : q = p := congrArg MmapFile.spte heq
        exact absurd (hqp ▸ hx'.mem) (hp.spt _)
    · exact hat.file

theorem Region.Present.insert {l : ℕ} {o : Option Spte} {upage : Vaddr} {page : Page}
    (h : r.Present k l) (hp : Unused k p) :
    r.Present (insertEntry (listMapping (k.setSpte p o) u p) u p upage page) l := by
  rcases h with ⟨q, e, he, hat⟩
  have hne : q ≠ p := hp.ne he.mem
  exact ⟨q, e, ⟨mem_insertEntry.mpr (.inl he.mem), (Function.update_of_ne hne ..).trans he.at_ptr⟩,
    hat⟩

/-- The number of bytes the loop of `mmap` takes for a page. -/
theorem toNat_pageReadBytes (readBytes : UInt32) :
    (if readBytes < 4096 then readBytes else 4096 : UInt32).toNat = min 4096 readBytes.toNat := by
  have h4096 : (4096 : UInt32).toNat = 4096 := rfl
  split
  next hlt =>
    rw [UInt32.lt_iff_toNat_lt, h4096] at hlt
    omega
  next hge =>
    rw [UInt32.lt_iff_toNat_lt, h4096] at hge
    rw [h4096]
    omega

/-- The state between two pages that the loop of `mmap` adds. -/
structure Region.Adding (r : Region) (want : ℕ → UInt8) (k : Kernel) : Prop where
  sound : Sound k
  exclusive : (slots k).Exclusive
  mapped : r.Mapped want k
  alive : k.status r.process = .alive
  mapid : k.mapid r.process = r.mapid
  mapid_pos : 1 ≤ r.mapid
  lookup : ∃ o, k.files.lookup r.file = some o ∧ o.inode = r.inode
  role : ∀ ro, Holds k r.file ro → ro = .mapping r.process r.mapid
  bytes : ∀ j, (k.bytesOf r.inode).getD j 0 = want j

theorem Region.Adding.page (h : r.Adding want k) (hp : k.sptes p = none) (hat : r.PageAt n e)
    (hl : e.isLoaded = false) (hsize : e.readBytes.toNat + e.zeroBytes.toNat = pgSize)
    (hnew : hashFind (k.setSpte p (some e)) r.process e.unusedVirtualAddress = none) :
    r.Adding want (insertEntry (listMapping (k.setSpte p (some e)) r.process p) r.process p
      e.unusedVirtualAddress (filePage k e)) := by
  have hun := h.sound.unused hp
  have hun' : Unused (k.setSpte p (some e)) p := ⟨hun.spt, hun.mmap⟩
  have hheap : (k.setSpte p (some e)).sptes p = some e := Function.update_self ..
  -- the entry is allocated, and then listed and inserted
  have hcell : Change .none k (k.setSpte p (some e)) := .cell (some e) hun
  have h₀ := h.sound.change hcell
  have hi₀ := (slots_change h.sound h.exclusive hcell).exclusive h.exclusive
  have hm₀ := h.mapped.change h.sound h.exclusive hcell (fun hno => hno) fun _ hno => hno.elim
  rcases h.lookup with ⟨o, ho, hino⟩
  have hopen : e.file ∈ (k.setSpte p (some e)).files := by
    rw [hat.file]
    exact AList.lookup_isSome.mp (by rw [show (k.setSpte p (some e)).files = k.files from rfl, ho]; rfl)
  -- the file is used by this mapping only
  have hrole : ∀ ro, Holds (k.setSpte p (some e)) e.file ro →
      ro = .mapping r.process ((k.setSpte p (some e)).mapid r.process) := by
    intro ro hro
    rw [show (k.setSpte p (some e)).mapid r.process = r.mapid from h.mapid]
    exact h.role ro (hat.file ▸ holds_of_cell hun hro)
  have hpos : 1 ≤ (k.setSpte p (some e)).mapid r.process := by
    rw [show (k.setSpte p (some e)).mapid r.process = r.mapid from h.mapid]
    exact h.mapid_pos
  have hc : Change ⟨fun _ _ => True, fun _ _ => False, fun _ _ => True, fun _ => False⟩
      (k.setSpte p (some e))
      (insertEntry (listMapping (k.setSpte p (some e)) r.process p) r.process p
        e.unusedVirtualAddress (filePage k e)) :=
    .addMmap hun' hheap hl hat.type hnew h.alive hopen hrole hpos hsize trivial trivial
  refine
    { sound := h₀.change hc
      exclusive := (slots_change h₀ hi₀ hc).exclusive hi₀
      mapped := ?_
      alive := h.alive
      mapid := h.mapid
      mapid_pos := h.mapid_pos
      lookup := h.lookup
      role := ?_
      bytes := h.bytes }
  · refine hm₀.addPage h₀ hi₀ hun' hheap hat hnew h.mapid h.lookup (fun b hb => ?_) hc
    -- the file has not been written to since `mmap` has begun
    rw [filePage_apply (k := k.setSpte p (some e)) (hat.file ▸ ho) hb, hat.offset, hino]
    exact h.bytes _
  · intro ro hro
    cases ro with
    | executable u => exact h.role _ hro
    | descriptor u fd => exact h.role _ hro
    | mapping u j =>
        rcases hro with ⟨mm, hmm, hmid, x, hx, hfile⟩
        rcases mem_listMapping.mp hmm with hold | ⟨rfl, rfl⟩
        · exact h.role _ (holds_of_cell (s := some e) hun ⟨mm, hold, hmid, x, hx, hfile⟩)
        · rw [← hmid, ← h.mapid]
          rfl

/-- Without bytes left to map there are no pages left. -/
theorem Region.no_page_left {l left : ℕ} (hread : left = r.length - pgSize * n)
    (hzero : left = 0) (hl : n ≤ l) : ¬ pgSize * l < r.length := by
  have hle : pgSize * n ≤ pgSize * l := Nat.mul_le_mul_left _ hl
  omega

/-- The loop of `mmap` adds the pages of the mapping from the `n`-th one on. -/
theorem mmapLoop_adding {rounds : ℕ} {ofs readBytes : UInt32} (h : r.Adding want k)
    (hofs : pgSize * n < r.length → ofs.toNat = pgSize * n)
    (haddr : addr = r.addr + UInt32.ofNat (pgSize * n))
    (hread : readBytes.toNat = r.length - pgSize * n) (hrounds : readBytes.toNat ≤ rounds)
    (hloop : mmapLoop env r.process r.file n rounds ofs addr readBytes k = (true, k')) :
    r.Adding want k' ∧ (∀ l, r.Present k l → r.Present k' l) ∧
      ∀ l, n ≤ l → pgSize * l < r.length → r.Present k' l := by
  induction rounds generalizing n ofs addr readBytes k with
  | zero =>
      cases hloop
      exact ⟨h, fun _ hl => hl, fun l hl hlt =>
        (r.no_page_left hread (by omega) hl hlt).elim⟩
  | succ rounds ih =>
      unfold mmapLoop at hloop
      by_cases hmore : readBytes > 0
      · rw [if_pos hmore] at hloop
        dsimp only at hloop
        split at hloop
        next => cases hloop
        next k₁ hadd =>
          rcases addMmapPageTbl_true hadd with ⟨p, hnone, hfind, rfl⟩
          have hpage := toNat_pageReadBytes readBytes
          have hsize := pageBytes_add readBytes
          set pr : UInt32 := if readBytes < 4096 then readBytes else 4096 with hpr
          set e := mmapEntry r.file ofs addr pr (4096 - pr) with he
          have hpos : 0 < readBytes.toNat := UInt32.lt_iff_toNat_lt.mp hmore
          have hin : pgSize * n < r.length := by omega
          have hat : r.PageAt n e :=
            { inFile := hin
              type := rfl
              address := haddr
              file := rfl
              offset := hofs hin
              readBytes := by
                show pr.toNat = _
                rw [hpage, hread] }
          have hlen := r.length_lt
          have hn' : 4096 * n < r.length := hin
          have hread' : readBytes.toNat = r.length - 4096 * n := hread
          have h₁ := h.page hnone hat rfl hsize hfind
          have hle : pr ≤ readBytes := by
            rw [UInt32.le_iff_toNat_le]
            omega
          have hsub : (readBytes - pr).toNat = readBytes.toNat - pr.toNat :=
            UInt32.toNat_sub_of_le _ _ hle
          have hread₁ : (readBytes - pr).toNat = r.length - pgSize * (n + 1) := by
            show (readBytes - pr).toNat = r.length - 4096 * (n + 1)
            omega
          have hofs₁ : pgSize * (n + 1) < r.length → (ofs + pr).toNat = pgSize * (n + 1) := by
            -- only the last page is not full
            intro hnext
            have hnext' : 4096 * (n + 1) < r.length := hnext
            have hofs' : ofs.toNat = 4096 * n := hofs hin
            rw [UInt32.toNat_add]
            show (ofs.toNat + pr.toNat) % 4294967296 = 4096 * (n + 1)
            omega
          have haddr₁ : addr + 4096 = r.addr + UInt32.ofNat (pgSize * (n + 1)) := by
            rw [haddr, Nat.mul_add, Nat.mul_one, UInt32.ofNat_add, ← UInt32.add_assoc]
            rfl
          rcases ih h₁ hofs₁ haddr₁ hread₁ (by omega) hloop with ⟨hend, hkeep, hrest⟩
          refine ⟨hend, fun l hl => hkeep l (hl.insert (h.sound.unused hnone)), fun l hl hlt => ?_⟩
          rcases Nat.lt_or_eq_of_le hl with hgt | rfl
          · exact hrest l hgt hlt
          · exact hkeep n ⟨p, e, ⟨mem_insertEntry.mpr (.inr ⟨rfl, rfl⟩), Function.update_self ..⟩, hat⟩
      · rw [if_neg hmore] at hloop
        cases hloop
        have hle : readBytes ≤ 0 := UInt32.not_lt.mp hmore
        have hzero : readBytes.toNat = 0 := Nat.le_zero.mp (UInt32.le_iff_toNat_le.mp hle)
        exact ⟨h, fun _ hl => hl, fun l hl hlt => (r.no_page_left hread hzero hl hlt).elim⟩

/-- Nobody is about to change the file with inode `i`, and writes to it are not
denied. -/
structure Quiet (k : Kernel) (i : Inode) : Prop where
  undenied : ¬ WritesDenied k i
  clean : ∀ u p e o, Entry k u p e → e.type = .mmap → k.files.lookup e.file = some o →
    o.inode = i → pagedirIsDirty k u e.unusedVirtualAddress = false

/-- Files are not longer than a file offset. -/
theorem Kernel.length_bytesOf_lt (k : Kernel) (i : Inode) : (k.bytesOf i).length < 2 ^ 31 := by
  unfold Kernel.bytesOf
  cases k.inodes i with
  | none => exact Nat.two_pow_pos 31
  | some d => exact d.length_lt

/-- The mapping `mmap` begins. -/
theorem adding_beginMapping (hset : Settled k) (hi : (slots k).Exclusive) (ht : k.status t = .alive)
    (hq : Quiet k r.inode) (hnew : r.file ∉ k.files) (hprocess : r.process = t)
    (hid : r.mapid = k.mapid t + 1) (hlength : r.length = (k.bytesOf r.inode).length) :
    r.Adding (fun j => (k.bytesOf r.inode).getD j 0) (beginMapping k t r.file r.inode) := by
  subst hprocess
  have hc : Changes .none k (beginMapping k r.process r.file r.inode) := beginMapping_changes hnew
  have hnone := fun ro => not_holds_beginMapping (t := r.process) (i := r.inode) (r := ro)
    hset.sound hnew
  have hnonneg := hset.sound.mappings.mapidNonneg r.process
  have hexclusive : Sound (beginMapping k r.process r.file r.inode) ∧
      (slots (beginMapping k r.process r.file r.inode)).Exclusive := by
    refine hc.invariant (P := fun k => Sound k ∧ (slots k).Exclusive) (fun x y hc hx => ?_)
      ⟨hset.sound, hi⟩
    exact ⟨hx.1.change hc, (slots_change hx.1 hx.2 hc).exclusive hx.2⟩
  -- no entry is one of the mapping yet
  have hfile : ∀ {u p e}, Entry k u p e → e.type = .mmap → e.file ≠ r.file := by
    intro u p e he hty heq
    rcases hset.sound.holds_mapping he hty with ⟨j, _, hholds⟩
    exact hnew (heq ▸ hset.sound.handles.opened _ _ hholds)
  refine
    { sound := hset.sound.changes hc
      exclusive := hexclusive.2
      mapped := ?_
      alive := ht
      mapid := beginMapping_mapid.trans hid.symm
      mapid_pos := by omega
      lookup := ⟨_, AList.lookup_insert _, rfl⟩
      role := fun ro hro => absurd hro (hnone ro)
      bytes := fun j => rfl }
  refine ⟨hlength.symm, ?_, ?_, ?_, ?_⟩
  · intro hd
    refine hq.undenied (writesDenied_iff.mpr ?_)
    rcases writesDenied_iff.mp hd with ⟨g, o, ho, hino, hdeny⟩
    by_cases hg : g = r.file
    · subst hg
      rw [show (beginMapping k r.process r.file r.inode).files.lookup r.file = some _ from
        AList.lookup_insert _] at ho
      cases ho
      cases hdeny
    · exact ⟨g, o, (AList.lookup_insert_ne hg).symm.trans ho, hino, hdeny⟩
  · intro u p e o he hty ho hino hdirty
    have hold : Entry k u p e := ⟨he.mem, he.at_ptr⟩
    have hlook : k.files.lookup e.file = some o :=
      (AList.lookup_insert_ne (hfile hold hty)).symm.trans ho
    have hclean := hq.clean u p e o hold hty hlook hino
    have hdirty' : pagedirIsDirty k u e.unusedVirtualAddress = true := hdirty
    rw [hclean] at hdirty'
    cases hdirty'
  · intro u p e he hty heq
    exact absurd heq (hfile ⟨he.mem, he.at_ptr⟩ hty)
  · intro p e he hty hlisted
    have hle : r.mapid ≤ k.mapid r.process := (hset.sound.mappings.bounded _ _ hlisted).2
    omega

/-- A mapping that `mmap` has made. -/
theorem kept_of_mmap {fd id : ℤ} {o : OpenFile} (hset : Settled k) (hi : (slots k).Exclusive)
    (ht : k.status t = .alive) (hfd : processGetFile k t fd = .ok (some f))
    (hfile : k.files.lookup f = some o) (hq : Quiet k o.inode)
    (hmmap : mmap env k t fd addr = .ok (id, k')) (hid : id ≠ error) :
    ∃ r : Region, r.process = t ∧ r.mapid = id ∧ r.inode = o.inode ∧ r.addr = addr ∧
      r.length = (k.bytesOf o.inode).length ∧
      r.Kept (fun j => (k.bytesOf o.inode).getD j 0) False k' := by
  rcases mmap_cases hmmap with ⟨herr, _⟩ | ⟨oldFile, o', file, hget, hmappable, ho', hnew, hcases⟩
  · exact absurd herr hid
  · have heq : f = oldFile := Option.some.inj (Except.ok.inj (hfd.symm.trans hget))
    subst heq
    have hoo : o = o' := Option.some.inj (hfile.symm.trans ho')
    subst hoo
    rcases hcases with ⟨herr, _⟩ | ⟨hpos, b, k₃, hloop, hend⟩
    · exact absurd herr hid
    · rcases hend with ⟨rfl, hid', rfl⟩ | ⟨_, herr, _⟩
      · let r : Region :=
          { process := t
            mapid := k.mapid t + 1
            file := file
            inode := o.inode
            addr := addr
            length := (k.bytesOf o.inode).length
            aligned := hmappable.aligned
            length_pos := Nat.pos_of_ne_zero hpos
            length_lt := k.length_bytesOf_lt o.inode }
        -- no page is in the region yet, and the loop adds them one after the other
        have hbegin : r.Adding (fun j => (k.bytesOf o.inode).getD j 0)
            (beginMapping k t file o.inode) :=
          adding_beginMapping (r := r) hset hi ht hq hnew rfl rfl rfl
        have hlen := r.length_lt
        have hread : (UInt32.ofNat (k.bytesOf o.inode).length).toNat = (k.bytesOf o.inode).length := by
          rw [UInt32.toNat_ofNat_of_lt']
          show r.length < 4294967296
          omega
        rcases mmapLoop_adding (r := r) (n := 0) hbegin (fun _ => rfl)
          (UInt32.add_zero _).symm (by rw [hread]; rfl) (le_of_eq hread) hloop with ⟨h, _, hpres⟩
        refine ⟨r, rfl, ?_, rfl, rfl, rfl, h.sound, h.exclusive, h.mapped, ?_⟩
        · rw [hid', mmapLoop_mapid hloop, beginMapping_mapid]
        · intro l hl
          exact .inl (hpres l (Nat.zero_le l) hl)
      · exact absurd herr hid

/-! ## Memory-mapped files are written back -/

/-- The byte process `t` stored last at an address. -/
def lastStore (as : List Act) (t : Tid) (va : Vaddr) : Option UInt8 :=
  as.reverse.findSome? (Act.storeAt t va)

theorem lastStore_cons : lastStore (a :: as) t va = (lastStore as t va).or (a.storeAt t va) := by
  unfold lastStore
  rw [List.reverse_cons, List.findSome?_append]
  congr 1
  cases h : a.storeAt t va <;> simp [h]

/-- The mapping is kept through a run, with the bytes stored in it. -/
theorem Region.Kept.run (hset : Settled k) (h : r.Kept want False k)
    (hrun : Lts.Run (Calm r.process r.mapid r.inode) k as k') :
    Settled k' ∧ r.Kept (fun j =>
      (lastStore as r.process (r.addr + UInt32.ofNat j)).getD (want j)) False k' := by
  induction hrun generalizing want with
  | nil _ => exact ⟨hset, h⟩
  | @cons k k₁ k' a as hs _ ih =>
      have h' := ih (hset.step hs.step) (h.step hset hs)
      refine ⟨h'.1, ?_⟩
      convert h'.2 using 2 with j
      rw [lastStore_cons]
      unfold Region.after
      cases lastStore as r.process (r.addr + UInt32.ofNat j) <;> rfl

/-- A file that a process has mapped successfully is written back faithfully when
the mapping ends, if nobody else changes the file or denies writes to it: it
keeps its length and has the bytes the process stored in the mapping, and the
ones it had where the process stored none. -/
theorem mapped_file_written_back {fd id : ℤ} {o : OpenFile} (h : Reachable m k)
    (ht : k.status t = .alive) (hfd : processGetFile k t fd = .ok (some f))
    (hfile : k.files.lookup f = some o) (hq : Quiet k o.inode)
    (hmmap : mmap env k t fd addr = .ok (id, k₁)) (hid : id ≠ error)
    (hrun : Lts.Run (Calm t id o.inode) k₁ as k₂) (hs : Step k₂ a k₃)
    (ha : a = .munmap t id ∨ a = .munmap t closeAll ∨ a = .processExit t) :
    (k₃.bytesOf o.inode).length = (k.bytesOf o.inode).length ∧
      ∀ j < (k.bytesOf o.inode).length, (k₃.bytesOf o.inode).getD j 0 =
        (lastStore as t (addr + UInt32.ofNat j)).getD ((k.bytesOf o.inode).getD j 0) := by
  have hset := settled_of_reachable h
  rcases kept_of_mmap hset (slots_exclusive_of_reachable h) ht hfd hfile hq hmmap hid with
    ⟨r, rfl, rfl, hino, rfl, hlength, hkept⟩
  have hstep : Step k (.mmap r.process fd r.addr env) k₁ := by
    refine ⟨ht, ?_⟩
    show (mmap env k r.process fd r.addr >>= _) = _
    rw [hmmap]
    rfl
  rw [← hino] at hrun ⊢
  rcases hkept.run (hset.step hstep) hrun with ⟨hset₂, hkept₂⟩
  have hfinish := hkept₂.finish hset₂ hs ha
  rw [← hino] at hfinish hlength
  rwa [hlength] at hfinish

/-! ## A run with an eviction -/

/-- A file that is open only through descriptors is not mapped. -/
theorem quiet_of_descriptors (h : Sound k)
    (hfiles : ∀ g o, k.files.lookup g = some o → o.inode = i →
      o.denyWrite = false ∧ ∃ u fd, Holds k g (.descriptor u fd)) : Quiet k i where
  undenied := by
    intro hd
    rcases writesDenied_iff.mp hd with ⟨g, o, ho, hino, hdeny⟩
    rw [(hfiles g o ho hino).1] at hdeny
    cases hdeny
  clean := by
    intro u p e o he hty ho hino
    rcases h.holds_mapping he hty with ⟨j, _, hmapping⟩
    rcases (hfiles _ o ho hino).2 with ⟨v, fd, hdesc⟩
    cases h.handles.unique _ _ _ hmapping hdesc

/-- Whether a label is one of a calm step. -/
def calmAct (t : Tid) (id : ℤ) (i : Inode) (k : Kernel) : Act → Bool
  | .load _ exe _ _ => exe ≠ i
  | .writeFile _ _ _ _ _ => false
  | .userStore u va _ => u = t ∧ ∃ p ∈ k.spt t,
      addressOf k p = some (pgRoundDown va) ∧ { spte := p, mapid := id } ∈ k.mmapList t
  | .munmap u j => u ≠ t ∨ j ≠ id ∧ j ≠ closeAll
  | .processExit u => u ≠ t
  | _ => true

theorem calm_of_calmAct {id : ℤ} (h : Sound k) (hcalm : calmAct t id i k a = true)
    (hs : Step k a k') : Calm t id i k a k' where
  step := hs
  load := by
    rintro u segments env rfl
    exact absurd rfl (of_decide_eq_true hcalm)
  write := by
    rintro u fd data size ofs f o rfl
    cases hcalm
  store := by
    rintro u va byte p e o rfl he haddr hty ho hino
    rcases of_decide_eq_true hcalm with ⟨rfl, q, hq, haddrq, hlisted⟩
    rcases h.tables.allocated _ q hq with ⟨x, hx, _⟩
    have hxa : x.unusedVirtualAddress = pgRoundDown va := by
      unfold addressOf at haddrq
      rw [hx] at haddrq
      exact Option.some.inj haddrq
    have hpq : p = q := h.tables.addressUnique _ p q e x he ⟨hq, hx⟩ (haddr.trans hxa.symm)
    exact ⟨rfl, hpq ▸ hlisted⟩
  munmap := by
    rintro j rfl
    rcases of_decide_eq_true hcalm with hne | hj
    · exact absurd rfl hne
    · exact hj
  exit := by
    rintro rfl
    exact of_decide_eq_true hcalm rfl

/-- Perform a label of a calm step. -/
def nextCalm (t : Tid) (id : ℤ) (i : Inode) (k : Kernel) (a : Act) : Except String Kernel :=
  if calmAct t id i k a then next k a else .error "not calm"

theorem run_of_nextCalm {id : ℤ} (hset : Settled k) (h : as.foldlM (nextCalm t id i) k = .ok k') :
    Lts.Run (Calm t id i) k as k' := by
  induction as generalizing k with
  | nil =>
      cases h
      exact .nil _
  | cons a as ih =>
      rw [List.foldlM_cons] at h
      rcases Lts.bind_eq_ok.mp h with ⟨k₁, hnext, hrest⟩
      unfold nextCalm at hnext
      split at hnext
      next hcalm =>
        have hs := step_of_next hnext
        exact .cons (calm_of_calmAct hset.sound hcalm hs) (ih (hset.step hs) hrest)
      next => cases hnext

/-- A machine with two pages for users, an executable and a file of three bytes
each. -/
def oneFile : Machine :=
  { twoFrames with
    inodes := fun i =>
      if i = 1 then some ⟨[7, 8, 9], length_threeBytes⟩
      else if i = 2 then some ⟨[1, 2, 3], by decide⟩
      else none }

/-- A process starts and opens the file. -/
def openRun : List Act :=
  [.load 1 1 [⟨0, 0x08049000, 3, 4093, true⟩] (generous 100),
   .openFile 1 2 (generous 200)]

/-- It stores to the page of its mapping, also beyond the end of the file. The page
is evicted by a page of the executable and comes back for another store. -/
def storeRun : List Act :=
  [.pageFault 1 0x10000001 0xbffffff0 (generous 400),
   .userStore 1 0x10000001 42,
   .userStore 1 0x10000005 99,
   .pageFault 1 0x08049001 0xbffffff0 (generous 500),
   .pageFault 1 0x10000000 0xbffffff0 (generous 600),
   .userStore 1 0x10000002 43]

/-- In the end the file has the two bytes in it. -/
theorem mapped_file_written_back_run : ∃ k k₁ k₂ k₃, Reachable oneFile k ∧
    mmap (generous 300) k 1 2 0x10000000 = .ok (1, k₁) ∧
    Lts.Run (Calm 1 1 2) k₁ storeRun k₂ ∧ Step k₂ (.munmap 1 1) k₃ ∧
    k₃.bytesOf 2 = [1, 42, 43] ∧
    (k₃.bytesOf 2).length = (k.bytesOf 2).length ∧
      ∀ j < (k.bytesOf 2).length, (k₃.bytesOf 2).getD j 0 =
        (lastStore storeRun 1 (0x10000000 + UInt32.ofNat j)).getD ((k.bytesOf 2).getD j 0) := by
  have hrun : (do
      let k ← runActs oneFile.boot openRun
      let r ← mmap (generous 300) k 1 2 0x10000000
      let k₂ ← storeRun.foldlM (nextCalm 1 1 2) r.2
      let k₃ ← next k₂ (.munmap 1 1)
      return (decide (k.status 1 = ProcessStatus.alive ∧ processGetFile k 1 2 = .ok (some 200) ∧
          k.files.lookup 200 = some (OpenFile.mk 2 false) ∧
          ∀ e ∈ k.files.entries, e.2.inode = 2 →
            e.2.denyWrite = false ∧ ProcessFile.mk e.1 2 ∈ k.fileList 1), r.1, k₃.bytesOf 2) :
        Except String (Bool × ℤ × List UInt8)).toOption =
      some (true, 1, [1, 42, 43]) := by decide +kernel
  have hok := Lts.eq_ok_of_toOption hrun
  rcases Lts.bind_eq_ok.mp hok with ⟨k, hk, hok⟩
  rcases Lts.bind_eq_ok.mp hok with ⟨⟨id, k₁⟩, hmmap, hok⟩
  rcases Lts.bind_eq_ok.mp hok with ⟨k₂, hk₂, hok⟩
  rcases Lts.bind_eq_ok.mp hok with ⟨k₃, hk₃, hok⟩
  rcases Prod.mk.inj (Except.ok.inj hok) with ⟨hfacts, hpair⟩
  rcases Prod.mk.inj hpair with ⟨rfl, hbytes⟩
  rcases of_decide_eq_true hfacts with ⟨halive, hfd, hfile, hopen⟩
  have hreach : Reachable oneFile k := ⟨openRun, run_of_runActs hk⟩
  have hset := settled_of_reachable hreach
  have hq : Quiet k 2 := by
    refine quiet_of_descriptors hset.sound ?_
    intro g o ho hino
    rcases hopen ⟨g, o⟩ (AList.mem_lookup_iff.mp ho) hino with ⟨hdeny, hlisted⟩
    exact ⟨hdeny, 1, 2, hlisted⟩
  have hstep : Step k (.mmap 1 2 0x10000000 (generous 300)) k₁ := by
    refine ⟨halive, ?_⟩
    show (mmap (generous 300) k 1 2 0x10000000 >>= _) = _
    rw [hmmap]
    rfl
  have hcalm := run_of_nextCalm (hset.step hstep) hk₂
  have hend := step_of_next hk₃
  exact ⟨k, k₁, k₂, k₃, hreach, hmmap, hcalm, hend, hbytes,
    mapped_file_written_back hreach halive hfd hfile hq hmmap (by decide) hcalm hend (.inl rfl)⟩

end Pintos.Vm
