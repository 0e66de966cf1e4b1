import Pintos.Vm.MappedFiles

/-! # The files behind mappings

An entry in the list of mappings of a process reads from an open file that
denies nobody writes, and the bytes it reads lie in that file. The entries of
one mapping all read from one file. `mmap` divides the file up so; afterwards
the handle stays open as long as the entry is listed, and no file gets shorter.
-/

namespace Pintos.Vm

variable {k k' : Kernel} {t u : Tid} {p q : Ptr} {e e' x y : Spte} {a : Act} {m : Machine}
  {mm : MmapFile} {env : Env} {R : Scope} {n : ℕ} {file : FilePtr} {ofs readBytes zeroBytes : UInt32}
  {addr : Vaddr} {b : Bool}

/-- The part of the file that the entry reads is there. -/
def Backs (k : Kernel) (e : Spte) : Prop :=
  ∃ o, k.files.lookup e.file = some o ∧ o.denyWrite = false ∧
    e.offset.toNat + e.readBytes.toNat ≤ (k.bytesOf o.inode).length

/-- The listed entries, and those of one mapping. -/
structure Backed (k : Kernel) : Prop where
  entry : ∀ t, ∀ mm ∈ k.mmapList t, ∃ e, k.sptes mm.spte = some e ∧ Backs k e
  oneFile : ∀ t, ∀ mm ∈ k.mmapList t, ∀ mm' ∈ k.mmapList t, mm.mapid = mm'.mapid →
    ∀ e e', k.sptes mm.spte = some e → k.sptes mm'.spte = some e' → e.file = e'.file

/-- The part of the file is the same if the handle and the length of the file are. -/
theorem Backs.congr (h : Backs k e) (hfile : e'.file = e.file) (hofs : e'.offset = e.offset)
    (hread : e'.readBytes = e.readBytes) (hlook : k'.files.lookup e.file = k.files.lookup e.file)
    (hlen : ∀ i, (k'.bytesOf i).length = (k.bytesOf i).length) : Backs k' e' := by
  obtain ⟨o, ho, hdeny, hin⟩ := h
  refine ⟨o, ?_, hdeny, ?_⟩
  · rw [hfile, hlook, ho]
  · rw [hofs, hread, hlen]
    exact hin

/-! ## Changes -/

/-- A listed entry changes its looks, this one or another one. -/
theorem listed_update (hx : k'.sptes q = some x) (hy : k.sptes p = some y)
    (hsptes : k'.sptes = Function.update k.sptes p (some e')) (hre : y.Reshaped e') :
    ∃ e, k.sptes q = some e ∧ e.Reshaped x := by
  rw [hsptes] at hx
  by_cases hq : q = p
  · subst hq
    rw [Function.update_self] at hx
    exact ⟨y, hy, Option.some.inj hx ▸ hre⟩
  · rw [Function.update_of_ne hq] at hx
    exact ⟨x, hx, .refl x⟩

/-- A change that adds nothing to a mapping leaves what is listed as it was, but for
the looks of the entries. -/
theorem Change.listed_from (h : Sound k) (hc : Change R k k') (hadds : ∀ u j, ¬ R.adds u j)
    (hmm : mm ∈ k'.mmapList t) (hx : k'.sptes mm.spte = some x) :
    mm ∈ k.mmapList t ∧ ∃ e, k.sptes mm.spte = some e ∧ e.Reshaped x := by
  -- an entry that is marked loaded is not marked `HASH_ERROR`
  have hload : ∀ {u p y}, Entry k u p y → y.Reshaped { y with isLoaded := true } := by
    intro u p y hy
    obtain ⟨z, hz, hty⟩ := h.tables.allocated u p hy.mem
    obtain rfl := Option.some.inj (hz.symm.trans hy.at_ptr)
    exact ⟨rfl, rfl, rfl, rfl, rfl, .inl rfl, fun herr => absurd herr hty⟩
  have hcell : ∀ {p : Ptr}, Unused k p → mm ∈ k.mmapList t → ∀ o,
      Function.update k.sptes p o mm.spte = k.sptes mm.spte := fun hp hold o =>
    Function.update_of_ne (hp.mmap t mm hold) ..
  cases hc with
  | pin pinned hy =>
      exact ⟨hmm, listed_update hx hy rfl ⟨rfl, rfl, rfl, rfl, rfl, .inl rfl, fun _ => rfl⟩⟩
  | cell o hp => exact ⟨hmm, x, (hcell hp hmm _).symm.trans hx, .refl x⟩
  | evict hfte hy hst hs =>
      have hr := h.evict_reshapes hfte hy hs
      rw [hr.mmapList] at hmm
      exact ⟨hmm, hr.mm_to hmm hx⟩
  | discard hfte hy =>
      have hty := h.type_ne_of_fte hfte hy
      exact ⟨hmm, listed_update hx hy rfl
        ⟨rfl, rfl, rfl, rfl, rfl, .inl rfl, fun herr => absurd herr hty⟩⟩
  | readIn hy => exact ⟨hmm, listed_update hx hy.at_ptr rfl (hload hy)⟩
  | swapIn hy => exact ⟨hmm, listed_update hx hy.at_ptr rfl (hload hy)⟩
  | swapInNothing page hy => exact ⟨hmm, listed_update hx hy.at_ptr rfl (hload hy)⟩
  | growStack page hp => exact ⟨hmm, x, (hcell hp hmm _).symm.trans hx, .refl x⟩
  | addMmap hp hy hl hty hnew ht hopen hrole hid hsize hR => exact absurd hR (hadds _ _)
  | addHashError hp hy hl hty ht hopen hrole hid hR => exact absurd hR (hadds _ _)
  | removeMapping hold hy =>
      have hr := h.removes_forgetMapping hold hy
      obtain ⟨hmem, hne⟩ := (hr.mmapList t mm).mp hmm
      exact ⟨hmem, x, (hr.sptes _ hne).symm.trans hx, .refl x⟩
  | destroy hst hspt hy hl hm =>
      have hr := h.removes_destroy hspt hm
      obtain ⟨hmem, hne⟩ := (hr.mmapList t mm).mp hmm
      exact ⟨hmem, x, (hr.sptes _ hne).symm.trans hx, .refl x⟩
  | _ => exact ⟨hmm, x, hx, .refl x⟩

theorem Backed.change (h : Sound k) (hb : Backed k) (hc : Change R k k')
    (hadds : ∀ u j, ¬ R.adds u j) : Backed k' where
  entry := by
    intro t mm hmm
    obtain ⟨x, hx, -⟩ := (h.change hc).mappings.entry t mm hmm
    obtain ⟨hold, e, he, hre⟩ := hc.listed_from h hadds hmm hx
    obtain ⟨z, hz, hback⟩ := hb.entry t mm hold
    obtain rfl := Option.some.inj (hz.symm.trans he)
    -- the handle is in use, so it stays open
    have hlook := hc.lookup h (f := z.file) (r := .mapping t mm.mapid) ⟨mm, hold, rfl, z, hz, rfl⟩
      fun _ _ => by simp
    exact ⟨x, hx, hback.congr hre.file hre.offset hre.readBytes hlook fun _ => hc.length h⟩
  oneFile := by
    intro t mm hmm mm' hmm' hid x x' hx hx'
    obtain ⟨hold, e, he, hre⟩ := hc.listed_from h hadds hmm hx
    obtain ⟨hold', e', he', hre'⟩ := hc.listed_from h hadds hmm' hx'
    rw [hre.file, hre'.file]
    exact hb.oneFile t mm hold mm' hold' hid e e' he he'

theorem Backed.changes (h : Sound k) (hb : Backed k) (hc : Changes R k k')
    (hadds : ∀ u j, ¬ R.adds u j) : Backed k' := by
  have hgen : Sound k' ∧ Backed k' := by
    refine hc.invariant (P := fun x => Sound x ∧ Backed x) ?_ ⟨h, hb⟩
    rintro y z hyz ⟨hy, hby⟩
    exact ⟨hy.change hyz, hby.change hy hyz hadds⟩
  exact hgen.2

/-- Nothing changes for the mappings. -/
theorem Backed.congr (hb : Backed k) (hmmap : ∀ t, ∀ mm ∈ k'.mmapList t, mm ∈ k.mmapList t)
    (hsptes : k'.sptes = k.sptes)
    (hlook : ∀ t, ∀ mm ∈ k.mmapList t, ∀ e, k.sptes mm.spte = some e →
      k'.files.lookup e.file = k.files.lookup e.file)
    (hlen : ∀ i, (k'.bytesOf i).length = (k.bytesOf i).length) : Backed k' where
  entry := by
    intro t mm hmm
    obtain ⟨e, he, hback⟩ := hb.entry t mm (hmmap t mm hmm)
    exact ⟨e, hsptes ▸ he, hback.congr rfl rfl rfl (hlook t mm (hmmap t mm hmm) e he) hlen⟩
  oneFile := by
    intro t mm hmm mm' hmm' hid
    rw [hsptes]
    exact hb.oneFile t mm (hmmap t mm hmm) mm' (hmmap t mm' hmm') hid

/-! ## `mmap` -/

/-- The pages of the newest mapping read from `file`. -/
def Reads (k : Kernel) (t : Tid) (file : FilePtr) : Prop :=
  ∀ mm ∈ k.mmapList t, mm.mapid = k.mapid t → ∀ e, k.sptes mm.spte = some e → e.file = file

/-- What `add_mmap_page_tbl` lists, whether it succeeds or not: the entries listed before,
and at most one of the newest mapping. -/
theorem addMmapPageTbl_listed
    (hadd : addMmapPageTbl env n k t file ofs addr readBytes zeroBytes = (b, k')) :
    (k'.files = k.files ∧ k'.inodes = k.inodes) ∧ ∀ u, ∀ mm ∈ k'.mmapList u,
      (mm ∈ k.mmapList u ∧ ∀ e, k.sptes mm.spte = some e → k'.sptes mm.spte = some e) ∨
      u = t ∧ mm.mapid = k.mapid t ∧ ∃ e, k'.sptes mm.spte = some e ∧ e.file = file ∧
        e.offset = ofs ∧ e.readBytes = readBytes := by
  unfold addMmapPageTbl at hadd
  cases hm : mallocSpte env n k with
  | none =>
      rw [hm] at hadd
      cases hadd
      exact ⟨⟨rfl, rfl⟩, fun u mm hmm => .inl ⟨hmm, fun _ he => he⟩⟩
  | some p =>
      rw [hm] at hadd
      dsimp only at hadd
      -- nothing has been at the pointer of the new entry
      have hcell : ∀ q e, k.sptes q = some e → ∀ o, Function.update k.sptes p o q = some e := by
        intro q e he o
        have hne : q ≠ p := by
          rintro rfl
          rw [mallocSpte_some hm] at he
          cases he
        exact (Function.update_of_ne hne ..).trans he
      have hcell₂ : ∀ q e, k.sptes q = some e → ∀ o o',
          Function.update (Function.update k.sptes p o) p o' q = some e := by
        intro q e he o o'
        rw [Function.update_idem]
        exact hcell q e he o'
      unfold processAddMmap at hadd
      by_cases hlist : env.mallocMmap n = true
      · rw [if_pos hlist] at hadd
        dsimp only at hadd
        unfold hashInsert at hadd
        split at hadd
        next k₁ hins =>
          split at hins <;> cases hins
          cases hadd
          refine ⟨⟨rfl, rfl⟩, ?_⟩
          intro u mm hmm
          rcases (mem_listMapping (k := k)).mp hmm with hold | ⟨rfl, rfl⟩
          · exact .inl ⟨hold, fun e he => hcell mm.spte e he _⟩
          · exact .inr ⟨rfl, rfl, _, Function.update_self .., rfl, rfl, rfl⟩
        next k₁ hins =>
          split at hins <;> cases hins
          cases hadd
          refine ⟨⟨rfl, rfl⟩, ?_⟩
          intro u mm hmm
          rcases (mem_listMapping (k := k)).mp hmm with hold | ⟨rfl, rfl⟩
          · exact .inl ⟨hold, fun e he => hcell₂ mm.spte e he _ _⟩
          · exact .inr ⟨rfl, rfl, _, Function.update_self .., rfl, rfl, rfl⟩
      · rw [if_neg hlist] at hadd
        cases hadd
        exact ⟨⟨rfl, rfl⟩, fun u mm hmm => .inl ⟨hmm, fun e he => hcell₂ mm.spte e he _ _⟩⟩

/-- One page more, if its bytes lie in the file. -/
theorem addMmapPageTbl_backed (hb : Backed k) (hreads : Reads k t file)
    (hnew : ∀ e : Spte, e.file = file → e.offset = ofs → e.readBytes = readBytes → Backs k e)
    (hadd : addMmapPageTbl env n k t file ofs addr readBytes zeroBytes = (b, k')) :
    Backed k' ∧ Reads k' t file := by
  obtain ⟨⟨hfiles, hinodes⟩, hlisted⟩ := addMmapPageTbl_listed hadd
  have hsame : ∀ e, Backs k e → Backs k' e := fun e he =>
    he.congr rfl rfl rfl (by rw [hfiles]) fun i => by rw [bytesOf_congr hinodes]
  -- an entry listed before is the same now
  have hold : ∀ u, ∀ mm ∈ k.mmapList u, (∀ e, k.sptes mm.spte = some e → k'.sptes mm.spte = some e) →
      ∀ x, k'.sptes mm.spte = some x → k.sptes mm.spte = some x := by
    intro u mm hmm hkeep x hx
    obtain ⟨e, he, -⟩ := hb.entry u mm hmm
    rw [he, ← hx, hkeep e he]
  refine ⟨⟨fun u mm hmm => ?_, fun u mm hmm mm' hmm' hid x x' hx hx' => ?_⟩,
    fun mm hmm hid x hx => ?_⟩
  · rcases hlisted u mm hmm with ⟨hmem, hkeep⟩ | ⟨-, -, e, he, hfile, hofs, hread⟩
    · obtain ⟨e, he, hback⟩ := hb.entry u mm hmem
      exact ⟨e, hkeep e he, hsame e hback⟩
    · exact ⟨e, he, hsame e (hnew e hfile hofs hread)⟩
  · rcases hlisted u mm hmm with ⟨hmem, hkeep⟩ | ⟨rfl, hnewest, e, he, hfile, -⟩
    · have hxOld := hold u mm hmem hkeep x hx
      rcases hlisted u mm' hmm' with ⟨hmem', hkeep'⟩ | ⟨rfl, hnewest', e', he', hfile', -⟩
      · exact hb.oneFile u mm hmem mm' hmem' hid x x' hxOld (hold u mm' hmem' hkeep' x' hx')
      · rw [hreads mm hmem (hid.trans hnewest') x hxOld, ← hfile',
          Option.some.inj (he'.symm.trans hx')]
    · rw [← Option.some.inj (he.symm.trans hx), hfile]
      rcases hlisted u mm' hmm' with ⟨hmem', hkeep'⟩ | ⟨-, -, e', he', hfile', -⟩
      · exact (hreads mm' hmem' (hid.symm.trans hnewest) x' (hold u mm' hmem' hkeep' x' hx')).symm
      · rw [← Option.some.inj (he'.symm.trans hx'), hfile']
  · rw [addMmapPageTbl_mapid hadd] at hid
    rcases hlisted t mm hmm with ⟨hmem, hkeep⟩ | ⟨-, -, e, he, hfile, -⟩
    · exact hreads mm hmem hid x (hold t mm hmem hkeep x hx)
    · rw [← Option.some.inj (he.symm.trans hx), hfile]

/-- The pages of a file, from `ofs` on. -/
theorem mmapLoop_backed {o : OpenFile} {rounds : ℕ} (hb : Backed k) (hreads : Reads k t file)
    (ho : k.files.lookup file = some o) (hdeny : o.denyWrite = false)
    (hin : readBytes = 0 ∨ ofs.toNat + readBytes.toNat ≤ (k.bytesOf o.inode).length)
    (hloop : mmapLoop env t file n rounds ofs addr readBytes k = (b, k')) : Backed k' := by
  induction rounds generalizing n ofs addr readBytes k with
  | zero =>
      cases hloop
      exact hb
  | succ rounds ih =>
      unfold mmapLoop at hloop
      by_cases hmore : readBytes > 0
      · rw [if_pos hmore] at hloop
        dsimp only at hloop
        have hlen := k.length_bytesOf_lt o.inode
        have hle : ofs.toNat + readBytes.toNat ≤ (k.bytesOf o.inode).length := by
          apply hin.resolve_left
          rintro rfl
          exact absurd hmore (by decide)
        have hpage := toNat_pageReadBytes readBytes
        set page : UInt32 := if readBytes < 4096 then readBytes else 4096 with hpageDef
        rcases hadd : addMmapPageTbl env n k t file ofs addr page (4096 - page) with ⟨added, k₁⟩
        rw [hadd] at hloop
        have hnew : ∀ e : Spte, e.file = file → e.offset = ofs → e.readBytes = page →
            Backs k e := by
          rintro e rfl rfl hread
          refine ⟨o, ho, hdeny, ?_⟩
          rw [hread, hpage]
          omega
        obtain ⟨hb₁, hreads₁⟩ := addMmapPageTbl_backed hb hreads hnew hadd
        obtain ⟨⟨hfiles, hinodes⟩, -⟩ := addMmapPageTbl_listed hadd
        cases added with
        | false =>
            cases hloop
            exact hb₁
        | true =>
            refine ih hb₁ hreads₁ (by rw [hfiles]; exact ho) (.inr ?_) hloop
            rw [bytesOf_congr hinodes, UInt32.toNat_add, hpage]
            have hsub : page ≤ readBytes := by
              rw [UInt32.le_iff_toNat_le, hpage]
              exact Nat.min_le_right ..
            rw [UInt32.toNat_sub_of_le _ _ hsub, hpage]
            have hmod := Nat.mod_le (ofs.toNat + min 4096 readBytes.toNat) (2 ^ 32)
            omega
      · rw [if_neg hmore] at hloop
        cases hloop
        exact hb

/-- The state in which the loop of `mmap` ends, whether it has added all pages or not. -/
theorem mapping_backed {i : Inode} (h : Sound k) (hb : Backed k) (ht : k.status t = .alive)
    (hnew : file ∉ k.files)
    (hloop : mmapLoop env t file 0 (k.bytesOf i).length 0 addr (UInt32.ofNat (k.bytesOf i).length)
      (beginMapping k t file i) = (b, k')) : Sound k' ∧ Backed k' := by
  have hbegin : Changes .none k (beginMapping k t file i) := beginMapping_changes hnew
  have h₁ := h.changes hbegin
  have hnonneg := h.mappings.mapidNonneg t
  have hc := mmapLoop_changes (R := ⟨fun _ _ => True, fun _ _ => True, fun _ _ => True,
    fun _ => True⟩) h₁ ht ((AList.mem_insert _).mpr (.inl rfl))
    (fun _ hr => absurd hr (not_holds_beginMapping h hnew)) (by rw [beginMapping_mapid]; omega)
    trivial (fun _ _ => trivial) hloop
  -- no page is of the new mapping yet
  have hreads : Reads (beginMapping k t file i) t file := by
    intro mm hmm hid
    have hle := (h.mappings.bounded t mm hmm).2
    rw [beginMapping_mapid] at hid
    omega
  refine ⟨h₁.changes hc, mmapLoop_backed (hb.changes h hbegin fun _ _ hno => hno) hreads
    (AList.lookup_insert _) rfl (.inr ?_) hloop⟩
  have hlen := k.length_bytesOf_lt i
  rw [UInt32.toNat_ofNat_of_lt' (by show _ < 4294967296; omega)]
  show 0 + (k.bytesOf i).length ≤ (k.bytesOf i).length
  omega

theorem mmap_backed {fd id : ℤ} (h : Sound k) (hb : Backed k) (ht : k.status t = .alive)
    (hmmap : mmap env k t fd addr = .ok (id, k')) : Backed k' := by
  rcases mmap_cases hmmap with ⟨-, rfl⟩ | ⟨oldFile, o, file, -, -, -, hnew, hcases⟩
  · exact hb
  · rcases hcases with ⟨-, rfl⟩ | ⟨-, b, k₃, hloop, hend⟩
    · exact hb.changes (R := .none) h (.single (.openFile o.inode hnew)) fun _ _ hno => hno
    · obtain ⟨h₃, hb₃⟩ := mapping_backed h hb ht hnew hloop
      rcases hend with ⟨-, -, rfl⟩ | ⟨-, -, hunmap⟩
      · exact hb₃
      · -- the pages that were added are removed again
        have hc := processRemoveMmap_changes (R := ⟨fun _ _ => False, fun _ _ => True,
          fun _ _ => False, fun _ => False⟩) h₃ (fun _ _ => trivial) hunmap
        exact hb₃.changes h₃ hc.1 fun _ _ hno => hno

/-! ## Steps -/

theorem Backed.step (hset : Settled k) (hb : Backed k) (hs : Step k a k') : Backed k' := by
  by_cases hmap : ∃ t fd addr env, a = .mmap t fd addr env
  · obtain ⟨t, fd, addr, env, rfl⟩ := hmap
    obtain ⟨⟨id, k₁⟩, hmmap, hret⟩ := Lts.bind_eq_ok.mp hs.2
    cases hret
    exact mmap_backed hset.sound hb hs.1 hmmap
  · have hadds : ∀ u j, ¬ (a.scope k).adds u j := by
      intro u j hu
      cases a with
      | mmap t fd addr env => exact hmap ⟨t, fd, addr, env, rfl⟩
      | _ => exact hu
    have hlook : ∀ t, ∀ mm ∈ k.mmapList t, ∀ e, k.sptes mm.spte = some e → e.file ∈ k.files := by
      intro t mm hmm e he
      exact hset.sound.handles.opened e.file (.mapping t mm.mapid) ⟨mm, hmm, rfl, e, he, rfl⟩
    have heff := step_effect hset.sound hset.noneExiting hs
    cases heff with
    | changes ha hc => exact hb.changes hset.sound hc hadds
    | killed ha ht hc =>
        exact (hb.changes hset.sound hc hadds).congr (fun _ _ hmm => hmm) rfl
          (fun _ _ _ _ _ => rfl) fun _ => rfl
    | store hst =>
        obtain ⟨pte, -, -, rfl⟩ := userStore_ok hst
        exact hb.congr (fun _ _ hmm => hmm) rfl (fun _ _ _ _ _ => rfl) fun _ => rfl
    | write hf ho =>
        refine hb.congr (fun t mm hmm => ?_) write_fields.2.2.2 (fun _ _ _ _ _ => by rw [write_files])
          fun _ => length_inodeWriteAt
        rwa [write_mmapList] at hmm
    | @start t exe segments env file k' ht hfile hc =>
        have hstart : Backed (startProcess k t file exe) := by
          refine hb.congr ?_ rfl ?_ fun _ => rfl
          · intro u mm hmm
            exact (sublist_update (f := k.mmapList) (List.nil_sublist _)).subset hmm
          · intro u mm hmm e he
            apply AList.lookup_insert_ne
            rintro rfl
            exact hfile (hlook u mm hmm e he)
        exact hstart.changes (hset.sound.start ht hfile) hc hadds
    | @leave t k₁ ht hc =>
        have hexiting : Backed (k.setStatus t .exiting) :=
          hb.congr (fun _ _ hmm => hmm) rfl (fun _ _ _ _ _ => rfl) fun _ => rfl
        have hk₁ := hexiting.changes (hset.sound.setStatus (.inr ht) (by decide)) hc hadds
        exact hk₁.congr (fun _ _ hmm => hmm) rfl (fun _ _ _ _ _ => rfl) fun _ => rfl

theorem backed_of_reachable (h : Reachable m k) : Backed k := by
  have hgen : Settled k ∧ Backed k := by
    refine Lts.Reaches.invariant (P := fun x => Settled x ∧ Backed x) ?_ h
      ⟨settled_boot m, fun t mm hmm => absurd hmm List.not_mem_nil,
        fun t mm hmm => absurd hmm List.not_mem_nil⟩
    rintro x a y hs ⟨hset, hb⟩
    exact ⟨hset.step hs, hb.step hset hs⟩
  exact hgen.2

end Pintos.Vm
