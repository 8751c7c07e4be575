import Mcsos.Mcsfs1.Store

set_option autoImplicit false

/-! # Each operation does what the store does

On an image that has the files of a store, an operation on a device that does not fail returns what
the store returns and leaves an image that has the files of the store then. Errors are the same too:
an inode is free whenever an entry is, and `NOSPC` is a matter of counting.
-/

namespace Mcsos.Mcsfs1

variable {D : Disk} {c c' : Blocks} {st : Store} {name : Bytes} {past : UInt8}

/-- From an image with the files of a store, `x` returns what `r` has, and leaves an image with the
files of the store in `r`. -/
def Agrees (D : Disk) (x : M15 (List UInt8)) (c : Blocks)
    (r : Except Mcsfs1Err (List UInt8) × Store) : Prop :=
  Does D x c (fun out c' => r.1 = .ok out ∧ Holds D c' r.2) fun e c' => r.1 = .error e ∧ Holds D c' r.2

/-! ## Counting -/

section

variable {s ino lba n : Nat}

theorem Created.usedSlots_eq (w : Created D.blockCount name past c s ino lba n)
    (hbc : D.blockCount ≤ 4096) :
    usedSlots (created c s ino lba name n) = insert s (usedSlots c) := by
  ext i
  rw [Finset.mem_insert, mem_usedSlots, mem_usedSlots, w.used_iff hbc]

theorem Created.freeBlocks_eq (w : Created D.blockCount name past c s ino lba n)
    (hbc : D.blockCount ≤ 4096) :
    freeBlocks D.blockCount (metaOf (created c s ino lba name n)) =
      (freeBlocks D.blockCount (metaOf c)).erase lba := by
  ext b
  simp only [freeBlocks, Finset.mem_erase, Finset.mem_filter, w.meta_eq hbc]
  by_cases hb : b = lba
  · simp [hb]
  · simp [hb]

/-- With a free entry there is a free inode: there are more inodes than entries. -/
theorem InodesExact.findFreeInode_ne_none (hx : InodesExact (metaOf c)) (h : Inv D.blockCount c) :
    findFreeInode (c inodeBmapLba) ≠ none := by
  intro hnone
  have hsub : Finset.Icc 2 maxInodes ⊆
      (Finset.range direntCount).image fun i => ((metaOf c).entry i).ino := by
    intro ino hino
    obtain ⟨hge, hle⟩ := Finset.mem_Icc.mp hino
    have hmax : maxInodes = 32 := rfl
    have hroot : rootIno = 1 := rfl
    have hblock : blockSize = 512 := rfl
    have htest := Loop.findFrom_none_iff.mp hnone ino hge (by omega)
    have hbit : (metaOf c).ib ino = true := by
      show bits (c inodeBmapLba) ino = true
      rw [bits_of_lt (by omega)]
      simpa using htest
    rcases (hx ino).mp hbit with h0 | h1 | ⟨s, hs, he⟩
    · omega
    · omega
    · exact Finset.mem_image.mpr ⟨s, Finset.mem_range.mpr (h.data.slot s hs), he⟩
  have hcard := (Finset.card_le_card hsub).trans Finset.card_image_le
  rw [Nat.card_Icc, Finset.card_range] at hcard
  exact absurd hcard (by decide)

theorem usedSlots_full (hnone : findFreeDirent (c rootDirLba) = none) :
    (usedSlots c).card = direntCount := by
  have hall : usedSlots c = Finset.range direntCount := by
    refine Finset.filter_true_of_mem fun i hi => ?_
    have hno := Loop.findFrom_none_iff.mp hnone i (Nat.zero_le i)
      (by simpa using Finset.mem_range.mp hi)
    simpa using hno
  rw [hall, Finset.card_range]

theorem Created.usedSlots_lt (w : Created D.blockCount name past c s ino lba n) :
    (usedSlots c).card < direntCount := by
  have hsub : usedSlots c ⊆ (Finset.range direntCount).erase s := by
    intro i hi
    refine Finset.mem_erase.mpr ⟨?_, (Finset.mem_filter.mp hi).1⟩
    rintro rfl
    exact w.free (mem_usedSlots.mp hi)
  have hcard := Finset.card_le_card hsub
  rw [Finset.card_erase_of_mem (Finset.mem_range.mpr w.slot), Finset.card_range] at hcard
  have h16 : direntCount = 16 := rfl
  omega

theorem needed_eq {len : Nat} (h : len ≤ directBlocks * blockSize) : needed len = blocksFor len := by
  have hlen : len ≤ 4096 := h
  have hb : blocksNeeded len = (len + 511) % 2 ^ 32 / 512 := rfl
  unfold needed blocksFor
  split_ifs <;> omega

/-- The entries of `direct` that a write fills. -/
theorem Stores.missing_card {f : StoredFile} (h : Stores c s f) (n : Nat) :
    (missing ((metaOf c).file s) n).card = n - f.blocks := by
  have hset : missing ((metaOf c).file s) n = Finset.Ico f.blocks n := by
    ext j
    rw [mem_missing, Finset.mem_Ico, and_comm, ← not_lt, ← h.blocks j, not_not]
  rw [hset, Nat.card_Ico]

/-- A write takes the blocks that are missing off those that are free. -/
theorem WroteOnly.freeBlocks_card {len : Nat} {buf : Bytes} {x : Inode}
    (w : WroteOnly D c s len buf x c') :
    (freeBlocks D.blockCount (metaOf c')).card =
      (freeBlocks D.blockCount (metaOf c)).card -
        (missing ((metaOf c).file s) (needed len)).card := by
  have hnew : ∀ j, j ∈ missing ((metaOf c).file s) (needed len) →
      x.direct j ≠ 0 ∧ ((metaOf c).file s).direct j = 0 := fun j hj =>
    ⟨w.full j (mem_missing.mp hj).1, (mem_missing.mp hj).2⟩
  have himage : (missing ((metaOf c).file s) (needed len)).image x.direct ⊆
      freeBlocks D.blockCount (metaOf c) := by
    intro b hb
    obtain ⟨j, hj, rfl⟩ := Finset.mem_image.mp hb
    exact mem_freeBlocks.mpr (w.new j (hnew j hj).1 (hnew j hj).2)
  have hset : freeBlocks D.blockCount (metaOf c') = freeBlocks D.blockCount (metaOf c) \
      (missing ((metaOf c).file s) (needed len)).image x.direct := by
    ext b
    have hbit := w.bb b
    simp only [Finset.mem_sdiff, Finset.mem_image, freeBlocks, Finset.mem_filter,
      Bool.eq_false_iff, ne_eq, hbit, not_or, not_exists, not_and]
    refine ⟨fun ⟨hlt, hge, hold, hnone⟩ => ⟨⟨hlt, hge, hold⟩, fun j hj he => ?_⟩,
      fun ⟨⟨hlt, hge, hold⟩, hnone⟩ => ⟨hlt, hge, hold, fun j he hne hzero => ?_⟩⟩
    · exact hnone j he (he ▸ (hnew j hj).1) (hnew j hj).2
    -- behind the blocks that the size takes the inode has nothing new
    · refine hnone j (mem_missing.mpr ⟨?_, hzero⟩) he
      by_contra hlen
      exact hne (he ▸ (w.tail j (not_lt.mp hlen)).trans hzero)
  have hinj : Set.InjOn x.direct (missing ((metaOf c).file s) (needed len)) := fun j hj k _ he =>
    w.distinct j k (hnew j hj).1 he
  rw [hset, Finset.card_sdiff_of_subset himage, Finset.card_image_of_injOn hinj]

/-- An unlink gives back the blocks of the file. -/
theorem unlinked_freeBlocks_card (h : Inv D.blockCount c) (hs : s < direntCount)
    (hu : (metaOf c).Used s) {f : StoredFile} (hf : Stores c s f) :
    (freeBlocks D.blockCount (metaOf (unlinked D.blockCount c s))).card =
      (freeBlocks D.blockCount (metaOf c)).card + f.blocks := by
  have hok := h.data.file s hu
  have hset : freeBlocks D.blockCount (metaOf (unlinked D.blockCount c s)) =
      freeBlocks D.blockCount (metaOf c) ∪
        (Finset.range f.blocks).image ((metaOf c).file s).direct := by
    ext b
    have hbit := unlinked_bb_iff h hs hu b
    simp only [Finset.mem_union, Finset.mem_image, Finset.mem_range, freeBlocks, Finset.mem_filter,
      Bool.eq_false_iff, ne_eq, hbit, not_and, not_not]
    constructor
    · rintro ⟨hlt, hge, hall⟩
      by_cases hb : (metaOf c).bb b = true
      · obtain ⟨j, hj, hne, -⟩ := hall hb
        exact Or.inr ⟨j, (hf.blocks j).mp (by rw [hj]; exact hne), hj⟩
      · exact Or.inl ⟨hlt, hge, hb⟩
    · rintro (⟨hlt, hge, hb⟩ | ⟨j, hj, rfl⟩)
      · exact ⟨hlt, hge, fun hb' => absurd hb' hb⟩
      · have hne := (hf.blocks j).mpr hj
        exact ⟨hok.direct_lt j hne, hok.direct_ge j hne,
          fun _ => ⟨j, rfl, hne, hok.direct_lt j hne⟩⟩
  have hdisjoint : Disjoint (freeBlocks D.blockCount (metaOf c))
      ((Finset.range f.blocks).image ((metaOf c).file s).direct) := by
    rw [Finset.disjoint_left]
    intro b hfree hb
    obtain ⟨j, hj, rfl⟩ := Finset.mem_image.mp hb
    have hbit := hok.bit j ((hf.blocks j).mpr (Finset.mem_range.mp hj))
    rw [(mem_freeBlocks.mp hfree).bit] at hbit
    cases hbit
  have hinj : Set.InjOn ((metaOf c).file s).direct (Finset.range f.blocks) := fun j hj k _ he =>
    hok.distinct j k ((hf.blocks j).mpr (Finset.mem_range.mp hj)) he
  rw [hset, Finset.card_union_of_disjoint hdisjoint, Finset.card_image_of_injOn hinj,
    Finset.card_range]

theorem unlinked_usedSlots_card (h : Inv D.blockCount c) (hs : s < direntCount)
    (hu : (metaOf c).Used s) :
    (usedSlots (unlinked D.blockCount c s)).card = (usedSlots c).card - 1 := by
  have hset : usedSlots (unlinked D.blockCount c s) = (usedSlots c).erase s := by
    ext i
    rw [Finset.mem_erase, mem_usedSlots, mem_usedSlots, unlinked_used_iff h hs hu]
  rw [hset, Finset.card_erase_of_mem (mem_usedSlots.mpr hu)]

end

/-! ## The image after an operation -/

section

variable {s ino lba n len : Nat} {x : Inode} {f : StoredFile}

/-- A new file is empty and has one block. -/
theorem Created.stores (w : Created D.blockCount name past c s ino lba n)
    (hbc : D.blockCount ≤ 4096) : Stores (created c s ino lba name n) s ⟨[], 1⟩ := by
  refine ⟨by simp [fileData, w.file_new hbc], fun j => ?_⟩
  rw [w.file_new hbc]
  by_cases hj : j = 0
  · simp [hj, w.block.ne_zero]
  · simp [hj]

theorem Holds.created (h : Holds D c st) (hbc : D.blockCount ≤ 4096)
    (w : Created D.blockCount name past c s ino lba n) (hshort : (key name).length ≠ maxName) :
    Holds D (created c s ino lba name n)
      ⟨Function.update st.files (key name) (some ⟨[], 1⟩), st.used + 1, st.free - 1⟩ := by
  have hgood := w.good hbc h.inv
  have hnew := h.listed.not_mem (h.terminated past) w.valid w.missing
  have hlba := mem_freeBlocks.mpr w.block
  have hunused : s ∉ usedSlots c := fun hs => w.free (mem_usedSlots.mp hs)
  refine ⟨hgood.inv, w.inodesExact hbc h.inodes, ?_, fun k hk => ?_, fun i hi => ?_, ?_, ?_⟩
  · have hset : {k | (Function.update st.files (key name) (some ⟨[], 1⟩) k).isSome} =
        insert (key name) {k | (st.files k).isSome} := by
      ext k
      by_cases hk : k = key name <;> simp [hk]
    show Listed _ {k | (Function.update st.files (key name) (some ⟨[], 1⟩) k).isSome}
    rw [hset]
    exact h.listed.create (h.terminated past) hbc h.inv w
  · by_cases hk' : k = key name
    · obtain ⟨hlen, hle⟩ := key_length w.valid
      rw [hk']
      omega
    · exact h.short k (by simpa [hk'] using hk)
  · rcases (w.used_iff hbc i).mp hi with rfl | hold
    · exact ⟨⟨[], 1⟩, by simp [w.slotKey_self], w.stores hbc⟩
    · obtain ⟨f, hf, hstores⟩ := h.file i hold
      have hkey := hgood.slotKey_eq hold nofun
      have hne : slotKey (c rootDirLba) i ≠ key name := by
        rintro he
        rw [he] at hf
        exact hnew (by simp [hf])
      refine ⟨f, by simp [hkey, hne, hf], ?_, ?_⟩
      · rw [hgood.fileData_eq h.inv hold nofun, hstores.data]
      · rw [w.file_old hbc h.inv hold]
        exact hstores.blocks
  · rw [w.usedSlots_eq hbc, Finset.card_insert_of_notMem hunused, h.used]
  · rw [w.freeBlocks_eq hbc, Finset.card_erase_of_mem hlba, h.free]

/-- Another value for a name that is there leaves the names as they are. -/
theorem isSome_update {k : List UInt8} (hk : (st.files k).isSome) (f : StoredFile) :
    {k' | (Function.update st.files k (some f) k').isSome} = {k' | (st.files k').isSome} := by
  ext k'
  by_cases hk' : k' = k
  · simp [hk', hk]
  · simp [hk']

theorem Holds.written {buf : Bytes} (h : Holds D c st) (hs : (metaOf c).Used s)
    (hkey : slotKey (c rootDirLba) s = key name) (hf : st.files (key name) = some f)
    (hstores : Stores c s f) (w : WroteOnly D c s len buf x c') :
    Holds D c' { st with
      files := Function.update st.files (key name)
        (some ⟨buf.slice 0 len, max f.blocks (blocksFor len)⟩)
      free := st.free - (blocksFor len - f.blocks) } := by
  have hsome : (st.files (key name)).isSome := by simp [hf]
  refine ⟨w.good.inv, w.inodesExact h.inodes, ?_, fun k hk => ?_, fun i hi => ?_, ?_, ?_⟩
  · show Listed _ {k | (Function.update st.files (key name) _ k).isSome}
    rw [isSome_update hsome, w.dir]
    exact h.listed
  · by_cases hk' : k = key name
    · exact hk' ▸ h.short _ hsome
    · exact h.short k (by simpa [hk'] using hk)
  · have hi' := (w.used_iff i).mp hi
    rw [w.dir]
    by_cases his : i = s
    · subst his
      refine ⟨_, by rw [hkey]; exact Function.update_self .., w.toWrote.fileData_eq.2, fun j => ?_⟩
      rw [w.file_self, ← needed_eq w.fits]
      constructor
      · intro hj
        by_contra hlt
        dsimp only at hlt
        rw [w.tail j (by omega)] at hj
        exact hlt (lt_of_lt_of_le ((hstores.blocks j).mp hj) (le_max_left ..))
      · intro hj
        rcases lt_max_iff.mp hj with hold | hnew
        · have hne := (hstores.blocks j).mpr hold
          rw [w.keeps j hne]
          exact hne
        · exact w.full j hnew
    · obtain ⟨f', hf', hstores'⟩ := h.file i hi'
      have hne := h.other hi' hs his
      rw [hkey] at hne
      refine ⟨f', by simp [hne, hf'], ?_, ?_⟩
      · rw [w.good.fileData_eq h.inv hi' (by simpa using Ne.symm his), hstores'.data]
      · rw [w.file_other hi' his]
        exact hstores'.blocks
  · rw [← h.used, usedSlots, usedSlots, w.dir]
  · rw [w.freeBlocks_card, hstores.missing_card, needed_eq w.fits, h.free]

/-- The blocks that a write without room has marked are lost. -/
theorem Holds.reserved (h : Holds D c st) (g : Reserved D c s n c' x)
    (hnone : ∀ lba, ¬FreeBlock D.blockCount c' lba) : Holds D c' { st with free := 0 } := by
  have hused : ∀ i, (metaOf c').Used i ↔ (metaOf c).Used i := fun i => g.used
  refine ⟨g.good.inv, fun i => ?_, ?_, h.short, fun i hi => ?_, ?_, ?_⟩
  · rw [g.ib, h.inodes i, g.entry]
    simp only [hused]
  · rw [g.dir]
    exact h.listed
  · have hi' := (hused i).mp hi
    obtain ⟨f, hf, hstores⟩ := h.file i hi'
    have hok := h.inv.data.file i hi'
    rw [g.dir]
    refine ⟨f, hf, ?_, by rw [g.file]; exact hstores.blocks⟩
    rw [← hstores.data, fileData, fileData, g.file]
    refine List.map_congr_left fun k hk => ?_
    have hge := hok.direct_ge _ (hok.needed _ (lt_needed (List.mem_range.mp hk) hok.size))
    have h8 : dataStartLba = 8 := rfl
    have h2 : blockBmapLba = 2 := rfl
    rw [fileByte, fileByte, g.file]
    exact g.blocks _ (by omega) _ (Nat.zero_le _) (Nat.mod_lt k (by decide))
  · rw [← h.used, usedSlots, usedSlots, g.dir]
  · rw [Finset.card_eq_zero, Finset.eq_empty_iff_forall_notMem]
    exact fun b hb => hnone b (mem_freeBlocks.mp hb)

theorem Holds.unlinked (h : Holds D c st) (hslot : s < direntCount) (hs : (metaOf c).Used s)
    (hkey : slotKey (c rootDirLba) s = key name) (hstores : Stores c s f) :
    Holds D (unlinked D.blockCount c s)
      ⟨Function.update st.files (key name) none, st.used - 1, st.free + f.blocks⟩ := by
  have hgood := good_unlinked h.inv hslot hs
  refine ⟨hgood.inv, unlinked_inodesExact h.inodes h.inv hslot hs, ?_, fun k hk => ?_,
    fun i hi => ?_, ?_, ?_⟩
  · have hset : {k | (Function.update st.files (key name) none k).isSome} =
        {k | (st.files k).isSome} \ {slotKey (c rootDirLba) s} := by
      ext k
      by_cases hk : k = key name <;> simp [hk, hkey]
    show Listed _ {k | (Function.update st.files (key name) none k).isSome}
    rw [hset]
    exact h.listed.unlink h.inv ((used_iff c s).mp hs)
  · by_cases hk' : k = key name
    · simp [hk'] at hk
    · exact h.short k (by simpa [hk'] using hk)
  · obtain ⟨his, hi'⟩ := (unlinked_used_iff h.inv hslot hs i).mp hi
    obtain ⟨f', hf', hstores'⟩ := h.file i hi'
    have hother : some s ≠ some i := fun he => his (Option.some.inj he).symm
    have hne := h.other hi' hs his
    rw [hkey] at hne
    refine ⟨f', by simp [hgood.slotKey_eq hi' hother, hne, hf'], ?_, ?_⟩
    · rw [hgood.fileData_eq h.inv hi' hother, hstores'.data]
    · rw [(unlinked_kept h.inv hslot hs hi' his).2]
      exact hstores'.blocks
  · rw [unlinked_usedSlots_card h.inv hslot hs, h.used]
  · rw [unlinked_freeBlocks_card h.inv hslot hs hstores, h.free]

end

/-! ## The operations -/

section

variable (h8 : 8 < D.blockCount) (hbc : D.blockCount ≤ 4096) (hgood : ¬D.Faulty)
  (h : Holds D c st)

include h8 hbc hgood h

theorem Holds.agrees_create (mnt : Mount) (name : Bytes) (past : UInt8)
    (hshort : (key name).length ≠ maxName) :
    Agrees D ((Call.create name past).exec mnt) c (st.create (key name)) := by
  have hname := validName_eq name
  have hdoes : Does D (create name past) c
      (fun _ c' => (st.create (key name)).1 = .ok [] ∧ Holds D c' (st.create (key name)).2)
      fun e c' => (st.create (key name)).1 = .error e ∧ Holds D c' (st.create (key name)).2 := by
    refine (does_create_of h8 hbc name past (fun e he => ?_) (fun n s hv hs => ?_)
      (fun n hv hnone hfull => ?_) fun hf => absurd hf hgood).mono (fun _ c' hq => ?_)
      fun _ _ he => he
    · rw [he] at hname
      cases herr : nameError (key name) with
      | some e' =>
          simp only [herr] at hname
          cases hname
          simpa [Store.create, herr] using h
      | none =>
          simp only [herr] at hname
          cases hname
    · obtain ⟨f, -, hf, -⟩ := h.lookup_some hs
      have herr : nameError (key name) = none := by
        cases herr : nameError (key name) <;> simp [herr, hv] at hname ⊢
      simpa [Store.create, herr, hf] using h
    · have herr : nameError (key name) = none := by
        cases herr : nameError (key name) <;> simp [herr, hv] at hname ⊢
      have hfile : st.files (key name) = none := by
        simpa using h.listed.not_mem (h.terminated past) hv hnone
      have hout : st.used = direntCount ∨ st.free = 0 := by
        rcases hfull with hslot | hino | hlba
        · exact Or.inl (h.used ▸ usedSlots_full hslot)
        · exact absurd hino (h.inodes.findFreeInode_ne_none h.inv)
        · right
          rw [← h.free, Finset.card_eq_zero, Finset.eq_empty_iff_forall_notMem]
          exact fun b hb => findFreeBlock_none hbc hlba b (mem_freeBlocks.mp hb)
      simpa [Store.create, herr, hfile, hout] using h
    · obtain ⟨s, ino, lba, n, w, rfl⟩ := hq
      have herr : nameError (key name) = none := by
        have hv := w.valid
        cases herr : nameError (key name) <;> simp [herr, hv] at hname ⊢
      have hfile : st.files (key name) = none := by
        simpa using h.listed.not_mem (h.terminated past) w.valid w.missing
      have hroom : ¬(st.used = direntCount ∨ st.free = 0) := by
        have hlt := w.usedSlots_lt
        have hpos := Finset.card_pos.mpr ⟨lba, mem_freeBlocks.mpr w.block⟩
        rw [h.used] at hlt
        rw [h.free] at hpos
        omega
      simpa [Store.create, herr, hfile, hroom] using h.created hbc w hshort
  exact hdoes.bind fun _ _ hq => does_pure hq

theorem Holds.agrees_write (mnt : Mount) (name buf : Bytes) (len : Nat) (past : UInt8) :
    Agrees D ((Call.write name buf len past).exec mnt) c
      (st.write (key name) (buf.slice 0 len)) := by
  set r := st.write (key name) (buf.slice 0 len) with hr
  unfold Store.write at hr
  rw [Bytes.slice_length] at hr
  have hdoes : Does D (write name buf len past) c (fun _ c' => r.1 = .ok [] ∧ Holds D c' r.2)
      fun e c' => r.1 = .error e ∧ Holds D c' r.2 := by
    by_cases hlen : directBlocks * blockSize < len
    · rw [if_pos hlen] at hr
      exact bind_failIf (fun _ => by simpa [hr] using h) fun hnot => absurd hlen hnot
    rw [if_neg hlen] at hr
    cases hs : target c name past with
    | none =>
        rw [h.lookup_none hs] at hr
        refine bind_failIf (fun hbad => absurd hbad hlen) fun _ =>
          bind_findDirent h8 (fun _ => by simpa [hr] using h) fun s hs' => ?_
        rw [hs] at hs'
        cases hs'
    | some s =>
        obtain ⟨f, hlook, hf, hkey, hstores⟩ := h.lookup_some hs
        obtain ⟨-, hu⟩ := target_used hs
        rw [hlook] at hr
        dsimp only at hr
        have hmissing := hstores.missing_card (needed len)
        rw [needed_eq (not_lt.mp hlen)] at hmissing
        refine (does_writeFile_of h8 hbc h.inv name buf len past (fun e _ hlate => ?_)
          (fun s' c' x i hs' _ g hi hzero hnone => ?_) fun hf => absurd hf hgood).mono
          (fun _ c' hq => ?_) fun _ _ he => he
        · exact absurd (hlate s hs) hlen
        · obtain rfl : s = s' := Option.some.inj (hs.symm.trans hs')
          have hlt := g.free_lt hi hzero hnone
          rw [h.free, needed_eq (not_lt.mp hlen), hmissing] at hlt
          rw [if_pos hlt] at hr
          simpa [hr] using h.reserved g hnone
        · obtain ⟨s', x, hs', w⟩ := hq
          obtain rfl : s = s' := Option.some.inj (hs.symm.trans hs')
          have hle := missing_le w.full w.new w.distinct
          rw [h.free, needed_eq w.fits, hmissing] at hle
          rw [if_neg (not_lt.mpr hle)] at hr
          simpa [hr] using h.written hu hkey hf hstores w
  exact hdoes.bind fun _ _ hq => does_pure hq

theorem Holds.agrees_unlink (mnt : Mount) (name : Bytes) (past : UInt8) :
    Agrees D ((Call.unlink name past).exec mnt) c (st.unlink (key name)) := by
  have hdoes : Does D (unlink name past) c
      (fun _ c' => (st.unlink (key name)).1 = .ok [] ∧ Holds D c' (st.unlink (key name)).2)
      fun e c' => (st.unlink (key name)).1 = .error e ∧ Holds D c' (st.unlink (key name)).2 := by
    refine (does_unlink_of h8 hbc name past (fun hnone => ?_) (fun s hs => ?_)
      fun hf => absurd hf hgood).mono (fun _ c' hq => ?_) fun _ _ he => he
    · simpa [Store.unlink, h.lookup_none hnone] using h
    · obtain ⟨-, hu⟩ := target_used hs
      have hm := (h.inv.data.file s hu).mode
      rw [file_eq h.inv hu] at hm
      exact ⟨h.inv.data.inoOk hu, hm⟩
    · obtain ⟨s, hs, rfl⟩ := hq
      obtain ⟨hslot, hu⟩ := target_used hs
      obtain ⟨f, hlook, -, hkey, hstores⟩ := h.lookup_some hs
      simpa [Store.unlink, hlook] using h.unlinked hslot hu hkey hstores
  exact hdoes.bind fun _ _ hq => does_pure hq

omit hgood in
theorem Holds.agrees_read {mnt : Mount} (hcount : mnt.blockCount = D.blockCount) (name : Bytes)
    (cap : Nat) (past : UInt8) :
    Agrees D ((Call.read name cap past).exec mnt) c (st.read (key name) cap) := by
  set r := st.read (key name) cap with hr
  unfold Store.read at hr
  have hdoes : Does D (read mnt name cap past) c
      (fun out c' => r.1 = .ok out.bytes ∧ Holds D c' r.2)
      fun e c' => r.1 = .error e ∧ Holds D c' r.2 := by
    cases hs : target c name past with
    | none =>
        rw [h.lookup_none hs] at hr
        refine bind_findDirent h8 (fun _ => by simpa [hr] using h) fun s hs' => ?_
        rw [hs] at hs'
        cases hs'
    | some s =>
        obtain ⟨f, hlook, -, -, hstores⟩ := h.lookup_some hs
        obtain ⟨-, hu⟩ := target_used hs
        have hok := h.inv.data.file s hu
        have hfile := file_eq h.inv hu
        rw [hlook] at hr
        dsimp only at hr
        rw [hstores.length] at hr
        by_cases hcap : cap < ((metaOf c).file s).size
        · rw [if_pos hcap] at hr
          rw [hfile] at hok hcap
          refine bind_findDirent h8 (fun hnone => ?_) fun s' hs' => ?_
          · rw [hs] at hnone
            cases hnone
          obtain rfl : s = s' := Option.some.inj (hs.symm.trans hs')
          refine bind_readInode h8 (h.inv.data.inoOk hu) (bind_failIf (fun hbad => ?_) fun _ => ?_)
          · exact absurd hok.mode hbad
          · exact bind_failIf (fun _ => by simpa [hr] using h) fun hnot => absurd hcap hnot
        · -- what is copied is known of the device
          rw [if_neg hcap] at hr
          intro dev hdev
          obtain rfl := hdev.blocks_eq
          have hsound : Sound D dev := ⟨h8, hbc, hdev, h.inv⟩
          have hdata := hsound.read_data (hcount.trans hdev.blockCount.symm) hs (not_lt.mp hcap)
          have hsame := does_readFile h8 h.inv mnt name cap past dev hdev
          rcases hx : read mnt name cap past dev with ⟨res, dev'⟩
          rw [hx] at hdata
          obtain rfl : res = .ok _ := hdata
          obtain ⟨c', hdev', rfl⟩ := hsame.ok hx
          refine Prog.ends_of_ok hx ⟨dev.blocks, hdev', ?_⟩
          simpa [hr, hstores.data] using h
  exact hdoes.bind fun _ _ hq => does_pure hq

end

end Mcsos.Mcsfs1
