import Mcsos.Mcsfs1.Unlink

set_option autoImplicit false

/-! # Writing (`fs/mcsfs1/mcsfs1.c`)

`mcsfs1_write` marks the blocks it needs one by one, then writes the data, and the inode last. Until
then the inode on the disk is the old one, so the blocks that have been marked are in nobody's inode.
-/

namespace Mcsos.Mcsfs1

variable {D : Disk} {c c' : Blocks} {s : Nat}

/-! ## More blocks -/

/-- The blocks after block `lba` has been marked for a file. -/
def markedBlock (c : Blocks) (lba : Nat) : Blocks :=
  put (put c inodeBmapLba (c inodeBmapLba)) blockBmapLba (Bitmap.set (c blockBmapLba) lba)

theorem markedBlock_ne {b : Nat} (hib : b ≠ inodeBmapLba) (hbb : b ≠ blockBmapLba) (c : Blocks)
    (lba : Nat) : markedBlock c lba b = c b := by
  rw [markedBlock, put_ne hbb, put_ne hib]

theorem metaOf_markedBlock (c : Blocks) {lba : Nat} (hlt : lba < blockSize * 8) :
    metaOf (markedBlock c lba) = { metaOf c with bb := Function.update (metaOf c).bb lba true } := by
  rw [markedBlock, metaOf_put_bb, metaOf_put_ib, bits_set hlt]
  rfl

/-- The inode bitmap is written as it was read. -/
theorem Good.markedBlock {t : Option Nat} (g : Good D.blockCount t c c') {lba : Nat}
    (hlt : lba < blockSize * 8) : Good D.blockCount t c (markedBlock c' lba) := by
  have hbb : put c' inodeBmapLba (c' inodeBmapLba) blockBmapLba = c' blockBmapLba :=
    put_ne (by decide) _
  have hgood := (g.putIb g.inv.data.root_bit g.inv.data.bit).markBlock hlt
  rwa [hbb] at hgood

/-- On the way from `c` to `c'`, blocks have been marked for the file in slot `s`: `x` is to be its
inode, and has all blocks that it had, and free ones besides. -/
structure Grown (D : Disk) (c : Blocks) (s : Nat) (c' : Blocks) (x : Inode) : Prop where
  good : Good D.blockCount (some s) c c'
  dir : c' rootDirLba = c rootDirLba
  ib : (metaOf c').ib = (metaOf c).ib
  inode : (metaOf c').inode = (metaOf c).inode
  mode : x.mode = modeFile
  keeps : ∀ j, ((metaOf c).file s).direct j ≠ 0 → x.direct j = ((metaOf c).file s).direct j
  new : ∀ j, x.direct j ≠ 0 → ((metaOf c).file s).direct j = 0 →
    FreeBlock D.blockCount c (x.direct j)
  bb : ∀ b, (metaOf c').bb b = true ↔ (metaOf c).bb b = true ∨
    ∃ j, x.direct j = b ∧ b ≠ 0 ∧ ((metaOf c).file s).direct j = 0
  distinct : ∀ j k, x.direct j ≠ 0 → x.direct j = x.direct k → j = k

namespace Grown

variable {x : Inode}

theorem entry (g : Grown D c s c' x) : (metaOf c').entry = (metaOf c).entry :=
  congrArg entriesOf g.dir

theorem used (g : Grown D c s c' x) {i : Nat} : (metaOf c').Used i ↔ (metaOf c).Used i := by
  unfold Meta.Used
  rw [g.entry]

theorem file (g : Grown D c s c' x) (i : Nat) : (metaOf c').file i = (metaOf c).file i := by
  unfold Meta.file
  rw [g.entry, g.inode]

theorem start (h : Inv D.blockCount c) (hs : (metaOf c).Used s) :
    Grown D c s c ((metaOf c).file s) where
  good := Good.refl h (some s)
  dir := rfl
  ib := rfl
  inode := rfl
  mode := (h.data.file s hs).mode
  keeps := fun _ _ => rfl
  new := fun _ hne hzero => absurd hzero hne
  bb := fun b => by
    refine ⟨Or.inl, fun hb => hb.elim id ?_⟩
    rintro ⟨j, hj, hne, hzero⟩
    exact absurd (hj.symm.trans hzero) hne
  distinct := (h.data.file s hs).distinct

/-- Every block of the new inode is a block of the old one, or was free. -/
theorem cases (g : Grown D c s c' x) {j : Nat} (hj : x.direct j ≠ 0) :
    x.direct j = ((metaOf c).file s).direct j ∧ ((metaOf c).file s).direct j ≠ 0 ∨
      FreeBlock D.blockCount c (x.direct j) := by
  by_cases hzero : ((metaOf c).file s).direct j = 0
  · exact Or.inr (g.new j hj hzero)
  · exact Or.inl ⟨g.keeps j hzero, hzero⟩

theorem direct_ge (g : Grown D c s c' x) (h : Inv D.blockCount c) (hs : (metaOf c).Used s) {j : Nat}
    (hj : x.direct j ≠ 0) : dataStartLba ≤ x.direct j := by
  rcases g.cases hj with ⟨he, hne⟩ | hfree
  · rw [he]
    exact (h.data.file s hs).direct_ge j hne
  · exact hfree.ge

theorem direct_lt (g : Grown D c s c' x) (h : Inv D.blockCount c) (hs : (metaOf c).Used s) {j : Nat}
    (hj : x.direct j ≠ 0) : x.direct j < D.blockCount := by
  rcases g.cases hj with ⟨he, hne⟩ | hfree
  · rw [he]
    exact (h.data.file s hs).direct_lt j hne
  · exact hfree.lt

theorem bit (g : Grown D c s c' x) (h : Inv D.blockCount c) (hs : (metaOf c).Used s) {j : Nat}
    (hj : x.direct j ≠ 0) : (metaOf c').bb (x.direct j) = true := by
  rw [g.bb]
  by_cases hzero : ((metaOf c).file s).direct j = 0
  · exact Or.inr ⟨j, rfl, hj, hzero⟩
  · rw [g.keeps j hzero]
    exact Or.inl ((h.data.file s hs).bit j hzero)

theorem apart (g : Grown D c s c' x) (h : Inv D.blockCount c) (hs : (metaOf c).Used s) {i : Nat}
    (hi : (metaOf c).Used i) (his : i ≠ s) : Apart x ((metaOf c).file i) := by
  intro j k hj
  rcases g.cases hj with ⟨he, hne⟩ | hfree
  · rw [he]
    exact h.data.blocks s i hs hi (Ne.symm his) j k hne
  · exact Ne.symm (hfree.not_used h hi k)

/-- A block that is free on the way was free before, and the new inode does not have it. -/
theorem free_before (g : Grown D c s c' x) {lba : Nat} (hlba : FreeBlock D.blockCount c' lba) :
    FreeBlock D.blockCount c lba := by
  refine ⟨hlba.ge, hlba.lt, ?_⟩
  by_contra hbit
  have hbit' := (g.bb lba).mpr (Or.inl (Bool.eq_true_of_not_eq_false hbit))
  rw [hlba.bit] at hbit'
  cases hbit'

theorem not_listed (g : Grown D c s c' x) (h : Inv D.blockCount c) (hs : (metaOf c).Used s)
    {lba : Nat} (hlba : FreeBlock D.blockCount c' lba) (j : Nat) : x.direct j ≠ lba := fun he => by
  have hbit := g.bit h hs (show x.direct j ≠ 0 by rw [he]; exact hlba.ne_zero)
  rw [he, hlba.bit] at hbit
  cases hbit

theorem old_zero (g : Grown D c s c' x) {i : Nat} (hzero : x.direct i = 0) :
    ((metaOf c).file s).direct i = 0 := by
  by_contra hne
  exact hne ((g.keeps i hne).symm.trans hzero)

/-- One more block is marked for `direct[i]`. -/
theorem add (g : Grown D c s c' x) (h : Inv D.blockCount c) (hs : (metaOf c).Used s) {i lba : Nat}
    (hzero : x.direct i = 0) (hlba : FreeBlock D.blockCount c' lba) (hlt : lba < blockSize * 8) :
    Grown D c s (markedBlock c' lba) { x with direct := Function.update x.direct i lba } := by
  have hold := g.old_zero hzero
  have hnot := g.not_listed h hs hlba
  have hother : ∀ j, j ≠ i → Function.update x.direct i lba j = x.direct j :=
    fun j hj => Function.update_of_ne hj ..
  have hm := metaOf_markedBlock c' hlt
  constructor
  case good => exact g.good.markedBlock hlt
  case dir => rw [markedBlock_ne (by decide) (by decide), g.dir]
  case ib =>
    rw [hm]
    exact g.ib
  case inode =>
    rw [hm]
    exact g.inode
  case mode => exact g.mode
  case keeps =>
    intro j hj
    dsimp only
    rw [hother j fun hji => hj (hji ▸ hold)]
    exact g.keeps j hj
  case new =>
    intro j hj hj0
    dsimp only at hj ⊢
    by_cases hji : j = i
    · rw [hji, Function.update_self]
      exact g.free_before hlba
    · rw [hother j hji] at hj ⊢
      exact g.new j hj hj0
  case bb =>
    intro b
    rw [hm]
    dsimp only
    by_cases hb : b = lba
    · subst hb
      rw [Function.update_self]
      exact iff_of_true rfl (Or.inr ⟨i, Function.update_self .., hlba.ne_zero, hold⟩)
    · rw [Function.update_of_ne hb, g.bb b]
      refine or_congr_right ⟨?_, ?_⟩
      · rintro ⟨j, hj, hne, hj0⟩
        exact ⟨j, (hother j fun hji => hne (by rw [← hj, hji, hzero])).trans hj, hne, hj0⟩
      · rintro ⟨j, hj, hne, hj0⟩
        by_cases hji : j = i
        · rw [hji, Function.update_self] at hj
          exact absurd hj.symm hb
        · exact ⟨j, (hother j hji).symm.trans hj, hne, hj0⟩
  case distinct =>
    intro j k hj he
    dsimp only at hj he
    by_cases hji : j = i
    · by_cases hki : k = i
      · exact hji.trans hki.symm
      · rw [hji, Function.update_self, hother k hki] at he
        exact absurd he.symm (hnot k)
    · rw [hother j hji] at hj he
      by_cases hki : k = i
      · rw [hki, Function.update_self] at he
        exact absurd he (hnot j)
      · rw [hother k hki] at he
        exact g.distinct j k hj he

end Grown

/-- The first loop: what had a block keeps it, and what the loop has passed has one. `G` is what
holds of the blocks and the inode so far. -/
theorem does_allocBlocks_of {G : Blocks → Bytes → Prop} {E : Mcsfs1Err → Blocks → Prop}
    (h8 : 8 < D.blockCount) (hbc : D.blockCount ≤ 4096)
    {N : Nat} (hN : N ≤ directBlocks)
    (hadd : ∀ c' inode i lba, G c' inode → i < N → (inodeView inode).direct i = 0 →
      FreeBlock D.blockCount c' lba → G (markedBlock c' lba) (inode.store (8 + 4 * i) 4 lba))
    (hnospc : ∀ c' inode i, G c' inode → i < N → (inodeView inode).direct i = 0 →
      (∀ lba, ¬FreeBlock D.blockCount c' lba) → E .nospc c')
    (hio : D.Faulty → ∀ c' inode, G c' inode → E .io c' ∧
      E .io (put c' inodeBmapLba (c' inodeBmapLba)))
    (n i : Nat) (hin : i + n ≤ N) (inode : Bytes) (g : G c' inode) :
    Does D (allocBlocks inode i n) c'
      (fun inode' c'' => G c'' inode' ∧
        (∀ j, (inodeView inode).direct j ≠ 0 → (inodeView inode').direct j ≠ 0) ∧
        ∀ j, i ≤ j → j < i + n → (inodeView inode').direct j ≠ 0) E := by
  -- `g` is about the inode so far, so it is carried along as the loop goes on
  induction n generalizing i inode c' with
  | zero => exact does_pure ⟨g, fun _ hj => hj, fun j h1 h2 => absurd h2 (by omega)⟩
  | succ n ih =>
      have hi : i < directBlocks := by omega
      have hview : (inodeView inode).direct i = iDirect inode i := if_pos hi
      rw [allocBlocks]
      by_cases hzero : iDirect inode i = 0
      · rw [if_pos hzero]
        have halloc : Does D allocDataBlock c'
            (fun lba c'' => FreeBlock D.blockCount c' lba ∧ markedBlock c' lba = c'') E := by
          refine bind_read (show 1 < _ by omega) (bind_read (show 2 < _ by omega) ?_)
          refine bind_blockCount (bind_ofOption (fun hnone => noBlock_eq hbc ▸ hnospc c' inode i g
            (by omega) (hview.trans hzero) (findFreeBlock_none hbc hnone)) fun lba hlba => ?_)
          refine bind_storeBmaps h8 (fun hf => (hio hf c' inode g).1)
            (fun hf => (hio hf c' inode g).2) ?_
          exact does_pure ⟨findFreeBlock_some hlba, rfl⟩
        apply halloc.bind
        intro lba c'' hlba
        obtain ⟨hfree, rfl⟩ := hlba
        have hlt : lba < 256 ^ 4 := lt_trans (lt_of_lt_of_le hfree.lt hbc) (by decide)
        have hstore := @inodeView_store_direct inode i lba hi hlt
        have hg := hadd c' inode i lba g (by omega) (hview.trans hzero) hfree
        refine (ih (i + 1) (by omega) _ hg).mono (fun inode' c'' hq => ?_) fun _ _ he => he
        obtain ⟨hg, hkeep, hall⟩ := hq
        have hnew : ∀ j, (inodeView inode).direct j ≠ 0 ∨ j = i →
            (inodeView inode').direct j ≠ 0 := fun j hj => by
          refine hkeep j ?_
          rw [hstore]
          dsimp only
          by_cases hji : j = i
          · rw [hji, Function.update_self]
            exact hfree.ne_zero
          · rw [Function.update_of_ne hji]
            exact hj.resolve_right hji
        refine ⟨hg, fun j hj => hnew j (Or.inl hj), fun j h1 h2 => ?_⟩
        by_cases hji : j = i
        · exact hnew j (Or.inr hji)
        · exact hall j (by omega) (by omega)
      · rw [if_neg hzero]
        refine (ih (i + 1) (by omega) inode g).mono (fun inode' c'' hq => ?_) fun _ _ he => he
        obtain ⟨hg, hkeep, hall⟩ := hq
        refine ⟨hg, hkeep, fun j h1 h2 => ?_⟩
        by_cases hji : j = i
        · refine hkeep j ?_
          rw [hji, hview]
          exact hzero
        · exact hall j (by omega) (by omega)

/-- What the first loop has done so far: blocks have been marked for `direct` before entry `n`, and
nothing else has changed. -/
structure Reserved (D : Disk) (c : Blocks) (s n : Nat) (c' : Blocks) (x : Inode) : Prop
    extends Grown D c s c' x where
  tail : ∀ j, n ≤ j → x.direct j = ((metaOf c).file s).direct j
  blocks : ∀ b, b ≠ blockBmapLba → Bytes.AgreeOn (c' b) (c b) 0 blockSize

theorem Reserved.add {x : Inode} {n i lba : Nat} (g : Reserved D c s n c' x)
    (hbc : D.blockCount ≤ 4096) (h : Inv D.blockCount c) (hs : (metaOf c).Used s) (hi : i < n)
    (hzero : x.direct i = 0) (hlba : FreeBlock D.blockCount c' lba) :
    Reserved D c s n (markedBlock c' lba)
      { x with direct := Function.update x.direct i lba } := by
  refine ⟨g.toGrown.add h hs hzero hlba (lt_of_lt_of_le hlba.lt hbc), fun j hj => ?_,
    fun b hb => ?_⟩
  · dsimp only
    rw [Function.update_of_ne (show j ≠ i by omega)]
    exact g.tail j hj
  · rw [markedBlock, put_ne hb]
    by_cases hib : b = inodeBmapLba
    · rw [hib, put_same]
      exact (Bytes.clip_agreeOn blockSize _).trans (g.blocks inodeBmapLba (by decide))
    · rw [put_ne hib]
      exact g.blocks b hb

/-! ## The data -/

/-- The second loop only writes blocks of the new inode. -/
theorem does_writeBlocks (h : Inv D.blockCount c) (hs : (metaOf c).Used s) {inode : Bytes}
    (g : Grown D c s c' (inodeView inode)) (buf : Bytes) (len n i written : Nat)
    (hin : i + n ≤ directBlocks)
    (hall : ∀ j, i ≤ j → j < i + n → (inodeView inode).direct j ≠ 0)
    {E : Mcsfs1Err → Blocks → Prop}
    (hio : D.Faulty → ∀ c'', Grown D c s c'' (inodeView inode) → E .io c'') :
    Does D (writeBlocks inode buf len i written n) c'
      (fun _ c'' => Grown D c s c'' (inodeView inode)) E := by
  induction n generalizing i written c' with
  | zero => exact does_pure g
  | succ n ih =>
      have hi : i < directBlocks := by omega
      have hview : (inodeView inode).direct i = iDirect inode i := if_pos hi
      have hne := hall i (le_refl i) (by omega)
      have hge := g.direct_ge h hs hne
      have hlt := g.direct_lt h hs hne
      rw [hview] at hge hlt
      rw [writeBlocks]
      have hrest : ∀ j, i + 1 ≤ j → j < i + 1 + n → (inodeView inode).direct j ≠ 0 :=
        fun j h1 h2 => hall j (by omega) (by omega)
      refine bind_write hlt (fun hf => hio hf c' g) ?_
      refine ih ?_ (i + 1) _ (by omega) hrest
      have hm := metaOf_put_data hge c'
        (Bytes.zero.copy 0 buf written (if blockSize < len - written then blockSize
          else len - written))
      refine ⟨g.good.putData hge (fun j hj hjs k => ?_) _, ?_, ?_, ?_, g.mode, g.keeps, g.new, ?_,
        g.distinct⟩
      · -- no other file has the block
        rw [g.file, ← hview]
        exact Ne.symm (g.apart h hs (g.used.mp hj) (fun he => hjs (congrArg some he.symm)) i k hne)
      · rw [put_ne (fun he => absurd (he ▸ hge) (by decide)), g.dir]
      · rw [hm, g.ib]
      · rw [hm]
        exact g.inode
      · rw [hm]
        exact g.bb

/-- What the second loop writes: block `j` of the new inode gets bytes `512 * j` and so on of the
buffer, as far as `len` goes, and the other blocks are left alone. -/
theorem does_writeBlocks_data {inode buf : Bytes} {len n i : Nat}
    (hlt : ∀ j, i ≤ j → j < i + n → iDirect inode j < D.blockCount)
    (hdistinct : ∀ j k, i ≤ j → j < k → k < i + n → iDirect inode j ≠ iDirect inode k) :
    Does D (writeBlocks inode buf len i (min len (blockSize * i)) n) c'
      (fun _ c'' => (∀ j k, i ≤ j → j < i + n → k < blockSize → blockSize * j + k < len →
          c'' (iDirect inode j) k = buf (blockSize * j + k)) ∧
        ∀ b, (∀ j, i ≤ j → j < i + n → iDirect inode j ≠ b) → c'' b = c' b)
      (fun _ _ => True) := by
  induction n generalizing i c' with
  | zero => exact does_pure ⟨fun j k h1 h2 => absurd h2 (by omega), fun _ _ => rfl⟩
  | succ n ih =>
      have hsize : blockSize = 512 := rfl
      rw [writeBlocks]
      refine bind_write (hlt i (Nat.le_refl i) (by omega)) (fun _ => trivial) ?_
      have hnext : min len (blockSize * i) + (if blockSize < len - min len (blockSize * i) then
          blockSize else len - min len (blockSize * i)) = min len (blockSize * (i + 1)) := by
        rw [hsize]
        split <;> omega
      rw [hnext]
      refine (ih (fun j h1 h2 => hlt j (by omega) (by omega)) fun j k h1 h2 h3 =>
        hdistinct j k (by omega) h2 (by omega)).mono (fun _ c'' hq => ?_) fun _ _ _ => trivial
      obtain ⟨hdata, hrest⟩ := hq
      refine ⟨fun j k h1 h2 hk hlen => ?_, fun b hb => ?_⟩
      · rcases Nat.eq_or_lt_of_le h1 with rfl | h1
        · -- this block is not written again
          rw [hrest _ fun j h1 h2 => (hdistinct i j (Nat.le_refl i) (by omega) (by omega)).symm,
            put_same, Bytes.clip_agreeOn blockSize _ k (Nat.zero_le k) hk]
          rw [hsize] at hk hlen ⊢
          rw [Bytes.copy_apply_of_mem (Nat.zero_le k) (by split <;> omega)]
          congr 1
          omega
        · exact hdata j k h1 (by omega) hk hlen
      · rw [hrest b fun j h1 h2 => hb j (by omega) (by omega)]
        exact put_ne (hb i (Nat.le_refl i) (by omega)).symm _

/-- The second loop on the blocks that the first one has marked. -/
theorem Grown.does_writeData {inode : Bytes} (g : Grown D c s c' (inodeView inode))
    (h : Inv D.blockCount c) (hs : (metaOf c).Used s) (buf : Bytes) {len n : Nat}
    (hn : n ≤ directBlocks) (hall : ∀ j, j < n → (inodeView inode).direct j ≠ 0) {E : Mcsfs1Err → Blocks → Prop}
    (hio : D.Faulty → ∀ c'', Grown D c s c'' (inodeView inode) → E .io c'') :
    Does D (writeBlocks inode buf len 0 0 n) c'
      (fun _ c'' => Grown D c s c'' (inodeView inode) ∧
        ∀ j k, j < n → k < blockSize → blockSize * j + k < len →
          c'' ((inodeView inode).direct j) k = buf (blockSize * j + k)) E := by
  have hview : ∀ j, j < n → iDirect inode j = (inodeView inode).direct j := fun j hj =>
    (if_pos (lt_of_lt_of_le hj hn)).symm
  have hin : 0 + n ≤ directBlocks := le_of_eq_of_le (Nat.zero_add n) hn
  have hdata : Does D (writeBlocks inode buf len 0 (min len (blockSize * 0)) n) c' _ _ :=
    does_writeBlocks_data (fun j _ hj => by
      rw [hview j (by omega)]
      exact g.direct_lt h hs (hall j (by omega))) fun j k _ hjk hk he => by
      rw [hview j (by omega), hview k (by omega)] at he
      exact absurd (g.distinct j k (hall j (by omega)) he) (by omega)
  rw [Nat.mul_zero, Nat.min_zero] at hdata
  refine ((does_writeBlocks h hs g buf len n 0 0 hin (fun j _ hj => hall j (by omega)) hio).and
    hdata).mono (fun _ c'' hq => ?_) fun _ _ he => he.1
  obtain ⟨g', hdata, -⟩ := hq
  refine ⟨g', fun j k hj hk hlt => ?_⟩
  rw [← hview j hj]
  exact hdata j k (Nat.zero_le j) (by omega) hk hlt

/-! ## `mcsfs1_write` -/

/-- What `mcsfs1_write` has done: the file in slot `s` has the inode `x`. -/
structure Written (D : Disk) (c : Blocks) (s len : Nat) (x : Inode) (c' : Blocks) : Prop where
  good : Good D.blockCount (some s) c c'
  dir : c' rootDirLba = c rootDirLba
  ib : (metaOf c').ib = (metaOf c).ib
  inode : (metaOf c').inode = Function.update (metaOf c).inode ((metaOf c).entry s).ino x
  size : x.size = len
  keeps : ∀ j, ((metaOf c).file s).direct j ≠ 0 → x.direct j = ((metaOf c).file s).direct j
  bb : ∀ b, (metaOf c').bb b = true ↔ (metaOf c).bb b = true ∨
    ∃ j, x.direct j = b ∧ b ≠ 0 ∧ ((metaOf c).file s).direct j = 0

/-- And with what: the blocks that were missing were free ones, and the data is that of the
buffer. -/
structure Wrote (D : Disk) (c : Blocks) (s len : Nat) (buf : Bytes) (x : Inode) (c' : Blocks) : Prop
    extends Written D c s len x c' where
  fits : len ≤ directBlocks * blockSize
  full : ∀ j, j < needed len → x.direct j ≠ 0
  new : ∀ j, x.direct j ≠ 0 → ((metaOf c).file s).direct j = 0 →
    FreeBlock D.blockCount c (x.direct j)
  distinct : ∀ j k, x.direct j ≠ 0 → x.direct j = x.direct k → j = k
  data : ∀ j k, j < needed len → k < blockSize → blockSize * j + k < len →
    c' (x.direct j) k = buf (blockSize * j + k)

/-- And no more than that: behind the blocks that the size takes, the inode is as it was. -/
structure WroteOnly (D : Disk) (c : Blocks) (s len : Nat) (buf : Bytes) (x : Inode) (c' : Blocks) :
    Prop extends Wrote D c s len buf x c' where
  tail : ∀ j, needed len ≤ j → x.direct j = ((metaOf c).file s).direct j

theorem needed_le {len : Nat} (h : len ≤ directBlocks * blockSize) : needed len ≤ directBlocks := by
  have h' : len ≤ 4096 := h
  have hblocks : blocksNeeded len ≤ 8 := by
    show (len + 512 - 1) % 2 ^ 32 / 512 ≤ 8
    omega
  unfold needed
  split_ifs
  · decide
  · exact hblocks

/-- The inode that is written last. -/
theorem Grown.written {inode : Bytes} (g : Grown D c s c' (inodeView inode)) (h : Inv D.blockCount c)
    (hs : (metaOf c).Used s) {len : Nat} (hlen : len ≤ directBlocks * blockSize)
    (hall : ∀ j, j < needed len → (inodeView inode).direct j ≠ 0) :
    Written D c s len { inodeView inode with size := len }
      (putInode c' ((metaOf c).entry s).ino (inode.store 4 4 len)) := by
  have hlen4 : len < 256 ^ 4 := lt_of_le_of_lt hlen (by decide)
  have hstore := @inodeView_store_size inode len hlen4
  have hino := h.data.inoOk hs
  have hm := metaOf_putInode hino c' (inode.store 4 4 len)
  rw [hstore] at hm
  have hx : InodeOk D.blockCount (metaOf c').bb { inodeView inode with size := len } :=
    ⟨g.mode, hlen, hall, fun j hj => g.direct_ge h hs hj, fun j hj => g.direct_lt h hs hj,
      fun j hj => g.bit h hs hj, g.distinct⟩
  have hgood := g.good.putInodeFile (g.used.mpr hs)
    (by rw [hstore]; exact hx) (fun i hi his => by
      rw [hstore, g.file]
      exact g.apart h hs (g.used.mp hi) his)
  rw [g.entry] at hgood
  refine ⟨hgood, ?_, ?_, ?_, rfl, g.keeps, ?_⟩
  · rw [putInode_dir hino, g.dir]
  · rw [hm]
    exact g.ib
  · rw [hm, g.inode]
  · rw [hm]
    exact g.bb

/-- The writes of `mcsfs1_write`. What it checks it checks before the first of them; then it may
still run out of blocks. -/
theorem does_writeFile_of {E : Mcsfs1Err → Blocks → Prop} (h8 : 8 < D.blockCount)
    (hbc : D.blockCount ≤ 4096) (h : Inv D.blockCount c) (name buf : Bytes) (len : Nat)
    (past : UInt8)
    (hcheck : ∀ e, e ≠ .io → (∀ s, target c name past = some s → directBlocks * blockSize < len) →
      E e c)
    (hnospc : ∀ s c' x i, target c name past = some s → len ≤ directBlocks * blockSize →
      Reserved D c s (needed len) c' x → i < needed len → x.direct i = 0 →
      (∀ lba, ¬FreeBlock D.blockCount c' lba) → E .nospc c')
    (hio : D.Faulty → ∀ s c', target c name past = some s → Good D.blockCount (some s) c c' →
      c' rootDirLba = c rootDirLba → E .io c') :
    Does D (write name buf len past) c
      (fun _ c' => ∃ s x, target c name past = some s ∧ WroteOnly D c s len buf x c') E := by
  apply bind_failIf (fun hlen => hcheck _ (by decide) fun _ _ => hlen)
  intro hlen
  have hlen' : len ≤ directBlocks * blockSize := not_lt.mp hlen
  refine bind_findDirent h8 (fun hnone => hcheck _ (findError_ne_io name) fun s hs => ?_)
    fun s hs => ?_
  · rw [hnone] at hs
    cases hs
  obtain ⟨-, hu⟩ := target_used hs
  have hino := h.data.inoOk hu
  have hfile := file_eq h hu
  have hmode : iMode (inodeOf c ((metaOf c).entry s).ino) = modeFile := by
    have hm := (h.data.file s hu).mode
    rwa [hfile] at hm
  refine bind_readInode h8 hino ?_
  apply bind_failIf (fun hbad => absurd hmode hbad)
  intro _
  have hneed := needed_le hlen'
  have g : Reserved D c s (needed len) c (inodeView (inodeOf c ((metaOf c).entry s).ino)) := by
    rw [← hfile]
    exact ⟨Grown.start h hu, fun _ _ => rfl, fun b _ => Bytes.AgreeOn.refl _ _ _⟩
  have hin : 0 + needed len ≤ needed len := le_of_eq (Nat.zero_add _)
  refine (does_allocBlocks_of
    (G := fun c' inode => Reserved D c s (needed len) c' (inodeView inode)) h8 hbc hneed
    (fun c' inode i lba g hi hzero hfree => ?_)
    (fun c' inode i g hi hzero hfree => hnospc s c' _ i hs hlen' g hi hzero hfree)
    (fun hf c' inode g => ?_) (needed len) 0 hin _ g).bind fun inode c₁ hq => ?_
  · have hlt : lba < 256 ^ 4 := lt_trans (lt_of_lt_of_le hfree.lt hbc) (by decide)
    have g' := g.add hbc h hu hi hzero hfree
    rwa [← inodeView_store_direct (lt_of_lt_of_le hi hneed) hlt] at g'
  · -- between the two bitmap blocks only the first has been written, as it was
    have hdir : put c' inodeBmapLba (c' inodeBmapLba) rootDirLba = c rootDirLba := by
      rw [put_ne (by decide), g.dir]
    exact ⟨hio hf s c' hs g.good g.dir, hio hf s _ hs
      (g.good.putIb g.good.inv.data.root_bit g.good.inv.data.bit) hdir⟩
  obtain ⟨g₁, -, hall⟩ := hq
  have hall' : ∀ j, j < needed len → (inodeView inode).direct j ≠ 0 := fun j hj =>
    hall j (Nat.zero_le j) (by omega)
  refine (g₁.toGrown.does_writeData h hu buf hneed hall' fun hf c' g =>
    hio hf s c' hs g.good g.dir).bind fun _ c₂ hq => ?_
  obtain ⟨g₂, hdata⟩ := hq
  -- the file changes with this last write, and not before
  have w := g₂.written h hu hlen' hall'
  refine bind_writeInode h8 hino (fun hf => hio hf s c₂ hs g₂.good g₂.dir) ?_
  refine does_flush ⟨s, { inodeView inode with size := len }, hs, ⟨w, hlen', hall', g₂.new,
    g₂.distinct, fun j k hj hk hlt => ?_⟩, g₁.tail⟩ fun hf => hio hf s _ hs w.good w.dir
  show putInode c₂ _ _ ((inodeView inode).direct j) k = _
  rw [Good.putInode_data hino (g₂.direct_ge h hu (hall' j hj))]
  exact hdata j k hj hk hlt

theorem does_writeFile_cuts {E : Mcsfs1Err → Blocks → Prop} (h8 : 8 < D.blockCount)
    (hbc : D.blockCount ≤ 4096) (h : Inv D.blockCount c) (name buf : Bytes) (len : Nat)
    (past : UInt8)
    (hcheck : ∀ e, e ≠ .io → (∀ s, target c name past = some s → directBlocks * blockSize < len) →
      E e c)
    (hnospc : ∀ s c' x i, target c name past = some s → len ≤ directBlocks * blockSize →
      Reserved D c s (needed len) c' x → i < needed len → x.direct i = 0 →
      (∀ lba, ¬FreeBlock D.blockCount c' lba) → E .nospc c')
    (hio : D.Faulty → ∀ s c', target c name past = some s → Good D.blockCount (some s) c c' →
      c' rootDirLba = c rootDirLba → E .io c') :
    Does D (write name buf len past) c
      (fun _ c' => ∃ s x, target c name past = some s ∧ Wrote D c s len buf x c') E :=
  (does_writeFile_of h8 hbc h name buf len past hcheck hnospc hio).mono
    (fun _ _ ⟨s, x, hs, w⟩ => ⟨s, x, hs, w.toWrote⟩) fun _ _ he => he

theorem does_writeFile (h8 : 8 < D.blockCount) (hbc : D.blockCount ≤ 4096)
    (h : Inv D.blockCount c) (name buf : Bytes) (len : Nat) (past : UInt8) :
    Does D (write name buf len past) c
      (fun _ c' => ∃ s x, target c name past = some s ∧ Written D c s len x c')
      (Cut D True (target c name past) c) := by
  refine (does_writeFile_cuts h8 hbc h name buf len past (fun e he _ => Cut.unchanged h he)
    (fun s c' x i hs _ g _ _ _ => ?_) fun hf s c' hs g hdir => ?_).mono (fun _ c' hq => ?_)
    fun _ _ he => he
  · rw [hs]
    exact ⟨g.good, nofun, fun _ hne => absurd ⟨trivial, rfl⟩ hne, fun _ => g.dir⟩
  · rw [hs]
    exact Cut.io g (fun _ => hdir) hf
  · obtain ⟨s, x, hs, w⟩ := hq
    exact ⟨s, x, hs, w.toWritten⟩

end Mcsos.Mcsfs1
