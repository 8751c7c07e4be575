import Mcsos.Mcsfs1.Create

set_option autoImplicit false

/-! # Unlinking (`fs/mcsfs1/mcsfs1.c`)

`mcsfs1_unlink` clears the directory entry first, then the bits, then the inode. Cut off after the
first write, it leaves a marked inode and marked blocks that nobody has.
-/

namespace Mcsos.Mcsfs1

variable {D : Disk} {c : Blocks}

theorem file_eq {blockCount : Nat} (h : Inv blockCount c) {s : Nat} (hs : (metaOf c).Used s) :
    (metaOf c).file s = inodeView (inodeOf c ((metaOf c).entry s).ino) :=
  if_pos (h.data.inoOk hs)

/-! ## Clearing the blocks of an inode -/

/-- `b` is a block of the device that the inode lists. -/
def Lists (x : Inode) (blockCount b : Nat) : Prop := ∃ j, x.direct j = b ∧ b ≠ 0 ∧ b < blockCount

theorem bits_clearDirect (blockCount : Nat) (inode bb : Bytes) (b : Nat) :
    bits (clearDirect blockCount inode bb) b = true ↔
      bits bb b = true ∧ ¬Lists (inodeView inode) blockCount b := by
  -- after `k` steps the bits of the first `k` blocks are clear
  have hloop : ∀ b, bits (clearDirect blockCount inode bb) b = true ↔
      bits bb b = true ∧ ∀ j, j < directBlocks →
        ¬(iDirect inode j = b ∧ b ≠ 0 ∧ b < blockCount) := by
    unfold clearDirect
    refine Loop.forStep_induct (fun k bb' => ∀ b, bits bb' b = true ↔ bits bb b = true ∧
      ∀ j, j < k → ¬(iDirect inode j = b ∧ b ≠ 0 ∧ b < blockCount)) ?_ ?_
    · exact fun b => ⟨fun h => ⟨h, fun j hj => absurd hj (Nat.not_lt_zero j)⟩, fun h => h.1⟩
    · intro k bb' hk ih b
      rw [Nat.zero_add, Nat.one_mul]
      by_cases hclear : iDirect inode k ≠ 0 ∧ iDirect inode k < blockCount
      · rw [if_pos hclear, bits_clear]
        by_cases hb : b = iDirect inode k
        · rw [hb, Function.update_self]
          exact ⟨nofun, fun h => absurd ⟨rfl, hclear.1, hclear.2⟩ (h.2 k (Nat.lt_succ_self k))⟩
        · rw [Function.update_of_ne hb, ih b]
          refine and_congr_right fun _ => ⟨fun h j hj => ?_, fun h j hj => h j (by omega)⟩
          rcases Nat.lt_succ_iff_lt_or_eq.mp hj with hj | rfl
          · exact h j hj
          · exact fun he => hb he.1.symm
      · rw [if_neg hclear, ih b]
        refine and_congr_right fun _ => ⟨fun h j hj => ?_, fun h j hj => h j (by omega)⟩
        rcases Nat.lt_succ_iff_lt_or_eq.mp hj with hj | rfl
        · exact h j hj
        · rintro ⟨rfl, hne, hlt⟩
          exact hclear ⟨hne, hlt⟩
  rw [hloop b]
  refine and_congr_right fun _ => ⟨?_, fun h j hj he => h ⟨j, ?_, he.2⟩⟩
  · rintro h ⟨j, hj, hne, hlt⟩
    have hj' : (if j < directBlocks then iDirect inode j else 0) = b := hj
    by_cases hlt8 : j < directBlocks
    · rw [if_pos hlt8] at hj'
      exact h j hlt8 ⟨hj', hne, hlt⟩
    · rw [if_neg hlt8] at hj'
      exact hne hj'.symm
  · show (if j < directBlocks then iDirect inode j else 0) = b
    rw [if_pos hj, he.1]

/-! ## The writes -/

/-- The blocks after the entry in slot `s` has been cleared. -/
def cleared (c : Blocks) (s : Nat) : Blocks :=
  put c rootDirLba ((c rootDirLba).fill (s * direntSize) direntSize 0)

/-- The blocks after its inode has been unmarked too. -/
def unmarked (c : Blocks) (s : Nat) : Blocks :=
  put (cleared c s) inodeBmapLba (Bitmap.clear (c inodeBmapLba) ((metaOf c).entry s).ino)

/-- The blocks after its blocks have been unmarked too. -/
def freed (blockCount : Nat) (c : Blocks) (s : Nat) : Blocks :=
  put (unmarked c s) blockBmapLba
    (clearDirect blockCount (inodeOf c ((metaOf c).entry s).ino) (c blockBmapLba))

/-- The blocks after all writes of `mcsfs1_unlink`. -/
def unlinked (blockCount : Nat) (c : Blocks) (s : Nat) : Blocks :=
  putInode (freed blockCount c s) ((metaOf c).entry s).ino Bytes.zero

section

variable {s : Nat}

theorem metaOf_cleared (hs : s < direntCount) (c : Blocks) : metaOf (cleared c s) =
    { metaOf c with entry := Function.update (metaOf c).entry s ⟨0, 0⟩ } := by
  unfold cleared
  rw [metaOf_put_dir, entriesOf_fill _ hs]
  rfl

theorem metaOf_unmarked (hs : s < direntCount) (c : Blocks) : metaOf (unmarked c s) =
    { metaOf c with
      ib := Function.update (metaOf c).ib ((metaOf c).entry s).ino false
      entry := Function.update (metaOf c).entry s ⟨0, 0⟩ } := by
  unfold unmarked
  rw [metaOf_put_ib, bits_clear, metaOf_cleared hs]
  rfl

theorem metaOf_freed (hs : s < direntCount) (blockCount : Nat) (c : Blocks) :
    metaOf (freed blockCount c s) =
      { metaOf c with
        ib := Function.update (metaOf c).ib ((metaOf c).entry s).ino false
        bb := bits (clearDirect blockCount (inodeOf c ((metaOf c).entry s).ino) (c blockBmapLba))
        entry := Function.update (metaOf c).entry s ⟨0, 0⟩ } := by
  unfold freed
  rw [metaOf_put_bb, metaOf_unmarked hs]

theorem used_of_update {m : Meta} {i : Nat}
    (hi : ({ m with entry := Function.update m.entry s ⟨0, 0⟩ } : Meta).Used i) :
    i ≠ s ∧ m.Used i ∧ Function.update m.entry s ⟨0, 0⟩ i = m.entry i := by
  have hclear := MetaInv.used_clear hi
  refine ⟨hclear.1, ?_, hclear.2⟩
  unfold Meta.Used at hi ⊢
  dsimp only at hi
  rwa [hclear.2] at hi

theorem good_cleared (h : Inv D.blockCount c) (hs : s < direntCount) :
    Good D.blockCount (some s) c (cleared c s) := (Good.refl h (some s)).clearEntry hs

theorem good_unmarked (h : Inv D.blockCount c) (hs : s < direntCount) (hu : (metaOf c).Used s) :
    Good D.blockCount (some s) c (unmarked c s) := by
  have hroot : rootIno ≠ ((metaOf c).entry s).ino := fun he =>
    absurd (he ▸ h.data.ino_ge s hu) (by decide)
  refine (good_cleared h hs).putIb ?_ fun i hi => ?_
  · rw [bits_clear, Function.update_of_ne hroot]
    exact h.data.root_bit
  · rw [metaOf_cleared hs] at hi ⊢
    obtain ⟨his, hi, he⟩ := used_of_update hi
    dsimp only
    rw [he, bits_clear, Function.update_of_ne fun hino => his (h.data.inos i s hi hu hino)]
    exact h.data.bit i hi

theorem good_freed (h : Inv D.blockCount c) (hs : s < direntCount) (hu : (metaOf c).Used s) :
    Good D.blockCount (some s) c (freed D.blockCount c s) := by
  have hview : inodeView (inodeOf c ((metaOf c).entry s).ino) = (metaOf c).file s :=
    (file_eq h hu).symm
  refine (good_unmarked h hs hu).putBb (fun b hb => ?_) fun i hi j hj => ?_
  · rw [bits_clearDirect, hview]
    refine ⟨h.data.system b hb, ?_⟩
    rintro ⟨j, rfl, hne, -⟩
    exact absurd ((h.data.file s hu).direct_ge j hne) (not_le.mpr hb)
  · rw [metaOf_unmarked hs] at hi hj ⊢
    obtain ⟨his, hi, he⟩ := used_of_update (m := { metaOf c with
      ib := Function.update (metaOf c).ib ((metaOf c).entry s).ino false }) hi
    dsimp only [Meta.file] at hj ⊢
    dsimp only at he
    rw [he] at hj ⊢
    rw [bits_clearDirect, hview]
    refine ⟨(h.data.file i hi).bit j hj, ?_⟩
    rintro ⟨k, hk, -, -⟩
    exact h.data.blocks i s hi hu his j k hj hk.symm

theorem good_unlinked (h : Inv D.blockCount c) (hs : s < direntCount) (hu : (metaOf c).Used s) :
    Good D.blockCount (some s) c (unlinked D.blockCount c s) := by
  have hroot : ((metaOf c).entry s).ino ≠ rootIno := fun he =>
    absurd (he ▸ h.data.ino_ge s hu) (by decide)
  refine (good_freed h hs hu).putInodeFree (h.data.inoOk hu) hroot (fun i hi => ?_) _
  rw [metaOf_freed hs] at hi ⊢
  obtain ⟨his, hi, he⟩ := used_of_update (m := { metaOf c with
    ib := Function.update (metaOf c).ib ((metaOf c).entry s).ino false
    bb := bits (clearDirect D.blockCount (inodeOf c ((metaOf c).entry s).ino)
      (c blockBmapLba)) }) hi
  dsimp only at he ⊢
  rw [he]
  exact fun hino => his (h.data.inos i s hi hu hino)

end

/-- On a device that a format takes, every block has its bit. -/
theorem behindBmap_none {blockCount : Nat} (hbc : blockCount ≤ 4096) (inode : Bytes) :
    ¬(Loop.findFrom (fun j => behindBmap blockCount (iDirect inode j))
      0 directBlocks).isSome = true := by
  refine Option.not_isSome_iff_eq_none.mpr (Loop.findFrom_none_iff.mpr fun j _ _ => ?_)
  have hbits : bitmapBits = 4096 := rfl
  unfold behindBmap
  rw [Bool.and_eq_false_iff, decide_eq_false_iff_not, decide_eq_false_iff_not]
  omega

/-- The writes of `mcsfs1_unlink`, on any image where a name that is found leads to a file. -/
theorem does_unlink_of {E : Mcsfs1Err → Blocks → Prop} (h8 : 8 < D.blockCount)
    (hbc : D.blockCount ≤ 4096) (name : Bytes) (past : UInt8)
    (hmissing : target c name past = none → E (findError name) c)
    (hfile : ∀ s, target c name past = some s → InoOk ((metaOf c).entry s).ino ∧
      iMode (inodeOf c ((metaOf c).entry s).ino) = modeFile)
    (hcut : D.Faulty → ∀ s, target c name past = some s → E .io c ∧ E .io (cleared c s) ∧
      E .io (unmarked c s) ∧ E .io (freed D.blockCount c s) ∧ E .io (unlinked D.blockCount c s)) :
    Does D (unlink name past) c
      (fun _ c' => ∃ s, target c name past = some s ∧ c' = unlinked D.blockCount c s) E := by
  apply bind_findDirent h8 hmissing
  intro s hs
  obtain ⟨hino, hmode⟩ := hfile s hs
  refine bind_readInode h8 hino ?_
  apply bind_failIf (fun hbad => absurd hmode hbad)
  intro _
  refine bind_read (show 7 < _ by omega) ?_
  refine bind_write (show 7 < _ by omega) (fun hf => (hcut hf s hs).1) ?_
  have hib : cleared c s inodeBmapLba = c inodeBmapLba := put_ne (by decide) _
  have hbb : cleared c s blockBmapLba = c blockBmapLba := put_ne (by decide) _
  have hfree : Does D (freeInodeAndBlocks ((metaOf c).entry s).ino
      (inodeOf c ((metaOf c).entry s).ino)) (cleared c s)
      (fun _ c' => freed D.blockCount c s = c') E := by
    refine bind_read (show 1 < _ by omega) (bind_read (show 2 < _ by omega) ?_)
    refine bind_blockCount (bind_failIf (fun hbad => absurd hbad (behindBmap_none hbc _)) fun _ => ?_)
    rw [hib, hbb]
    have hstore : Does D (storeBmaps (Bitmap.clear (c inodeBmapLba) ((metaOf c).entry s).ino)
        (clearDirect D.blockCount (inodeOf c ((metaOf c).entry s).ino) (c blockBmapLba)) >>= pure)
        (cleared c s) (fun _ c' => freed D.blockCount c s = c') E :=
      bind_storeBmaps h8 (fun hf => (hcut hf s hs).2.1) (fun hf => (hcut hf s hs).2.2.1)
        (does_pure rfl)
    rwa [Prog.bind_pure] at hstore
  apply hfree.bind
  intro _ c' hc
  subst hc
  refine bind_writeInode h8 hino (fun hf => (hcut hf s hs).2.2.2.1) ?_
  exact does_flush ⟨s, hs, rfl⟩ fun hf => (hcut hf s hs).2.2.2.2

theorem does_unlink_cuts {E : Mcsfs1Err → Blocks → Prop} (h8 : 8 < D.blockCount)
    (hbc : D.blockCount ≤ 4096) (name : Bytes) (past : UInt8) (hcheck : ∀ e, e ≠ .io → E e c)
    (hfile : ∀ s, target c name past = some s → InoOk ((metaOf c).entry s).ino ∧
      iMode (inodeOf c ((metaOf c).entry s).ino) = modeFile)
    (hcut : D.Faulty → ∀ s, target c name past = some s → E .io c ∧ E .io (cleared c s) ∧
      E .io (unmarked c s) ∧ E .io (freed D.blockCount c s) ∧ E .io (unlinked D.blockCount c s)) :
    Does D (unlink name past) c
      (fun _ c' => ∃ s, target c name past = some s ∧ c' = unlinked D.blockCount c s) E :=
  does_unlink_of h8 hbc name past (fun _ => hcheck _ (findError_ne_io name)) hfile hcut

theorem does_unlink (h8 : 8 < D.blockCount) (hbc : D.blockCount ≤ 4096) (h : Inv D.blockCount c)
    (name : Bytes) (past : UInt8) :
    Does D (unlink name past) c
      (fun _ c' => ∃ s, target c name past = some s ∧ c' = unlinked D.blockCount c s)
      (Cut D False (target c name past) c) := by
  refine does_unlink_cuts h8 hbc name past (fun e he => Cut.unchanged h he) (fun s hs => ?_)
    fun hf s hs => ?_
  · obtain ⟨-, hu⟩ := target_used hs
    have hm := (h.data.file s hu).mode
    rw [file_eq h hu] at hm
    exact ⟨h.data.inoOk hu, hm⟩
  · obtain ⟨hslot, hu⟩ := target_used hs
    rw [hs]
    exact ⟨Cut.io (Good.refl h _) False.elim hf, Cut.io (good_cleared h hslot) False.elim hf,
      Cut.io (good_unmarked h hslot hu) False.elim hf, Cut.io (good_freed h hslot hu) False.elim hf,
      Cut.io (good_unlinked h hslot hu) False.elim hf⟩

end Mcsos.Mcsfs1
