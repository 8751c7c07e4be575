import Mcsos.Mcsfs1.Write

set_option autoImplicit false

/-! # Reading and checking (`fs/mcsfs1/mcsfs1.c`)

`mcsfs1_mount`, `mcsfs1_read` and `mcsfs1_fsck` write nothing. On a sound image mounting and checking
succeed.
-/

namespace Mcsos.Mcsfs1

variable {D : Disk} {c : Blocks}

/-! ## `mcsfs1_read` -/

theorem does_read_any (D : Disk) (c : Blocks) (lba : Nat) :
    Does D (devRead lba) c (fun _ c' => c = c') (fun e c' => c = c' ∧ e = .inval) := by
  by_cases hlba : lba < D.blockCount
  · exact does_read hlba rfl
  · intro dev hdev
    have hread : devRead lba dev = (.error .inval, dev) := by
      unfold devRead
      rw [if_pos (by rw [hdev.blockCount]; omega)]
    exact Prog.ends_of_error hread ⟨c, hdev, rfl, rfl⟩

theorem does_readBlocks (D : Disk) (c : Blocks) (mnt : Mount) (inode : Bytes)
    (cap n i copied : Nat) :
    Does D (readBlocks mnt inode cap i copied n) c (fun _ c' => c = c')
      (fun e c' => c = c' ∧ e ≠ .io) := by
  induction n generalizing i copied with
  | zero => exact does_pure rfl
  | succ n ih =>
      rw [readBlocks]
      apply bind_failIf (fun _ => ⟨rfl, by decide⟩)
      intro _
      apply bind_failIf (fun _ => ⟨rfl, by decide⟩)
      intro _
      refine ((does_read_any D c (iDirect inode i)).mono (fun _ _ hq => hq)
        fun e c' he => ⟨he.1, by rw [he.2]; decide⟩).bind fun block c' hc => ?_
      subst hc
      apply bind_failIf (fun _ => ⟨rfl, by decide⟩)
      intro _
      apply (ih (i + 1) _).bind
      intro rest c' hc
      subst hc
      exact does_pure rfl

/-- A read on any image where a name that is found leads to an inode. -/
theorem does_readFile_any (h8 : 8 < D.blockCount) (mnt : Mount) (name : Bytes) (cap : Nat)
    (past : UInt8) (hino : ∀ s, target c name past = some s → InoOk ((metaOf c).entry s).ino) :
    Does D (read mnt name cap past) c (fun _ c' => c = c') (fun e c' => c = c' ∧ e ≠ .io) := by
  apply bind_findDirent h8 (fun _ => ⟨rfl, findError_ne_io name⟩)
  intro s hs
  refine bind_readInode h8 (hino s hs) ?_
  apply bind_failIf (fun _ => ⟨rfl, by decide⟩)
  intro _
  apply bind_failIf (fun _ => ⟨rfl, by decide⟩)
  intro _
  exact (does_readBlocks D c mnt _ cap _ 0 0).bind fun bytes c' hc => does_pure hc

theorem does_readFile (h8 : 8 < D.blockCount) (h : Inv D.blockCount c) (mnt : Mount) (name : Bytes)
    (cap : Nat) (past : UInt8) :
    Does D (read mnt name cap past) c (fun _ c' => c = c') (Cut D False none c) := by
  refine (does_readFile_any h8 mnt name cap past fun s hs => h.data.inoOk (target_used hs).2).mono
    (fun _ _ hq => hq) fun e c' he => ?_
  obtain ⟨rfl, hne⟩ := he
  exact Cut.unchanged h hne

/-! ## `mcsfs1_mount` and `mcsfs1_fsck` -/

/-- `load_super` takes a sound super block. -/
theorem bind_loadSuper {β : Type} {f : Bytes → M15 β} {S : β → Blocks → Prop}
    {E : Mcsfs1Err → Blocks → Prop} (h8 : 8 < D.blockCount) (h : SuperOk D.blockCount (c sbLba))
    (hf : Does D (f (c sbLba)) c S E) : Does D (loadSuper >>= f) c S E := by
  have hload : Does D loadSuper c (fun sb c' => c sbLba = sb ∧ c = c') E := by
    refine bind_read (show 0 < _ by omega) (bind_blockCount ?_)
    refine bind_failIf (fun hbad => absurd hbad ?_) fun _ => ?_
    · simp [h.magic, h.version, h.blockSize]
    refine bind_failIf (fun hbad => absurd hbad ?_) fun _ => ?_
    · simp [h.blockCount, h.inodeCount]
    refine bind_failIf (fun hbad => absurd hbad ?_) fun _ => ?_
    · simp [h.inodeBmapLba, h.blockBmapLba, h.inodeTableLba]
    refine bind_failIf (fun hbad => absurd hbad ?_) fun _ => ?_
    · simp [h.rootIno, h.rootDirLba, h.dataStartLba]
    refine bind_failIf (fun hbad => absurd hbad ?_) fun _ => does_pure ⟨rfl, rfl⟩
    rw [h.blockCount, h.dataStartLba]
    exact not_le.mpr h8
  exact hload.bind fun _ _ ⟨hb, hc⟩ => hb ▸ hc ▸ hf

theorem rootIno_ok : InoOk rootIno := by decide

theorem Inv.root {blockCount : Nat} (h : Inv blockCount c) :
    iMode (inodeOf c rootIno) = modeDir ∧ iDirect (inodeOf c rootIno) 0 = rootDirLba :=
  ⟨h.data.root_mode, h.data.root_direct⟩

/-- A block of a file passes the check. -/
structure BlockChecked (bb : Bytes) (blockCount lba : Nat) : Prop where
  ge : dataStartLba ≤ lba
  lt : lba < blockCount
  inside : lba < bitmapBits
  bit : Bitmap.test bb lba = true

section

variable {blockCount i : Nat} (h : Inv blockCount c) (hi : i < direntCount)
  (hne : deIno (c rootDirLba) i ≠ 0)

include h hi hne

/-- What a sound image says about an entry in use. -/
theorem Inv.dirent : InoOk (deIno (c rootDirLba) i) ∧ deType (c rootDirLba) i = modeFile ∧
    Bitmap.test (c inodeBmapLba) (deIno (c rootDirLba) i) = true ∧
    InodeOk blockCount (metaOf c).bb (inodeView (inodeOf c (deIno (c rootDirLba) i))) := by
  have hentry : (metaOf c).entry i = ⟨deIno (c rootDirLba) i, deType (c rootDirLba) i⟩ := if_pos hi
  have hu : (metaOf c).Used i := by
    unfold Meta.Used
    rw [hentry]
    exact hne
  have hino := h.data.inoOk hu
  have htype := h.data.type i hu
  have hbit := h.data.bit i hu
  have hfile := h.data.file i hu
  rw [file_eq h hu] at hfile
  rw [hentry] at hino htype hbit hfile
  refine ⟨hino, htype, ?_, hfile⟩
  rw [← bits_of_lt (lt_of_le_of_lt hino.2 (by decide))]
  exact hbit

/-- Every block that its inode must have passes the check. -/
theorem Inv.blockChecked (hbc : blockCount ≤ 4096) {j : Nat}
    (hj : j < needed (iSize (inodeOf c (deIno (c rootDirLba) i)))) :
    BlockChecked (c blockBmapLba) blockCount
      (iDirect (inodeOf c (deIno (c rootDirLba) i)) j) := by
  obtain ⟨-, -, -, hfile⟩ := h.dirent hi hne
  have hj8 : j < directBlocks := lt_of_lt_of_le hj (needed_le hfile.size)
  have hdirect : (inodeView (inodeOf c (deIno (c rootDirLba) i))).direct j =
      iDirect (inodeOf c (deIno (c rootDirLba) i)) j := if_pos hj8
  have hdne := hfile.needed j hj
  have hge := hfile.direct_ge j hdne
  have hlt := hfile.direct_lt j hdne
  have hbb := hfile.bit j hdne
  rw [hdirect] at hge hlt hbb
  have hbehind : iDirect (inodeOf c (deIno (c rootDirLba) i)) j < bitmapBits :=
    lt_of_lt_of_le hlt hbc
  refine ⟨hge, hlt, hbehind, ?_⟩
  rw [← bits_of_lt hbehind]
  exact hbb

end

theorem does_fsckBlocks {bb inode : Bytes} {blockCount : Nat} (n j : Nat)
    (h : ∀ k, j ≤ k → k < j + n → BlockChecked bb blockCount (iDirect inode k)) :
    Does D (fsckBlocks bb inode blockCount j n) c (fun _ c' => c = c') (fun _ _ => False) := by
  induction n generalizing j with
  | zero => exact does_pure rfl
  | succ n ih =>
      obtain ⟨hge, hlt, hbehind, hbit⟩ := h j (Nat.le_refl j) (by omega)
      rw [fsckBlocks]
      refine bind_failIf (fun hbad => by omega) fun _ => ?_
      refine bind_failIf (fun hbad => by omega) fun _ => ?_
      refine bind_failIf (fun hbad => by simp [hbit] at hbad) fun _ => ?_
      exact ih (j + 1) fun k hk hlt => h k (by omega) (by omega)

/-- The check of the directory finds nothing wrong. -/
theorem does_fsckDirents (h8 : 8 < D.blockCount) (hbc : D.blockCount ≤ 4096)
    (h : Inv D.blockCount c) (n i : Nat) (hin : i + n ≤ direntCount) :
    Does D (fsckDirents (c inodeBmapLba) (c blockBmapLba) (c rootDirLba) D.blockCount i n) c
      (fun _ c' => c = c') (fun _ _ => False) := by
  induction n generalizing i with
  | zero => exact does_pure rfl
  | succ n ih =>
      have hi : i < direntCount := by omega
      rw [fsckDirents]
      by_cases hzero : deIno (c rootDirLba) i = 0
      · rw [if_pos hzero]
        exact ih (i + 1) (by omega)
      rw [if_neg hzero]
      obtain ⟨hino, htype, hbit, hfile⟩ := h.dirent hi hzero
      -- the entry
      refine bind_failIf (fun hbad => ?_) fun _ => bind_readInode h8 hino ?_
      · rw [htype, hbit] at hbad
        have hle := hino.2
        rcases hbad with hbad | hbad | hbad
        · omega
        · exact hbad rfl
        · cases hbad
      -- its inode
      refine bind_failIf (fun hbad => ?_) fun _ => ?_
      · rcases hbad with hbad | hbad
        · exact hbad hfile.mode
        · exact absurd hfile.size (not_le.mpr hbad)
      -- the blocks of the inode
      refine (does_fsckBlocks _ 0 fun j _ hj =>
        h.blockChecked hi hzero hbc (lt_of_lt_of_eq hj (Nat.zero_add _))).bind fun _ c' hc => ?_
      subst hc
      exact ih (i + 1) (by omega)

theorem does_fsck (h8 : 8 < D.blockCount) (hbc : D.blockCount ≤ 4096) (h : Inv D.blockCount c) :
    Does D fsck c (fun _ c' => c = c') (fun _ _ => False) := by
  have hsystem : ∀ b, b < dataStartLba → Bitmap.test (c blockBmapLba) b = true := fun b hb => by
    rw [← bits_of_lt (lt_trans hb (by decide))]
    exact h.data.system b hb
  have hroot : Bitmap.test (c inodeBmapLba) rootIno = true := by
    rw [← bits_of_lt (by decide)]
    exact h.data.root_bit
  refine bind_loadSuper h8 h.super ?_
  refine bind_read (show 1 < _ by omega) (bind_read (show 2 < _ by omega) (bind_blockCount ?_))
  refine bind_failIf (fun hbad => ?_) fun _ => ?_
  · rw [hroot, hsystem rootDirLba (by decide)] at hbad
    simp at hbad
  refine bind_failIf (fun hbad => ?_) fun _ => ?_
  · obtain ⟨b, hb⟩ := Option.isSome_iff_exists.mp hbad
    obtain ⟨-, hlt, hbad, -⟩ := Loop.findFrom_some_iff.mp hb
    rw [hsystem b (by omega)] at hbad
    cases hbad
  refine bind_readInode h8 rootIno_ok (bind_failIf (fun hbad => ?_) fun _ => ?_)
  · rcases hbad with hbad | hbad
    · exact hbad h.root.1
    · exact hbad h.root.2
  refine bind_read (show 7 < _ by omega) ?_
  exact does_fsckDirents h8 hbc h direntCount 0 (by decide)

end Mcsos.Mcsfs1
