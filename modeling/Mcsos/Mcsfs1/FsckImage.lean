import Mcsos.Mcsfs1.ReadImage

set_option autoImplicit false

/-! # What fsck accepts

`Accepted` is what `mcsfs1_fsck` looks at, on any image: the super block, the bits of the root and of
the blocks before the data, and of every entry in use the inode and the blocks that its size takes.
It says nothing about two entries with one inode or two inodes with one block, nor about entries of
`direct` behind the size.
-/

namespace Mcsos.Mcsfs1

open Prog

/-- An inode that passes the check. -/
structure InodeChecked (blockCount : Nat) (bb inode : Bytes) : Prop where
  mode : iMode inode = modeFile
  size : iSize inode ≤ directBlocks * blockSize
  blocks : ∀ j, j < needed (iSize inode) → BlockChecked bb blockCount (iDirect inode j)

/-- Entry `i` of the directory passes the check. -/
structure DirentChecked (blockCount : Nat) (c : Blocks) (dir : Bytes) (i : Nat) : Prop where
  inoOk : InoOk (deIno dir i)
  type : deType dir i = modeFile
  bit : Bitmap.test (c inodeBmapLba) (deIno dir i) = true
  inode : InodeChecked blockCount (c blockBmapLba) (inodeOf c (deIno dir i))

/-- An image that passes the check. -/
structure Accepted (blockCount : Nat) (c : Blocks) : Prop where
  count : 8 < blockCount
  super : SuperOk blockCount (c sbLba)
  rootBit : Bitmap.test (c inodeBmapLba) rootIno = true
  system : ∀ b, b < dataStartLba → Bitmap.test (c blockBmapLba) b = true
  rootMode : iMode (inodeOf c rootIno) = modeDir
  rootDirect : iDirect (inodeOf c rootIno) 0 = rootDirLba
  dirents : ∀ i, i < direntCount → deIno (c rootDirLba) i ≠ 0 →
    DirentChecked blockCount c (c rootDirLba) i

/-! ## The check -/

theorem bind_fsckBlocks_iff {β : Type} {bb inode : Bytes} {blockCount : Nat} {dev : Blkdev}
    {P : Except Mcsfs1Err β × Blkdev → Prop} {f : Unit → M15 β} (herr : ∀ e, ¬P (.error e, dev))
    (n j : Nat) : P ((fsckBlocks bb inode blockCount j n >>= f) dev) ↔
      (∀ k, j ≤ k → k < j + n → BlockChecked bb blockCount (iDirect inode k)) ∧ P (f () dev) := by
  induction n generalizing j with
  | zero =>
      rw [fsckBlocks, Prog.pure_bind]
      exact (and_iff_right fun k hk hlt => by omega).symm
  | succ n ih =>
      rw [fsckBlocks, Prog.bind_assoc]
      refine (bind_failIf_iff (herr _)).trans ?_
      rw [Prog.bind_assoc, bind_failIf_iff (herr _), Prog.bind_assoc, bind_failIf_iff (herr _),
        ih (j + 1)]
      constructor
      · rintro ⟨hrange, hbehind, hbit, hrest, hp⟩
        rw [not_or, not_lt, not_le] at hrange
        rw [Bool.not_eq_false] at hbit
        refine ⟨fun k hk hlt => ?_, hp⟩
        rcases Nat.eq_or_lt_of_le hk with rfl | hk
        · exact ⟨hrange.1, hrange.2, not_le.mp hbehind, hbit⟩
        · exact hrest k hk (by omega)
      · rintro ⟨h, hp⟩
        obtain ⟨hge, hlt, hbehind, hbit⟩ := h j (Nat.le_refl j) (by omega)
        refine ⟨by omega, not_le.mpr hbehind, by simp [hbit], fun k hk hlt => ?_, hp⟩
        exact h k (by omega) (by omega)

/-- Entry `i` and its inode, and then the entries behind it. -/
theorem fsckDirents_succ_iff {dev : Blkdev} (hread : dev.Readable) (h8 : 8 < dev.blockCount)
    {dir : Bytes} {n i : Nat} (hused : deIno dir i ≠ 0) :
    (fsckDirents (dev.blocks inodeBmapLba) (dev.blocks blockBmapLba) dir dev.blockCount i (n + 1)
        dev).1 = .ok () ↔
      DirentChecked dev.blockCount dev.blocks dir i ∧
        (fsckDirents (dev.blocks inodeBmapLba) (dev.blocks blockBmapLba) dir dev.blockCount (i + 1) n
          (dev.asked (inodeLba (deIno dir i)))).1 = .ok () := by
  let R : Except Mcsfs1Err Unit × Blkdev → Prop := fun r => r.1 = .ok ()
  have herr : ∀ e dev', ¬R (.error e, dev') := fun e dev' hr => nomatch hr
  show R _ ↔ _ ∧ R _
  rw [fsckDirents, if_neg hused]
  constructor
  · intro hr
    obtain ⟨hdirent, hr⟩ := (bind_failIf_iff (herr _ _)).mp hr
    obtain ⟨hino, -, hr⟩ := (bind_readInode_any_iff h8 fun e dev' _ => herr e dev').mp hr
    obtain ⟨hinode, hr⟩ := (bind_failIf_iff (herr _ _)).mp hr
    obtain ⟨hblocks, hr⟩ := (bind_fsckBlocks_iff (fun e => herr e _) _ 0).mp hr
    rw [not_or, not_or, not_not, Bool.not_eq_false] at hdirent
    rw [not_or, not_not, not_lt] at hinode
    exact ⟨⟨hino, hdirent.2.1, hdirent.2.2, hinode.1, hinode.2,
      fun j hj => hblocks j (Nat.zero_le j) (lt_of_lt_of_eq hj (Nat.zero_add _).symm)⟩, hr⟩
  · rintro ⟨hd, hr⟩
    refine (bind_failIf_iff (herr _ _)).mpr ⟨?_, ?_⟩
    · rw [not_or, not_or, not_not, Bool.not_eq_false, not_lt]
      exact ⟨hd.inoOk.2, hd.type, hd.bit⟩
    refine (bind_readInode_any_iff h8 fun e dev' _ => herr e dev').mpr ⟨hd.inoOk, hread.works 0, ?_⟩
    refine (bind_failIf_iff (herr _ _)).mpr ⟨?_, ?_⟩
    · rw [not_or, not_not, not_lt]
      exact ⟨hd.inode.mode, hd.inode.size⟩
    refine (bind_fsckBlocks_iff (fun e => herr e _) _ 0).mpr ⟨fun j _ hj => ?_, hr⟩
    exact hd.inode.blocks j (lt_of_lt_of_eq hj (Nat.zero_add _))

theorem fsckDirents_ok_iff {dev : Blkdev} (hread : dev.Readable) (h8 : 8 < dev.blockCount)
    (dir : Bytes) (n i : Nat) :
    (fsckDirents (dev.blocks inodeBmapLba) (dev.blocks blockBmapLba) dir dev.blockCount i n dev).1 =
        .ok () ↔
      ∀ k, i ≤ k → k < i + n → deIno dir k ≠ 0 →
        DirentChecked dev.blockCount dev.blocks dir k := by
  induction n generalizing i dev with
  | zero => exact iff_of_true rfl fun k hk hlt => by omega
  | succ n ih =>
      -- the entries from `i` on are entry `i` and those from `i + 1` on
      have hsplit : (∀ k, i ≤ k → k < i + (n + 1) → deIno dir k ≠ 0 →
          DirentChecked dev.blockCount dev.blocks dir k) ↔
          (deIno dir i ≠ 0 → DirentChecked dev.blockCount dev.blocks dir i) ∧
            ∀ k, i + 1 ≤ k → k < i + 1 + n → deIno dir k ≠ 0 →
              DirentChecked dev.blockCount dev.blocks dir k := by
        constructor
        · exact fun h => ⟨h i (Nat.le_refl i) (by omega), fun k hk hlt => h k (by omega) (by omega)⟩
        · rintro ⟨hi, h⟩ k hk hlt
          rcases Nat.eq_or_lt_of_le hk with rfl | hk
          · exact hi
          · exact h k hk (by omega)
      rw [hsplit]
      by_cases hused : deIno dir i = 0
      · rw [fsckDirents, if_pos hused, and_iff_right fun hne => absurd hused hne]
        exact ih hread h8 (i + 1)
      · rw [fsckDirents_succ_iff hread h8 hused]
        have hasked : (dev.asked (inodeLba (deIno dir i))).Readable := hread
        have hcount : 8 < (dev.asked (inodeLba (deIno dir i))).blockCount := h8
        refine and_congr ⟨fun h _ => h, fun h => h hused⟩ ?_
        exact ih hasked hcount (i + 1)

/-- The device when fsck comes to the entries. -/
def Blkdev.checked (dev : Blkdev) : Blkdev :=
  ((((dev.asked sbLba).asked inodeBmapLba).asked blockBmapLba).asked (inodeLba rootIno)).asked
    rootDirLba

/-- **The check.** On a device that can be read, fsck succeeds on exactly the images that are
accepted. -/
theorem fsck_ok_iff {dev : Blkdev} (hread : dev.Readable) :
    (fsck dev).1 = .ok () ↔ Accepted dev.blockCount dev.blocks := by
  let R : Except Mcsfs1Err Unit × Blkdev → Prop := fun r => r.1 = .ok ()
  have herr : ∀ e dev', ¬R (.error e, dev') := fun e dev' hr => nomatch hr
  -- the loop over the entries, on the device as the reads before have left it
  have hdirents : 8 < dev.blockCount →
      (R (fsckDirents (dev.blocks inodeBmapLba) (dev.blocks blockBmapLba) (dev.blocks rootDirLba)
        dev.blockCount 0 direntCount dev.checked) ↔
      ∀ k, 0 ≤ k → k < 0 + direntCount → deIno (dev.blocks rootDirLba) k ≠ 0 →
        DirentChecked dev.blockCount dev.blocks (dev.blocks rootDirLba) k) := fun h8 => by
    have hchecked : dev.checked.Readable := hread
    have hcount : 8 < dev.checked.blockCount := h8
    exact fsckDirents_ok_iff hchecked hcount (dev.blocks rootDirLba) direntCount 0
  show R _ ↔ _
  rw [fsck]
  refine (bind_loadSuper_iff herr).trans ?_
  constructor
  · rintro ⟨h8, -, hsuper, hr⟩
    obtain ⟨-, hr⟩ := (bind_read_iff (by exact lt_trans (by decide) h8) (herr _ _)).mp hr
    obtain ⟨-, hr⟩ := (bind_read_iff (by exact lt_trans (by decide) h8) (herr _ _)).mp hr
    rw [bind_ok (asks_apply _ _)] at hr
    obtain ⟨hroot, hr⟩ := (bind_failIf_iff (herr _ _)).mp hr
    obtain ⟨hsystem, hr⟩ := (bind_failIf_iff (herr _ _)).mp hr
    obtain ⟨-, hr⟩ := (bind_readInode_iff (by exact h8) rootIno_ok (herr _ _)).mp hr
    obtain ⟨hinode, hr⟩ := (bind_failIf_iff (herr _ _)).mp hr
    obtain ⟨-, hr⟩ := (bind_read_iff (by exact lt_trans (by decide) h8) (herr _ _)).mp hr
    rw [not_or, Bool.not_eq_false, Bool.not_eq_false] at hroot
    rw [not_or, not_not, not_not] at hinode
    have hfind := Loop.findFrom_none_iff.mp (Option.not_isSome_iff_eq_none.mp hsystem)
    refine ⟨h8, hsuper, hroot.1, fun b hb => ?_, hinode.1, hinode.2, fun i hi => ?_⟩
    · have hbit := hfind b (Nat.zero_le b) (lt_of_lt_of_eq hb (Nat.zero_add _).symm)
      rwa [Bool.not_eq_false'] at hbit
    · exact (hdirents h8).mp hr i (Nat.zero_le i) (lt_of_lt_of_eq hi (Nat.zero_add _).symm)
  · intro h
    have h8 := h.count
    refine ⟨h8, hread.works 0, h.super, ?_⟩
    refine (bind_read_iff (by exact lt_trans (by decide) h8) (herr _ _)).mpr ⟨hread _, ?_⟩
    refine (bind_read_iff (by exact lt_trans (by decide) h8) (herr _ _)).mpr ⟨hread _, ?_⟩
    rw [bind_ok (asks_apply _ _)]
    refine (bind_failIf_iff (herr _ _)).mpr ⟨?_, ?_⟩
    · rw [not_or, Bool.not_eq_false, Bool.not_eq_false]
      exact ⟨h.rootBit, h.system rootDirLba (by decide)⟩
    refine (bind_failIf_iff (herr _ _)).mpr ⟨?_, ?_⟩
    · refine Option.not_isSome_iff_eq_none.mpr (Loop.findFrom_none_iff.mpr fun b _ hb => ?_)
      rw [Bool.not_eq_false']
      exact h.system b (lt_of_lt_of_eq hb (Nat.zero_add _))
    refine (bind_readInode_iff (by exact h8) rootIno_ok (herr _ _)).mpr ⟨hread _, ?_⟩
    refine (bind_failIf_iff (herr _ _)).mpr ⟨?_, ?_⟩
    · rw [not_or, not_not, not_not]
      exact ⟨h.rootMode, h.rootDirect⟩
    refine (bind_read_iff (by exact lt_trans (by decide) h8) (herr _ _)).mpr ⟨hread _, ?_⟩
    refine (hdirents h8).mpr fun i _ hi => h.dirents i ?_
    exact lt_of_lt_of_eq hi (Nat.zero_add _)

/-! ## The bits that the check asks for -/

/-- The call does not ask for a bit behind the buffer. -/
abbrev StaysInside {α : Type} (blockCount : Nat) (x : M15 α) : Prop :=
  x.AvoidsWhile (fun dev => dev.blockCount = blockCount) Mcsfs1Err.wild

section

variable {blockCount : Nat}

theorem inside_devRead (lba : Nat) : StaysInside blockCount (devRead lba) := by
  refine ⟨fun dev hcount => ?_⟩
  unfold devRead Prog.Ends
  dsimp only
  split_ifs
  · exact ⟨by decide, hcount⟩
  · exact ⟨by decide, hcount⟩
  · exact hcount

theorem inside_blockCount {α : Type} {f : Nat → M15 α} (h : StaysInside blockCount (f blockCount)) :
    StaysInside blockCount (asks Blkdev.blockCount >>= f) := by
  refine ⟨fun dev hcount => ?_⟩
  have hends := h.ends dev hcount
  rw [← hcount] at hends ⊢
  exact hends

theorem inside_readInode (ino : Nat) : StaysInside blockCount (readInode ino) :=
  (avoidsWhile_failIf (by decide)).bind fun _ => (avoidsWhile_failIf (by decide)).bind fun _ =>
    (inside_devRead _).bind fun _ => avoidsWhile_pure _

theorem inside_loadSuper : StaysInside blockCount loadSuper :=
  (inside_devRead _).bind fun _ => inside_blockCount <|
    (avoidsWhile_failIf (by decide)).bind fun _ => (avoidsWhile_failIf (by decide)).bind fun _ =>
      (avoidsWhile_failIf (by decide)).bind fun _ => (avoidsWhile_failIf (by decide)).bind fun _ =>
        (avoidsWhile_failIf (by decide)).bind fun _ => avoidsWhile_pure _

theorem inside_fsckBlocks (hbc : blockCount ≤ 4096) (bb inode : Bytes) (n j : Nat) :
    StaysInside blockCount (fsckBlocks bb inode blockCount j n) := by
  induction n generalizing j with
  | zero => exact avoidsWhile_pure ()
  | succ n ih =>
      refine ⟨fun dev hcount => ?_⟩
      rw [fsckBlocks]
      -- a block that passes the first test has a bit in the buffer
      refine (ends_failIf (R := fun _ dev' => dev = dev' ∧ iDirect inode j < blockCount)
        (fun _ => ⟨by decide, hcount⟩) fun hrange => ⟨rfl, by omega⟩).bind fun _ dev' hr => ?_
      obtain ⟨rfl, hlt⟩ := hr
      have hbits : bitmapBits = 4096 := rfl
      refine (ends_failIf (R := fun _ dev' => dev = dev') (fun hbehind => by omega)
        fun _ => rfl).bind fun _ dev' hr => ?_
      subst hr
      exact ((avoidsWhile_failIf (by decide)).bind fun _ => ih (j + 1)).ends dev hcount

theorem inside_fsckDirents (hbc : blockCount ≤ 4096) (ib bb dir : Bytes) (n i : Nat) :
    StaysInside blockCount (fsckDirents ib bb dir blockCount i n) := by
  induction n generalizing i with
  | zero => exact avoidsWhile_pure ()
  | succ n ih =>
      rw [fsckDirents]
      split_ifs
      · exact ih (i + 1)
      · exact (avoidsWhile_failIf (by decide)).bind fun _ => (inside_readInode _).bind fun _ =>
          (avoidsWhile_failIf (by decide)).bind fun _ =>
            (inside_fsckBlocks hbc _ _ _ 0).bind fun _ => ih (i + 1)

theorem inside_fsck (hbc : blockCount ≤ 4096) : StaysInside blockCount fsck :=
  inside_loadSuper.bind fun _ => (inside_devRead _).bind fun _ => (inside_devRead _).bind fun _ =>
    inside_blockCount <| (avoidsWhile_failIf (by decide)).bind fun _ =>
      (avoidsWhile_failIf (by decide)).bind fun _ => (inside_readInode _).bind fun _ =>
        (avoidsWhile_failIf (by decide)).bind fun _ => (inside_devRead _).bind fun _ =>
          inside_fsckDirents hbc _ _ _ _ 0

end

/-- fsck may accept the image: it succeeds, or it has asked for a bit behind the buffer, and then
the source does not say what it returns. -/
def MayAccept (dev : Blkdev) : Prop := (fsck dev).1 = .ok () ∨ (fsck dev).1 = .error .wild

/-- On a device that a format takes, fsck stays inside its buffers. -/
theorem MayAccept.ok {dev : Blkdev} (h : MayAccept dev) (hbc : dev.blockCount ≤ 4096) :
    (fsck dev).1 = .ok () :=
  h.resolve_right ((inside_fsck hbc).apply rfl).1

/-! ## Reading what has been checked -/

/-- The block bitmap marks block `b`: it has a bit there, which is set. -/
def Marked (dev : Blkdev) (b : Nat) : Prop :=
  b < bitmapBits ∧ Bitmap.test (dev.blocks blockBmapLba) b = true

instance (dev : Blkdev) (b : Nat) : Decidable (Marked dev b) := inferInstanceAs (Decidable (_ ∧ _))

section

variable {dev : Blkdev} {name : Bytes} {past : UInt8}

/-- The entry that a lookup finds. -/
theorem findDirent_ok (h8 : 8 < dev.blockCount) {r : Nat × Nat}
    (hfound : (findDirent name past dev).1 = .ok r) :
    target dev.blocks name past = some r.1 ∧ r.2 = deIno (dev.blocks rootDirLba) r.1 := by
  let R : Except Mcsfs1Err (Nat × Nat) × Blkdev → Prop := fun x => x.1 = .ok r
  have hrun : R ((findDirent name past >>= pure) dev) := by
    rcases hx : findDirent name past dev with ⟨e | r', dev'⟩
    · rw [hx] at hfound
      cases hfound
    · rw [hx] at hfound
      rw [bind_ok hx]
      exact hfound
  obtain ⟨-, s, hs, hr⟩ := (bind_findDirent_iff h8 fun e dev' _ hr => nomatch hr).mp hrun
  obtain rfl : (s, deIno (dev.blocks rootDirLba) s) = r := Except.ok.inj hr
  exact ⟨hs, rfl⟩

theorem blocksNeeded_le_needed (len : Nat) : blocksNeeded len ≤ needed len := by
  unfold needed
  split_ifs with hzero
  · omega
  · exact Nat.le_refl _

theorem InodeChecked.direct {blockCount j : Nat} {bb inode : Bytes}
    (h : InodeChecked blockCount bb inode) (hj : j < blocksNeeded (iSize inode)) :
    BlockChecked bb blockCount (iDirect inode j) :=
  h.blocks j (lt_of_lt_of_le hj (blocksNeeded_le_needed _))

/-- **Reads succeed.** On an image that fsck accepts and that mounts, a name that is found can be
read into 4096 bytes, and behind the directory and the inode only blocks from 8 on are read that the
bitmap marks. -/
theorem fsck_read (hread : dev.Readable) (hbc : dev.blockCount ≤ 4096) (hfsck : MayAccept dev)
    {mnt : Mount} (hmount : (mount dev).1 = .ok mnt) {r : Nat × Nat}
    (hfound : (findDirent name past dev).1 = .ok r) {cap : Nat} (hcap : 4096 ≤ cap) :
    ∃ (out : ReadOut) (lbas : List Nat),
      (read mnt name cap past dev).1 = .ok out ∧ out.outLen ≤ 4096 ∧
      (read mnt name cap past dev).2.reads =
        lbas.reverse ++ inodeLba r.2 :: rootDirLba :: dev.reads ∧
      ∀ b, b ∈ lbas → dataStartLba ≤ b ∧ b < dev.blockCount ∧ Marked dev b := by
  obtain ⟨hcount, h8, -⟩ := mount_ok hmount
  obtain ⟨s, ino⟩ := r
  obtain ⟨hs, rfl⟩ : target dev.blocks name past = some s ∧ ino = deIno (dev.blocks rootDirLba) s :=
    findDirent_ok h8 hfound
  obtain ⟨hslot, hused⟩ := target_used hs
  have hne : deIno (dev.blocks rootDirLba) s ≠ 0 := by
    rw [← entry_eq dev.blocks hslot]
    exact hused
  have hd := ((fsck_ok_iff hread).mp (hfsck.ok hbc)).dirents s hslot hne
  have hsize : iSize (inodeOf dev.blocks (deIno (dev.blocks rootDirLba) s)) ≤ 4096 := hd.inode.size
  have hopens : Opens dev name past cap (deIno (dev.blocks rootDirLba) s) :=
    ⟨⟨s, hs, rfl⟩, hd.inoOk, ⟨hread.works 0, hread.works 1⟩, hd.inode.mode, le_trans hsize hcap⟩
  -- fsck wants blocks from 8 on, so none of them is 0
  have hrun := read_ok hcount h8 hread hopens hsize fun j hj => by
    obtain ⟨hge, hlt, -, -⟩ := hd.inode.direct hj
    exact ⟨Nat.ne_of_gt (lt_of_lt_of_le (by decide) hge), hcount ▸ hlt⟩
  rw [hrun]
  refine ⟨_, _, rfl, hsize, rfl, fun b hb => ?_⟩
  obtain ⟨j, hj, rfl⟩ := mem_directFrom.mp hb
  obtain ⟨hge, hlt, hinside, hbit⟩ := hd.inode.direct hj
  exact ⟨hge, hlt, hinside, hbit⟩

end

theorem fsck_read_grown : ∃ (out : ReadOut) (lbas : List Nat),
    (read ⟨16, 8⟩ nameA 4096 0 grownImage).1 = .ok out ∧ out.outLen ≤ 4096 ∧
      (read ⟨16, 8⟩ nameA 4096 0 grownImage).2.reads =
        lbas.reverse ++ inodeLba 2 :: rootDirLba :: grownImage.reads ∧
      ∀ b, b ∈ lbas → dataStartLba ≤ b ∧ b < grownImage.blockCount ∧ Marked grownImage b := by
  have hread : grownImage.Readable := fun _ => rfl
  have hfsck : MayAccept grownImage := Or.inl (by decide +kernel)
  have hmount : (mount grownImage).1 = .ok ⟨16, 8⟩ := by decide +kernel
  have hfound : (findDirent nameA 0 grownImage).1 = .ok (0, 2) := by decide +kernel
  exact fsck_read hread (by decide +kernel) hfsck hmount hfound (Nat.le_refl 4096)

/-- The image of a device on which nothing fails, with block `lba` another one. -/
def Blkdev.patched (dev : Blkdev) (lba : Nat) (block : Bytes) : Blkdev :=
  ⟨dev.blockCount, Function.update dev.blocks lba block, fun _ => false, 0, fun _ => false, []⟩

/-- An empty image of 4104 blocks, of which the first 4096 are marked. -/
def bigImage : Blkdev :=
  ⟨4104, fun b =>
    if b = 0 then mkSuper 4104
    else if b = 1 then Bitmap.set (Bitmap.set Bytes.zero 0) 1
    else if b = 2 then Bytes.clip blockSize fun _ => 255
    else if b = 3 then Bytes.zero.copy 0 (mkInode modeDir blockSize rootDirLba) 0 inodeSize
    else Bytes.zero, fun _ => false, 0, fun _ => false, []⟩

/-- The same with a file of 100 bytes in block 4100. -/
def bigFile : Blkdev :=
  ((bigImage.patched inodeBmapLba (Bitmap.set (bigImage.blocks inodeBmapLba) 2)).patched 3
    ((bigImage.blocks 3).copy inodeSize (mkInode modeFile 100 4100) 0 inodeSize)).patched rootDirLba
      (setDirent Bytes.zero 0 2 nameA 1)

/-- On a device that no format takes, fsck asks for a bit behind the buffer, and a block is read
that the bitmap has no bit for. -/
theorem fsck_read_unmarked : bigFile.Readable ∧ MayAccept bigFile ∧
    (mount bigFile).1 = .ok ⟨4104, 8⟩ ∧ (findDirent nameA 0 bigFile).1 = .ok (0, 2) ∧
    (read ⟨4104, 8⟩ nameA 4096 0 bigFile).2.reads = [4100, inodeLba 2, rootDirLba] ∧
    ¬Marked bigFile 4100 := by
  refine ⟨fun _ => rfl, Or.inr ?_, ?_, ?_, ?_, ?_⟩
  all_goals decide +kernel

end Mcsos.Mcsfs1
