import Mcsos.Mcsfs1.DeviceSteps
import Mcsos.Mcsfs1.Accounts

set_option autoImplicit false

/-! # Reading from any image

`mcsfs1_mount` looks at the super block and the root, not at the inodes. What `mcsfs1_read` does with
an inode whose size or blocks are not those of a file is followed here on any image that mounts,
and for any pattern of failing reads.
-/

namespace Mcsos.Mcsfs1

open Prog

/-! ## Mounting -/

section

variable {β : Type} {dev : Blkdev} {P : Except Mcsfs1Err β × Blkdev → Prop}

/-- A super block that is accepted. -/
theorem bind_loadSuper_iff {f : Bytes → M15 β} (h : ∀ e dev', ¬P (.error e, dev')) :
    P ((loadSuper >>= f) dev) ↔ 8 < dev.blockCount ∧ dev.ReadWorks 0 ∧
      SuperOk dev.blockCount (dev.blocks sbLba) ∧ P (f (dev.blocks sbLba) (dev.asked sbLba)) := by
  by_cases hpos : sbLba < dev.blockCount
  · have hcount : (asks Blkdev.blockCount : M15 Nat) (dev.asked sbLba) =
        (.ok dev.blockCount, dev.asked sbLba) := rfl
    simp only [loadSuper, Prog.bind_assoc, Prog.pure_bind]
    refine (bind_read_iff hpos (h _ _)).trans ?_
    rw [bind_ok hcount]
    refine (and_congr_right fun _ => (bind_failIf_iff (h _ _)).trans (and_congr_right fun _ =>
      (bind_failIf_iff (h _ _)).trans (and_congr_right fun _ => (bind_failIf_iff (h _ _)).trans
        (and_congr_right fun _ => (bind_failIf_iff (h _ _)).trans (and_congr_right fun _ =>
          bind_failIf_iff (h _ _)))))).trans ?_
    simp only [not_or, not_not, not_le]
    constructor
    · rintro ⟨hread, ⟨h1, h2, h3⟩, ⟨h4, h5⟩, ⟨h6, h7, h8⟩, ⟨h9, h10, h11⟩, hlt, hp⟩
      rw [h4, h11] at hlt
      exact ⟨hlt, hread, ⟨h1, h2, h3, h4, h5, h6, h7, h8, h9, h10, h11⟩, hp⟩
    · rintro ⟨h8, hread, hs, hp⟩
      refine ⟨hread, ⟨hs.magic, hs.version, hs.blockSize⟩, ⟨hs.blockCount, hs.inodeCount⟩,
        ⟨hs.inodeBmapLba, hs.blockBmapLba, hs.inodeTableLba⟩,
        ⟨hs.rootIno, hs.rootDirLba, hs.dataStartLba⟩, ?_, hp⟩
      rw [hs.blockCount, hs.dataStartLba]
      exact h8
  · have hread : devRead sbLba dev = (.error .inval, dev) := if_pos (not_lt.mp hpos)
    rw [loadSuper, Prog.bind_assoc, bind_error hread]
    refine iff_of_false (h _ _) fun hp => hpos (lt_trans (by decide) hp.1)

/-- What mounting says about an image. -/
theorem mount_ok {mnt : Mount} (hmount : (mount dev).1 = .ok mnt) :
    mnt.blockCount = dev.blockCount ∧ 8 < dev.blockCount ∧
      (mount dev).2 = (dev.asked sbLba).asked (inodeLba rootIno) := by
  let R : Except Mcsfs1Err Mount × Blkdev → Prop := fun r => r.1 = .ok mnt ∧ r.2 = (mount dev).2
  have herr : ∀ e dev', ¬R (.error e, dev') := fun e dev' hr => nomatch hr.1
  have hr : R (mount dev) := ⟨hmount, rfl⟩
  obtain ⟨h8, -, hsuper, hr⟩ := (bind_loadSuper_iff herr).mp hr
  have h8' : 8 < (dev.asked sbLba).blockCount := h8
  obtain ⟨-, hr⟩ := (bind_readInode_iff h8' rootIno_ok (herr _ _)).mp hr
  obtain ⟨-, hr⟩ := (bind_failIf_iff (herr _ _)).mp hr
  obtain ⟨hmnt, hdev⟩ := hr
  refine ⟨?_, h8, hdev.symm⟩
  rw [← Except.ok.inj hmnt]
  exact hsuper.blockCount

end

/-! ## The loop -/

section

variable {mnt : Mount} {inode : Bytes} {cap : Nat} {dev : Blkdev}

/-- `direct[j]` passes the check of the loop. -/
def DirectOk (mnt : Mount) (inode : Bytes) (j : Nat) : Prop :=
  iDirect inode j ≠ 0 ∧ iDirect inode j < mnt.blockCount

instance (mnt : Mount) (inode : Bytes) (j : Nat) : Decidable (DirectOk mnt inode j) :=
  inferInstanceAs (Decidable (_ ∧ _))

/-- The bytes of the loop that have been copied before turn `i`. -/
def copiedAt (size i : Nat) : Nat := min size (blockSize * i)

theorem copiedAt_succ (size i : Nat) :
    copiedAt size i + (if blockSize < size - copiedAt size i then blockSize
      else size - copiedAt size i) = copiedAt size (i + 1) := by
  have hsize : blockSize = 512 := rfl
  unfold copiedAt
  rw [hsize]
  split <;> omega

theorem copiedAt_zero (size : Nat) : copiedAt size 0 = 0 := Nat.min_zero size

theorem copiedAt_le (size i : Nat) : copiedAt size i ≤ size := min_le_left ..

/-- The entries of `direct` from `i` on, `n` of them. -/
def directFrom (inode : Bytes) (i n : Nat) : List Nat := (List.range' i n).map (iDirect inode)

/-- The device behind reads of these blocks. -/
def Blkdev.askedAll (dev : Blkdev) (lbas : List Nat) : Blkdev :=
  { dev with reads := lbas.reverse ++ dev.reads }

theorem askedAll_cons (dev : Blkdev) (lba : Nat) (lbas : List Nat) :
    (dev.asked lba).askedAll lbas = dev.askedAll (lba :: lbas) := by
  simp [Blkdev.askedAll, Blkdev.asked]

/-- The contents of these blocks, one after the other. -/
def contents (c : Blocks) (lbas : List Nat) : List UInt8 :=
  lbas.flatMap fun b => (c b).slice 0 blockSize

theorem slice_take (b : Bytes) (r : Nat) :
    (b.slice 0 blockSize).take r = b.slice 0 (if blockSize < r then blockSize else r) := by
  rw [Bytes.slice, Bytes.slice, ← List.map_take, List.take_range]
  congr 2
  split <;> omega

theorem directFrom_succ (inode : Bytes) (i n : Nat) :
    directFrom inode i (n + 1) = iDirect inode i :: directFrom inode (i + 1) n := by
  rw [directFrom, List.range'_succ, List.map_cons]
  rfl

/-- Every turn of the loop from `i` on, `n` of them, goes well. -/
def TurnsWork (mnt : Mount) (inode : Bytes) (dev : Blkdev) (i n : Nat) : Prop :=
  ∀ k, k < n → DirectOk mnt inode (i + k) ∧ dev.ReadWorks k

theorem turnsWork_succ {i n : Nat} : TurnsWork mnt inode dev i (n + 1) ↔
    (DirectOk mnt inode i ∧ dev.ReadWorks 0) ∧
      TurnsWork mnt inode (dev.asked (iDirect inode i)) (i + 1) n := by
  constructor
  · intro h
    refine ⟨h 0 (Nat.succ_pos n), fun k hk => ?_⟩
    rw [asked_readWorks, Nat.add_right_comm]
    exact h (k + 1) (by omega)
  · rintro ⟨h0, h⟩ k hk
    cases k with
    | zero => exact h0
    | succ k =>
        have hk := h k (by omega)
        rw [asked_readWorks, Nat.add_right_comm] at hk
        exact hk

variable (hcount : mnt.blockCount = dev.blockCount) (hcap : iSize inode ≤ cap)

include hcount hcap

/-- One turn of the loop. -/
theorem readBlocks_succ_iff {P : Except Mcsfs1Err (List UInt8) × Blkdev → Prop} {i n : Nat}
    (hi : i < directBlocks) (h : ¬P (.error .corrupt, dev))
    (h' : ¬P (.error .io, dev.asked (iDirect inode i))) :
    P (readBlocks mnt inode cap i (copiedAt (iSize inode) i) (n + 1) dev) ↔
      (DirectOk mnt inode i ∧ dev.ReadWorks 0) ∧
        P ((readBlocks mnt inode cap (i + 1) (copiedAt (iSize inode) (i + 1)) n >>= fun rest =>
          pure ((dev.blocks (iDirect inode i)).slice 0 (if blockSize <
            iSize inode - copiedAt (iSize inode) i then blockSize
              else iSize inode - copiedAt (iSize inode) i) ++ rest)) (dev.asked (iDirect inode i))) := by
  have hroom : ¬cap < copiedAt (iSize inode) (i + 1) :=
    not_lt.mpr (le_trans (copiedAt_le _ _) hcap)
  rw [readBlocks, bind_ok (failIf_neg (not_le.mpr hi) _ _), and_assoc]
  refine (bind_failIf_iff h).trans ?_
  by_cases hok : DirectOk mnt inode i
  · have hbad : ¬(iDirect inode i = 0 ∨ mnt.blockCount ≤ iDirect inode i) := fun hbad =>
      hbad.elim hok.1 (not_le.mpr hok.2)
    rw [and_iff_right hbad, and_iff_right hok]
    refine (bind_read_iff (hcount ▸ hok.2) h').trans ?_
    rw [copiedAt_succ, bind_ok (failIf_neg hroom _ _)]
  · have hbad : iDirect inode i = 0 ∨ mnt.blockCount ≤ iDirect inode i := by
      unfold DirectOk at hok
      omega
    exact iff_of_false (fun hp => hp.1 hbad) fun hp => hok hp.1

/-- The loop ends well exactly when there are entries for all the turns and they go well. -/
theorem readBlocks_isOk_iff {n i : Nat} (hi : i ≤ directBlocks) :
    (∃ out, (readBlocks mnt inode cap i (copiedAt (iSize inode) i) n dev).1 = .ok out) ↔
      i + n ≤ directBlocks ∧ TurnsWork mnt inode dev i n := by
  induction n generalizing i dev with
  | zero => exact iff_of_true ⟨[], rfl⟩ ⟨hi, fun k hk => absurd hk (Nat.not_lt_zero k)⟩
  | succ n ih =>
      let R : Except Mcsfs1Err (List UInt8) × Blkdev → Prop := fun r => ∃ out, r.1 = .ok out
      have herr : ∀ e dev', ¬R (.error e, dev') := fun e dev' hr => nomatch hr.choose_spec
      show R _ ↔ _
      by_cases hend : directBlocks ≤ i
      · rw [readBlocks, bind_error (failIf_pos hend _ _)]
        exact iff_of_false (herr _ _) fun hp => by omega
      refine (readBlocks_succ_iff hcount hcap (not_le.mp hend) (herr _ _) (herr _ _)).trans ?_
      have hasked : mnt.blockCount = (dev.asked (iDirect inode i)).blockCount := hcount
      have hrest := ih hasked (show i + 1 ≤ directBlocks by omega)
      rw [turnsWork_succ, and_left_comm, show i + (n + 1) = i + 1 + n by omega, ← hrest]
      exact and_congr_right fun _ => bind_succeeds_iff (fun rest dev' => ⟨_, rfl⟩) _

/-- The loop leaves `direct` exactly when all its entries have gone well and it goes on. -/
theorem readBlocks_wild_iff {n i : Nat} (hi : i ≤ directBlocks) :
    (readBlocks mnt inode cap i (copiedAt (iSize inode) i) n dev).1 = .error .wild ↔
      directBlocks < i + n ∧ TurnsWork mnt inode dev i (directBlocks - i) := by
  induction n generalizing i dev with
  | zero => exact iff_of_false (fun hwild => by cases hwild) fun h => by omega
  | succ n ih =>
      let R : Except Mcsfs1Err (List UInt8) × Blkdev → Prop := fun r => r.1 = .error .wild
      show R _ ↔ _
      by_cases hend : directBlocks ≤ i
      · rw [readBlocks, bind_error (failIf_pos hend _ _)]
        exact iff_of_true rfl ⟨by omega, fun k hk => by omega⟩
      have hcorrupt : ¬R (.error .corrupt, dev) := fun hr => by cases hr
      have hio : ¬R (.error .io, dev.asked (iDirect inode i)) := fun hr => by cases hr
      refine (readBlocks_succ_iff hcount hcap (not_le.mp hend) hcorrupt hio).trans ?_
      have hasked : mnt.blockCount = (dev.asked (iDirect inode i)).blockCount := hcount
      have hrest := ih hasked (show i + 1 ≤ directBlocks by omega)
      rw [show directBlocks - i = directBlocks - (i + 1) + 1 by omega, turnsWork_succ, and_left_comm,
        show i + (n + 1) = i + 1 + n by omega, ← hrest]
      exact and_congr_right fun _ => bind_error_iff (fun rest => avoids_pure _) _

/-- Where every turn goes well, the loop copies what the size leaves of the blocks. -/
theorem readBlocks_ok {n i : Nat} (hin : i + n ≤ directBlocks) (hall : TurnsWork mnt inode dev i n) :
    readBlocks mnt inode cap i (copiedAt (iSize inode) i) n dev =
      (.ok ((contents dev.blocks (directFrom inode i n)).take
        (iSize inode - copiedAt (iSize inode) i)), dev.askedAll (directFrom inode i n)) := by
  induction n generalizing i dev with
  | zero =>
      rw [show contents dev.blocks (directFrom inode i 0) = [] from rfl, List.take_nil]
      rfl
  | succ n ih =>
      obtain ⟨hok, hall⟩ := turnsWork_succ.mp hall
      let R : Except Mcsfs1Err (List UInt8) × Blkdev → Prop := fun r =>
        r = (.ok ((contents dev.blocks (directFrom inode i (n + 1))).take
          (iSize inode - copiedAt (iSize inode) i)), dev.askedAll (directFrom inode i (n + 1)))
      show R _
      refine (readBlocks_succ_iff hcount hcap (by omega) nofun nofun).mpr ⟨hok, ?_⟩
      have hasked : mnt.blockCount = (dev.asked (iDirect inode i)).blockCount := hcount
      have hrest := ih hasked (by omega) hall
      have hleft : iSize inode - copiedAt (iSize inode) i - blockSize =
          iSize inode - copiedAt (iSize inode) (i + 1) := by
        have hsucc := copiedAt_succ (iSize inode) i
        split at hsucc
        · omega
        · omega
      have hcontents : contents dev.blocks (directFrom inode i (n + 1)) =
          (dev.blocks (iDirect inode i)).slice 0 blockSize ++
            contents dev.blocks (directFrom inode (i + 1) n) := by
        rw [directFrom_succ, contents, List.flatMap_cons]
        rfl
      show _ = _
      rw [bind_ok hrest, askedAll_cons, hcontents, List.take_append, Bytes.slice_length, hleft,
        slice_take, directFrom_succ]
      rfl

end

/-! ## The way to the inode -/

section

variable {β : Type} {dev : Blkdev} {P : Except Mcsfs1Err β × Blkdev → Prop}

/-- A lookup that finds the name. -/
theorem bind_findDirent_iff {name : Bytes} {past : UInt8} {f : Nat × Nat → M15 β}
    (h8 : 8 < dev.blockCount) (h : ∀ e dev', e ≠ .wild → ¬P (.error e, dev')) :
    P ((findDirent name past >>= f) dev) ↔ dev.ReadWorks 0 ∧
      ∃ s, target dev.blocks name past = some s ∧
        P (f (s, deIno (dev.blocks rootDirLba) s) (dev.asked rootDirLba)) := by
  rw [findDirent, Prog.bind_assoc]
  cases hv : validName name with
  | error e =>
      have htarget : target dev.blocks name past = none := by
        unfold target
        rw [hv]
      have hname : (ofExcept (Except.error e) : M15 Nat) dev = (.error e, dev) := rfl
      have hne : e ≠ .wild := by
        rcases validName_error hv with rfl | rfl <;> decide
      rw [bind_error hname, htarget]
      refine iff_of_false (h _ _ hne) ?_
      rintro ⟨-, s, hs, -⟩
      cases hs
  | ok n =>
      have htarget : target dev.blocks name past =
          findSlot (withPast (dev.blocks rootDirLba) past) name n := by
        unfold target
        rw [hv]
      have hname : (ofExcept (Except.ok n) : M15 Nat) dev = (.ok n, dev) := rfl
      have hlba : rootDirLba < dev.blockCount := show 7 < _ by omega
      rw [bind_ok hname, Prog.bind_assoc, htarget]
      refine (bind_read_iff hlba (h _ _ (by decide))).trans (and_congr_right fun _ => ?_)
      rw [Prog.bind_assoc]
      refine (bind_ofOption_iff (h _ _ (by decide))).trans (exists_congr fun s =>
        and_congr_right fun hs => ?_)
      rw [Prog.pure_bind, deIno_withPast (findSlot_used hs).1]

/-- An inode whose number may be none. -/
theorem bind_readInode_any_iff {ino : Nat} {f : Bytes → M15 β} (h8 : 8 < dev.blockCount)
    (h : ∀ e dev', e ≠ .wild → ¬P (.error e, dev')) :
    P ((readInode ino >>= f) dev) ↔ InoOk ino ∧ dev.ReadWorks 0 ∧
      P (f (inodeOf dev.blocks ino) (dev.asked (inodeLba ino))) := by
  by_cases hino : InoOk ino
  · rw [and_iff_right hino]
    exact bind_readInode_iff h8 hino (h _ _ (by decide))
  · have hbad : ino = 0 ∨ maxInodes < ino := by
      unfold InoOk at hino
      omega
    rw [readInode, Prog.bind_assoc, bind_error (failIf_pos hbad _ _)]
    exact iff_of_false (h _ _ (by decide)) fun hp => hino hp.1

end

/-- The name leads to this inode; it is that of a file and its size fits the buffer. -/
structure Opens (dev : Blkdev) (name : Bytes) (past : UInt8) (cap ino : Nat) : Prop where
  entry : ∃ s, target dev.blocks name past = some s ∧ deIno (dev.blocks rootDirLba) s = ino
  inoOk : InoOk ino
  reads : dev.ReadWorks 0 ∧ dev.ReadWorks 1
  mode : iMode (inodeOf dev.blocks ino) = modeFile
  size : iSize (inodeOf dev.blocks ino) ≤ cap

/-- The device when a read comes to the loop. -/
def Blkdev.opened (dev : Blkdev) (ino : Nat) : Blkdev := (dev.asked rootDirLba).asked (inodeLba ino)

/-- The loop of a read, and what it gives back. -/
def readFrom (mnt : Mount) (inode : Bytes) (cap : Nat) : M15 ReadOut :=
  readBlocks mnt inode cap 0 0 (blocksNeeded (iSize inode)) >>= fun bytes => pure ⟨iSize inode, bytes⟩

/-- What a read does beyond the errors of the way to the inode is what its loop does. -/
theorem read_iff {dev : Blkdev} {P : Except Mcsfs1Err ReadOut × Blkdev → Prop} {name : Bytes}
    {cap : Nat} {past : UInt8} (mnt : Mount) (h8 : 8 < dev.blockCount)
    (h : ∀ e dev', e ≠ .wild → ¬P (.error e, dev')) :
    P (read mnt name cap past dev) ↔ ∃ ino, Opens dev name past cap ino ∧
      P (readFrom mnt (inodeOf dev.blocks ino) cap (dev.opened ino)) := by
  have h8' : 8 < (dev.asked rootDirLba).blockCount := h8
  refine (bind_findDirent_iff h8 h).trans ?_
  constructor
  · rintro ⟨hread0, s, hs, hp⟩
    obtain ⟨hino, hread1, hp⟩ := (bind_readInode_any_iff h8' h).mp hp
    obtain ⟨hmode, hp⟩ := (bind_failIf_iff (h _ _ (by decide))).mp hp
    obtain ⟨hsize, hp⟩ := (bind_failIf_iff (h _ _ (by decide))).mp hp
    rw [asked_readWorks] at hread1
    exact ⟨_, ⟨⟨s, hs, rfl⟩, hino, ⟨hread0, hread1⟩, not_not.mp hmode, not_lt.mp hsize⟩, hp⟩
  · rintro ⟨ino, hopens, hp⟩
    obtain ⟨s, hs, rfl⟩ := hopens.entry
    refine ⟨hopens.reads.1, s, hs, (bind_readInode_any_iff h8' h).mpr ⟨hopens.inoOk, ?_, ?_⟩⟩
    · rw [asked_readWorks]
      exact hopens.reads.2
    · refine (bind_failIf_iff (h _ _ (by decide))).mpr ⟨not_not.mpr hopens.mode, ?_⟩
      exact (bind_failIf_iff (h _ _ (by decide))).mpr ⟨not_lt.mpr hopens.size, hp⟩

/-! ## What a read may do -/

/-- The buffer is filled with what the size leaves of these blocks, which are data blocks. -/
structure Filled (c : Blocks) (blockCount cap : Nat) (out : ReadOut) (lbas : List Nat) : Prop where
  fits : out.outLen ≤ cap
  length : out.bytes.length = out.outLen
  bytes : out.bytes = (contents c lbas).take out.outLen
  data : ∀ b, b ∈ lbas → dataStartLba ≤ b ∧ b < blockCount

/-- A read from `dev` with this result has accessed nothing outside `direct` and the buffer, and if
it succeeds it has filled the buffer from the blocks that it has asked for behind the directory and
the inode. -/
def ReadSafe (dev : Blkdev) (cap : Nat) (r : Except Mcsfs1Err ReadOut × Blkdev) : Prop :=
  r.1 ≠ .error .wild ∧ ∀ out, r.1 = .ok out → ∃ lba lbas,
    r.2.reads = lbas.reverse ++ lba :: rootDirLba :: dev.reads ∧
      Filled dev.blocks dev.blockCount cap out lbas

/-- The size of the inode or one of its blocks is none that a file has, and the loop gets there:
the sum that rounds the size up wraps around, or it goes on behind `direct`, or it takes a block
that is not a data block. -/
def BadInode (mnt : Mount) (inode : Bytes) (dev : Blkdev) : Prop :=
  2 ^ 32 - blockSize < iSize inode ∨
    (directBlocks * blockSize < iSize inode ∧ TurnsWork mnt inode dev 0 directBlocks) ∨
      (iSize inode ≤ directBlocks * blockSize ∧
        TurnsWork mnt inode dev 0 (blocksNeeded (iSize inode)) ∧
          ∃ j, j < blocksNeeded (iSize inode) ∧ iDirect inode j < dataStartLba)

theorem readSafe_error {dev dev' : Blkdev} {cap : Nat} {e : Mcsfs1Err} (he : e ≠ .wild) :
    ReadSafe dev cap (.error e, dev') := by
  refine ⟨fun hwild => he (Except.error.inj hwild), fun out hok => ?_⟩
  cases hok

theorem iSize_lt (inode : Bytes) : iSize inode < 2 ^ 32 := Bytes.load_lt inode 4 4

theorem blocksNeeded_eq (len : Nat) : blocksNeeded len = (len + 511) % 2 ^ 32 / 512 := by
  unfold blocksNeeded
  rw [show blockSize = 512 from rfl, Nat.add_sub_assoc (by decide)]

/-- A size whose sum wraps around takes no block. -/
theorem blocksNeeded_wrap {len : Nat} (hlt : len < 2 ^ 32) (hlen : 2 ^ 32 - 512 < len) :
    blocksNeeded len = 0 := by
  rw [blocksNeeded_eq]
  omega

/-- More bytes than `direct` has blocks for take more blocks. -/
theorem directBlocks_lt_blocksNeeded {len : Nat} (hlen : 4096 < len) (hwrap : len ≤ 2 ^ 32 - 512) :
    directBlocks < blocksNeeded len := by
  rw [blocksNeeded_eq, show directBlocks = 8 from rfl]
  omega

theorem blocksNeeded_le {len : Nat} (hlen : len ≤ 4096) :
    blocksNeeded len ≤ directBlocks ∧ len ≤ 512 * blocksNeeded len := by
  rw [blocksNeeded_eq, show directBlocks = 8 from rfl]
  omega

theorem contents_length (c : Blocks) (lbas : List Nat) :
    (contents c lbas).length = blockSize * lbas.length := by
  induction lbas with
  | nil => rfl
  | cons b lbas ih =>
      have hcons : contents c (b :: lbas) = (c b).slice 0 blockSize ++ contents c lbas := by
        rw [contents, List.flatMap_cons]
        rfl
      rw [hcons, List.length_append, Bytes.slice_length, ih, List.length_cons, Nat.mul_succ,
        Nat.add_comm]

theorem directFrom_length (inode : Bytes) (i n : Nat) : (directFrom inode i n).length = n := by
  rw [directFrom, List.length_map, List.length_range']

theorem mem_directFrom {inode : Bytes} {n b : Nat} :
    b ∈ directFrom inode 0 n ↔ ∃ j, j < n ∧ iDirect inode j = b := by
  simp [directFrom]

section

variable {mnt : Mount} {inode : Bytes} {cap : Nat} {dev : Blkdev}
  (hcount : mnt.blockCount = dev.blockCount) (hcap : iSize inode ≤ cap)

include hcount hcap

theorem readFrom_wild_iff : (readFrom mnt inode cap dev).1 = .error .wild ↔
    directBlocks < blocksNeeded (iSize inode) ∧ TurnsWork mnt inode dev 0 directBlocks := by
  have hloop := readBlocks_wild_iff hcount hcap (Nat.zero_le directBlocks)
    (n := blocksNeeded (iSize inode))
  rw [copiedAt_zero, Nat.zero_add, Nat.sub_zero] at hloop
  exact (bind_error_iff (fun bytes => avoids_pure _) dev).trans hloop

theorem readFrom_isOk_iff : (∃ out, (readFrom mnt inode cap dev).1 = .ok out) ↔
    blocksNeeded (iSize inode) ≤ directBlocks ∧
      TurnsWork mnt inode dev 0 (blocksNeeded (iSize inode)) := by
  have hloop := readBlocks_isOk_iff hcount hcap (Nat.zero_le directBlocks)
    (n := blocksNeeded (iSize inode))
  rw [copiedAt_zero, Nat.zero_add] at hloop
  exact (bind_succeeds_iff (fun bytes dev' => ⟨_, rfl⟩) dev).trans hloop

theorem readFrom_ok (hneed : blocksNeeded (iSize inode) ≤ directBlocks)
    (hall : TurnsWork mnt inode dev 0 (blocksNeeded (iSize inode))) :
    readFrom mnt inode cap dev =
      (.ok ⟨iSize inode, (contents dev.blocks
        (directFrom inode 0 (blocksNeeded (iSize inode)))).take (iSize inode)⟩,
          dev.askedAll (directFrom inode 0 (blocksNeeded (iSize inode)))) := by
  have hloop := readBlocks_ok hcount hcap (le_of_eq_of_le (Nat.zero_add _) hneed) hall
  rw [copiedAt_zero, Nat.sub_zero] at hloop
  exact bind_ok hloop

end

theorem Blkdev.Readable.works {dev : Blkdev} (h : dev.Readable) (k : Nat) : dev.ReadWorks k := h _

/-- A read of a file whose size and blocks are in order. -/
theorem read_ok {dev : Blkdev} {mnt : Mount} {name : Bytes} {past : UInt8} {cap ino : Nat}
    (hcount : mnt.blockCount = dev.blockCount) (h8 : 8 < dev.blockCount) (hread : dev.Readable)
    (hopens : Opens dev name past cap ino) (hsize : iSize (inodeOf dev.blocks ino) ≤ 4096)
    (hdirect : ∀ j, j < blocksNeeded (iSize (inodeOf dev.blocks ino)) →
      DirectOk mnt (inodeOf dev.blocks ino) j) :
    read mnt name cap past dev =
      (.ok ⟨iSize (inodeOf dev.blocks ino), (contents dev.blocks (directFrom
        (inodeOf dev.blocks ino) 0 (blocksNeeded (iSize (inodeOf dev.blocks ino))))).take
          (iSize (inodeOf dev.blocks ino))⟩,
        (dev.opened ino).askedAll (directFrom (inodeOf dev.blocks ino) 0
          (blocksNeeded (iSize (inodeOf dev.blocks ino))))) := by
  have hopened : mnt.blockCount = (dev.opened ino).blockCount := hcount
  have hreadable : (dev.opened ino).Readable := hread
  have hturns : TurnsWork mnt (inodeOf dev.blocks ino) (dev.opened ino) 0
      (blocksNeeded (iSize (inodeOf dev.blocks ino))) := fun k hk => by
    rw [Nat.zero_add]
    exact ⟨hdirect k hk, hreadable.works k⟩
  let R : Except Mcsfs1Err ReadOut × Blkdev → Prop := fun r =>
    r = (.ok ⟨iSize (inodeOf dev.blocks ino), (contents dev.blocks (directFrom
        (inodeOf dev.blocks ino) 0 (blocksNeeded (iSize (inodeOf dev.blocks ino))))).take
          (iSize (inodeOf dev.blocks ino))⟩,
        (dev.opened ino).askedAll (directFrom (inodeOf dev.blocks ino) 0
          (blocksNeeded (iSize (inodeOf dev.blocks ino)))))
  show R _
  refine (read_iff mnt h8 fun e dev' _ hr => nomatch hr).mpr ⟨ino, hopens, ?_⟩
  exact readFrom_ok hopened hopens.size (blocksNeeded_le hsize).1 hturns

/-- A read that ends well has filled the buffer exactly if it has taken data blocks only. -/
theorem readSafe_readFrom_iff {mnt : Mount} {inode : Bytes} {cap ino : Nat} {dev : Blkdev}
    (hcount : mnt.blockCount = dev.blockCount) (hcap : iSize inode ≤ cap)
    (hsize : iSize inode ≤ 4096)
    (hall : TurnsWork mnt inode (dev.opened ino) 0 (blocksNeeded (iSize inode))) :
    ReadSafe dev cap (readFrom mnt inode cap (dev.opened ino)) ↔
      ∀ j, j < blocksNeeded (iSize inode) → dataStartLba ≤ iDirect inode j := by
  obtain ⟨hneed, hcover⟩ := blocksNeeded_le hsize
  have hopened : mnt.blockCount = (dev.opened ino).blockCount := hcount
  have hreads : ((dev.opened ino).askedAll (directFrom inode 0 (blocksNeeded (iSize inode)))).reads =
      (directFrom inode 0 (blocksNeeded (iSize inode))).reverse ++
        inodeLba ino :: rootDirLba :: dev.reads := rfl
  rw [readFrom_ok hopened hcap hneed hall]
  constructor
  · rintro ⟨-, hfill⟩ j hj
    obtain ⟨lba, lbas, hasked, hfilled⟩ := hfill _ rfl
    -- what the device has been asked for fixes the blocks of the copy
    have hlbas : lbas = directFrom inode 0 (blocksNeeded (iSize inode)) := by
      have hsame := List.append_inj' (hreads.symm.trans hasked) rfl
      exact (List.reverse_injective hsame.1).symm
    exact (hfilled.data _ (hlbas ▸ mem_directFrom.mpr ⟨j, hj, rfl⟩)).1
  · intro hdata
    refine ⟨nofun, fun out hok => ⟨inodeLba ino, _, hreads, ?_⟩⟩
    obtain rfl := (Except.ok.inj hok).symm
    refine ⟨hcap, ?_, rfl, fun b hb => ?_⟩
    · have hlen : (contents dev.blocks (directFrom inode 0 (blocksNeeded (iSize inode)))).length =
          512 * blocksNeeded (iSize inode) := by
        rw [contents_length, directFrom_length]
        rfl
      exact (List.length_take ..).trans (min_eq_left (hlen ▸ hcover))
    · obtain ⟨j, hj, rfl⟩ := mem_directFrom.mp hb
      refine ⟨hdata j hj, ?_⟩
      rw [← hcount, ← Nat.zero_add j]
      exact (hall j hj).1.2

/-- The loop of a read is safe but for an inode that is bad. -/
theorem readFrom_safe_iff {mnt : Mount} {inode : Bytes} {cap ino : Nat} {dev : Blkdev}
    (hcount : mnt.blockCount = dev.blockCount) (hcap : iSize inode ≤ cap) :
    ReadSafe dev cap (readFrom mnt inode cap (dev.opened ino)) ↔
      ¬BadInode mnt inode (dev.opened ino) := by
  have hopened : mnt.blockCount = (dev.opened ino).blockCount := hcount
  have hwild := readFrom_wild_iff hopened hcap
  have hisOk := readFrom_isOk_iff hopened hcap
  have hmax : directBlocks * blockSize = 4096 := rfl
  have hsize : blockSize = 512 := rfl
  rw [BadInode, hmax, hsize]
  by_cases hwrap : 2 ^ 32 - 512 < iSize inode
  · -- no block is read, and nothing copied
    have hzero := blocksNeeded_wrap (iSize_lt inode) hwrap
    have hrun := readFrom_ok hopened hcap (hzero ▸ Nat.zero_le _) (hzero ▸ fun k hk => by omega)
    refine iff_of_false (fun hsafe => ?_) fun h => h (Or.inl hwrap)
    obtain ⟨lba, lbas, -, hfilled⟩ := hsafe.2 _ (congrArg Prod.fst hrun)
    have hlength := hfilled.length
    rw [hzero] at hlength
    have hnil : ([] : List UInt8).take (iSize inode) = [] := List.take_nil
    have : 0 = iSize inode := (congrArg List.length hnil).symm.trans hlength
    omega
  by_cases hbig : 4096 < iSize inode
  -- the loop goes on behind `direct` if the eight turns before do not stop it
  · have hneed := directBlocks_lt_blocksNeeded hbig (not_lt.mp hwrap)
    by_cases hall : TurnsWork mnt inode (dev.opened ino) 0 directBlocks
    · exact iff_of_false (fun hsafe => hsafe.1 (hwild.mpr ⟨hneed, hall⟩))
        fun h => h (Or.inr (Or.inl ⟨hbig, hall⟩))
    · refine iff_of_true ⟨fun h => hall (hwild.mp h).2, fun out hok => ?_⟩ ?_
      · exact absurd (hisOk.mp ⟨out, hok⟩).1 (not_le.mpr hneed)
      · rintro (h | ⟨-, h⟩ | ⟨h, -⟩)
        · exact hwrap h
        · exact hall h
        · exact absurd hbig (not_lt.mpr h)
  -- here the loop ends inside `direct`
  have hfits := not_lt.mp hbig
  by_cases hall : TurnsWork mnt inode (dev.opened ino) 0 (blocksNeeded (iSize inode))
  · rw [readSafe_readFrom_iff hcount hcap hfits hall]
    constructor
    · rintro hdata (h | ⟨h, -⟩ | ⟨-, -, j, hj, hlow⟩)
      · exact hwrap h
      · exact hbig h
      · exact absurd (hdata j hj) (not_le.mpr hlow)
    · intro hbad j hj
      by_contra hlow
      exact hbad (Or.inr (Or.inr ⟨hfits, hall, j, hj, not_le.mp hlow⟩))
  · refine iff_of_true ⟨fun h => ?_, fun out hok => absurd (hisOk.mp ⟨out, hok⟩).2 hall⟩ ?_
    · exact absurd (hwild.mp h).1 (not_lt.mpr (blocksNeeded_le hfits).1)
    · rintro (h | ⟨h, -⟩ | ⟨-, h, -⟩)
      · exact hwrap h
      · exact hbig h
      · exact hall h

/-- **Reading is safe.** On every image that mounts, whatever reads fail, a read of any name stays
inside `direct` and the buffer and fills the buffer from data blocks, unless the name leads to an
inode that is bad. -/
theorem read_safe_iff {dev : Blkdev} {mnt : Mount} (hmount : (mount dev).1 = .ok mnt)
    (name : Bytes) (cap : Nat) (past : UInt8) :
    ReadSafe (mount dev).2 cap (read mnt name cap past (mount dev).2) ↔
      ¬∃ ino, Opens (mount dev).2 name past cap ino ∧
        BadInode mnt (inodeOf dev.blocks ino) ((mount dev).2.opened ino) := by
  obtain ⟨hcount, h8, hdev⟩ := mount_ok hmount
  rw [hdev]
  let P : Except Mcsfs1Err ReadOut × Blkdev → Prop := fun r =>
    ¬ReadSafe ((dev.asked sbLba).asked (inodeLba rootIno)) cap r
  have herr : ∀ e dev', e ≠ .wild → ¬P (.error e, dev') := fun e dev' he h => h (readSafe_error he)
  have h8' : 8 < ((dev.asked sbLba).asked (inodeLba rootIno)).blockCount := h8
  have hread : P (read mnt name cap past ((dev.asked sbLba).asked (inodeLba rootIno))) ↔ _ :=
    read_iff mnt h8' herr
  refine not_iff_not.mp (hread.trans ?_)
  rw [not_not]
  refine exists_congr fun ino => and_congr_right fun hopens => ?_
  have hcount' : mnt.blockCount = ((dev.asked sbLba).asked (inodeLba rootIno)).blockCount := hcount
  exact (not_congr (readFrom_safe_iff hcount' hopens.size)).trans not_not

/-- An image with one file, which has nothing in it. -/
def emptyFile : Blkdev := (create nameA 0 (format freshDevice).2).2

/-- An image with one file of 600 bytes. -/
def grownImage : Blkdev :=
  { (write nameA Bytes.zero 600 0 emptyFile).2 with readFails := fun _ => false }

/-- The file is read into 1000 bytes. -/
theorem read_safe_grown : ReadSafe (mount grownImage).2 1000
    (read ⟨16, 8⟩ nameA 1000 0 (mount grownImage).2) := by
  have hmount : (mount grownImage).1 = .ok ⟨16, 8⟩ := by decide +kernel
  have hslot : target (mount grownImage).2.blocks nameA 0 = some 0 := by decide +kernel
  refine (read_safe_iff hmount nameA 1000 0).mpr ?_
  rintro ⟨ino, hopens, hbad⟩
  obtain ⟨s, hs, rfl⟩ := hopens.entry
  obtain rfl : 0 = s := Option.some.inj (hslot.symm.trans hs)
  have hsize : iSize (inodeOf grownImage.blocks
      (deIno ((mount grownImage).2.blocks rootDirLba) 0)) = 600 := by decide +kernel
  have hdirect : ∀ j, j < 2 → dataStartLba ≤ iDirect (inodeOf grownImage.blocks
      (deIno ((mount grownImage).2.blocks rootDirLba) 0)) j := by decide +kernel
  unfold BadInode at hbad
  rw [hsize] at hbad
  rcases hbad with hwrap | ⟨hbig, -⟩ | ⟨-, -, j, hj, hlow⟩
  · exact absurd hwrap (by decide)
  · exact absurd hbig (by decide)
  · exact absurd (hdirect j hj) (not_le.mpr hlow)

/-- An image with a file of 4096 bytes, whose size in the inode table has been made 5000. -/
def oversized : Blkdev :=
  let dev := (write nameA Bytes.zero 4096 0 emptyFile).2
  { dev with blocks := Function.update dev.blocks 3 ((dev.blocks 3).store 64 4 5000) }

/-- The image mounts, and a read goes on behind `direct`. -/
theorem read_leaves_direct : (mount oversized).1 = .ok ⟨16, 8⟩ ∧ validName nameA = .ok 1 ∧
    ¬ReadSafe (mount oversized).2 5000 (read ⟨16, 8⟩ nameA 5000 0 (mount oversized).2) := by
  have hwild : (read ⟨16, 8⟩ nameA 5000 0 (mount oversized).2).1 = .error .wild := by decide +kernel
  exact ⟨by decide +kernel, by decide +kernel, fun hsafe => hsafe.1 hwild⟩

end Mcsos.Mcsfs1
