import Mcsos.Mcsfs1j.FsReadImage

set_option autoImplicit false

/-! # Reading after an fsck

`m16_fsck` on a device whose blocks hold anything first puts the journal in place, as a mount does,
and then looks at what that has left. What it accepts is a device on which every name of the
directory can be read, although names may be there twice, be empty or have no NUL: a lookup ends at
the first entry with the name, and fsck has looked at that one as well.
-/

namespace Mcsos.Mcsfs1j

open Prog

/-- What `m16_fsck` checks of the metadata. -/
structure Checked (m : Meta) : Prop where
  root_bit : Bitmap.test m.ib 0 = true
  root_used : iUsed m.inodes 0 = 1
  root_kind : iKind m.inodes 0 = 2
  root_direct : iDirect0 m.inodes 0 = rootDirLba
  system : ∀ b, b < dataStartLba → Bitmap.test m.bb b = true
  entries : ∀ i, i < dirCount → dUsed m.dir i ≠ 0 → EntryOk m i

/-- What `m16_fsck` accepts, and the device that it leaves then. -/
theorem fsck_ok_iff {dev dev' : Blockdev} (hd : Steady dev) : fsck dev = (.ok (), dev') ↔
    Mounts dev ∧ Checked (metaOf (recovered dev)) ∧ (journalRecover dev).2 = dev' := by
  let P : Except M16Err Unit × Blockdev → Prop := fun r => r = (.ok (), dev')
  have herr : ∀ e s, ¬P (.error e, s) := by
    intro e s h
    cases h
  show P (fsck dev) ↔ _
  rw [fsck, bind_mount_iff hd fun e s _ => herr e s]
  apply and_congr_right
  intro hm
  obtain ⟨-, hblocks, htotal⟩ := journalRecover_recovers hd hm.1
  have hmeta : readMeta (journalRecover dev).2 =
      (.ok (metaOf (recovered dev)), (journalRecover dev).2) := by
    rw [← hblocks]
    exact readMeta_valid fun lba hlba => validLba_of_total htotal (lt_trans hlba (by decide))
  rw [bind_ok hmeta, bind_failIf_iff (herr _ _), bind_failIf_iff (herr _ _),
    bind_ok (asks_totalBlocks htotal), ← Prog.bind_pure (failIf _ _), bind_failIf_iff (herr _ _),
    system_none_iff, entries_none_iff]
  simp only [not_or, not_not, Bool.not_eq_false]
  constructor
  · rintro ⟨⟨h1, h2, h3, h4⟩, hsystem, hentries, hp⟩
    exact ⟨⟨h1, h2, h3, h4, hsystem, hentries⟩, (Prod.mk.inj hp).2⟩
  · rintro ⟨hc, hp⟩
    exact ⟨⟨hc.root_bit, hc.root_used, hc.root_kind, hc.root_direct⟩, hc.system, hc.entries,
      Prod.ext rfl hp⟩

/-! ## The device after a mount -/

/-- A recovery leaves an empty journal. -/
theorem journalEmpty_recovered {dev : Blockdev} (hd : Steady dev) (h : Recovers dev) :
    JournalEmpty (journalRecover dev).2 := by
  obtain ⟨-, hblocks, -⟩ := journalRecover_recovers hd h
  by_cases he : JournalEmpty dev
  · rw [journalRecover_empty (hd.valid (by decide)) he]
    exact he
  · refine journalEmpty_of_zero ?_
    rw [hblocks, recovered, if_neg he, Function.update_self]

/-- A second mount has nothing to do. -/
theorem mount_again {dev : Blockdev} (hd : Steady dev) (h : Mounts dev) :
    mount (journalRecover dev).2 = (.ok (recovered dev 0), (journalRecover dev).2) := by
  obtain ⟨-, hblocks, htotal⟩ := journalRecover_recovers hd h.1
  have hvalid : ∀ lba, lba < maxBlocks → validLba (journalRecover dev).2 lba := fun _ =>
    validLba_of_total htotal
  have hrun := journalRecover_empty (hvalid journalStart (by decide)) (journalEmpty_recovered hd h.1)
  rw [← hblocks]
  refine mount_super hrun (hvalid 0 (by decide)) ?_
  rw [hblocks]
  exact h.2

/-! ## Names of the directory -/

/-- The name that a used entry has is found, there or at an entry in front of it. -/
theorem findDirent_name {dir name : Bytes} {i : Nat} (hi : i < dirCount) (hused : dUsed dir i ≠ 0)
    (hname : ∀ k, k < maxName → name k = dName dir i k) :
    ∃ slot, findDirent dir name = some slot ∧ slot < dirCount ∧ dUsed dir slot ≠ 0 := by
  have hsame : streq (dName dir i) name = true := by
    rw [streq_iff]
    apply CStr.chars_congr
    intro k _ hk
    rw [Nat.zero_add]
    exact (hname k hk).symm
  rcases hslot : findDirent dir name with _ | slot
  · have hnone := Loop.findFrom_none_iff.mp hslot i (Nat.zero_le i) (by omega)
    rw [decide_eq_true hused, hsame] at hnone
    cases hnone
  · obtain ⟨-, hlt, hp, -⟩ := Loop.findFrom_some_iff.mp hslot
    rw [Bool.and_eq_true, decide_eq_true_iff] at hp
    exact ⟨slot, rfl, by omega, hp.1⟩

/-- A read that comes to a sound entry gives as many bytes as its inode says. -/
theorem readMounted_entryOk {dev : Blockdev} {name : Bytes} {outCap slot : Nat}
    (htotal : dev.totalBlocks = maxBlocks)
    (hslot : findDirent (dev.blocks rootDirLba) name = some slot)
    (hok : EntryOk (metaOf dev.blocks) slot) (hcap : blockSize ≤ outCap) :
    ∃ bytes, readMounted name outCap dev = (.ok bytes, dev) ∧ bytes.length ≤ blockSize := by
  let ino := dIno (dev.blocks rootDirLba) slot
  let bytes := (dev.blocks (iDirect0 (inodesOf dev.blocks) ino)).slice 0
    (iSize (inodesOf dev.blocks) ino)
  have hopens : Opens dev.blocks outCap ino :=
    ⟨hok.ino_lt, hok.used, hok.kind, le_trans hok.size_le hcap, hok.direct_lt⟩
  have hcopy : copyOut dev.blocks ino = .ok bytes := if_neg (not_lt.mpr hok.size_le)
  have hread : readMounted name outCap dev = (.ok bytes, dev) := by
    refine (readMounted_iff (P := fun r => r = (.ok bytes, dev)) (fun e s _ h => ?_) htotal).mpr
      ⟨ino, ⟨slot, hslot, rfl⟩, hopens, by rw [hcopy]⟩
    cases h
  refine ⟨bytes, hread, ?_⟩
  calc bytes.length = iSize (inodesOf dev.blocks) ino := Bytes.slice_length _ _ _
    _ ≤ blockSize := hok.size_le

/-- After an fsck that has accepted the device, a mount succeeds and writes nothing, and every name
of the directory is read. -/
theorem fsck_reads {dev : Blockdev} (hd : Steady dev) (hok : (fsck dev).1 = .ok ()) :
    (∃ sb, mount (fsck dev).2 = (.ok sb, (fsck dev).2)) ∧
    ∀ i, i < dirCount → dUsed ((fsck dev).2.blocks rootDirLba) i ≠ 0 →
      ∀ name : Bytes,
        (∀ k, k < maxName → name k = dName ((fsck dev).2.blocks rootDirLba) i k) →
      ∀ outCap, blockSize ≤ outCap → ∃ bytes,
        readFile name outCap (fsck dev).2 = (.ok bytes, (fsck dev).2) ∧
          bytes.length ≤ blockSize := by
  obtain ⟨hm, hchecked, hdev⟩ := (fsck_ok_iff hd).mp (Prod.ext hok rfl : fsck dev = (.ok (), _))
  obtain ⟨-, hblocks, htotal⟩ := journalRecover_recovers hd hm.1
  have hmount := mount_again hd hm
  rw [← hblocks] at hchecked
  rw [hdev] at hchecked htotal hmount
  refine ⟨⟨_, hmount⟩, fun i hi hused name hname outCap hcap => ?_⟩
  -- the entry that is found need not be the one whose name it is
  obtain ⟨slot, hslot, hlt, hslotUsed⟩ := findDirent_name hi hused hname
  rw [readFile_eq, bind_ok hmount]
  exact readMounted_entryOk htotal hslot (hchecked.entries slot hlt hslotUsed) hcap

/-- The device of `withFile` with bitmaps and a root inode that say the same. -/
def withChecked (size : Nat) : Blockdev :=
  let dev := withFile size dataStartLba
  { dev with
    blocks := Function.update (Function.update (Function.update dev.blocks inodeBitmapLba
      (Bitmap.set (Bitmap.set Bytes.zero 0) 1)) blockBitmapLba (formatBitmap (dataStartLba + 1)))
      inodeTableLba (setInode formatInodes 1 1 size dataStartLba) }

/-- The only file of a device that is accepted. -/
theorem fsck_reads_three : (fsck (withChecked 3)).1 = .ok () ∧
    ∃ bytes, readFile nameA 512 (fsck (withChecked 3)).2 = (.ok bytes, (fsck (withChecked 3)).2) ∧
      bytes.length ≤ blockSize := by
  have hok : (fsck (withChecked 3)).1 = .ok () := by decide +kernel
  have hused : dUsed ((fsck (withChecked 3)).2.blocks rootDirLba) 0 ≠ 0 := by decide +kernel
  have hname : ∀ k, k < maxName →
      nameA k = dName ((fsck (withChecked 3)).2.blocks rootDirLba) 0 k := by decide +kernel
  have hd : Steady (withChecked 3) := ⟨rfl, Int.negSucc_lt_zero 0⟩
  exact ⟨hok, (fsck_reads hd hok).2 0 (by decide) hused nameA hname 512 (le_refl 512)⟩

end Mcsos.Mcsfs1j
