import Mcsos.Mcsfs1.Device

set_option autoImplicit false

/-! # One call of the driver after the other

Every read, write and flush of the device may fail, each on its own. The rules here follow an
operation from call to call: a result that an operation does not have when it stops early is one
that it has when this call and all the later ones succeed.
-/

namespace Mcsos.Mcsfs1

open Prog

/-- The device behind a read of `lba`, whether it has failed or not. -/
def Blkdev.asked (dev : Blkdev) (lba : Nat) : Blkdev := { dev with reads := lba :: dev.reads }

/-- The device behind a write or a flush that has failed. -/
def Blkdev.refused (dev : Blkdev) : Blkdev := { dev with calls := dev.calls + 1 }

/-- The device behind a write of `lba`. -/
def Blkdev.stored (dev : Blkdev) (lba : Nat) (buf : Bytes) : Blkdev :=
  { dev with calls := dev.calls + 1, blocks := put dev.blocks lba buf }

/-- The next read but `k` succeeds. -/
def Blkdev.ReadWorks (dev : Blkdev) (k : Nat) : Prop := dev.readFails (dev.reads.length + k) = false

/-- The next write but `k` succeeds. -/
def Blkdev.WriteWorks (dev : Blkdev) (k : Nat) : Prop := dev.fails (dev.calls + k) = false

instance (dev : Blkdev) (k : Nat) : Decidable (dev.ReadWorks k) := inferInstanceAs (Decidable (_ = _))

instance (dev : Blkdev) (k : Nat) : Decidable (dev.WriteWorks k) :=
  inferInstanceAs (Decidable (_ = _))

section Fields

variable (dev : Blkdev) (lba k : Nat) (buf : Bytes)

@[simp] theorem asked_blockCount : (dev.asked lba).blockCount = dev.blockCount := rfl
@[simp] theorem asked_blocks : (dev.asked lba).blocks = dev.blocks := rfl
@[simp] theorem asked_writeWorks : (dev.asked lba).WriteWorks k ↔ dev.WriteWorks k := Iff.rfl
@[simp] theorem refused_blocks : dev.refused.blocks = dev.blocks := rfl
@[simp] theorem stored_blockCount : (dev.stored lba buf).blockCount = dev.blockCount := rfl
@[simp] theorem stored_blocks : (dev.stored lba buf).blocks = put dev.blocks lba buf := rfl
@[simp] theorem stored_readWorks : (dev.stored lba buf).ReadWorks k ↔ dev.ReadWorks k := Iff.rfl

@[simp] theorem asked_readWorks : (dev.asked lba).ReadWorks k ↔ dev.ReadWorks (k + 1) := by
  show dev.readFails (dev.reads.length + 1 + k) = false ↔ _
  rw [Nat.add_right_comm, Nat.add_assoc]
  rfl

@[simp] theorem stored_writeWorks : (dev.stored lba buf).WriteWorks k ↔ dev.WriteWorks (k + 1) := by
  show dev.fails (dev.calls + 1 + k) = false ↔ _
  rw [Nat.add_right_comm, Nat.add_assoc]
  rfl

end Fields

section Rules

variable {β : Type} {dev : Blkdev} {P : Except Mcsfs1Err β × Blkdev → Prop}

theorem devRead_ok {lba : Nat} (hlba : lba < dev.blockCount) (hread : dev.ReadWorks 0) :
    devRead lba dev = (.ok (dev.blocks lba), dev.asked lba) := by
  have hfail : dev.readFails dev.reads.length = false := hread
  rw [devRead, if_neg (not_le.mpr hlba), if_neg (by simp [hfail])]
  rfl

theorem devRead_error {lba : Nat} (hlba : lba < dev.blockCount) (hread : ¬dev.ReadWorks 0) :
    devRead lba dev = (.error .io, dev.asked lba) := by
  have hfail : dev.readFails dev.reads.length = true := Bool.eq_true_of_not_eq_false hread
  rw [devRead, if_neg (not_le.mpr hlba), if_pos hfail]
  rfl

theorem devWrite_ok {lba : Nat} {buf : Bytes} (hlba : lba < dev.blockCount)
    (hwrite : dev.WriteWorks 0) : devWrite lba buf dev = (.ok (), dev.stored lba buf) := by
  have hfail : dev.fails dev.calls = false := hwrite
  rw [devWrite, if_neg (not_le.mpr hlba), if_neg (by simp [hfail])]
  rfl

theorem devWrite_error {lba : Nat} {buf : Bytes} (hlba : lba < dev.blockCount)
    (hwrite : ¬dev.WriteWorks 0) : devWrite lba buf dev = (.error .io, dev.refused) := by
  have hfail : dev.fails dev.calls = true := Bool.eq_true_of_not_eq_false hwrite
  rw [devWrite, if_neg (not_le.mpr hlba), if_pos hfail]
  rfl

theorem bind_read_iff {lba : Nat} {f : Bytes → M15 β} (hlba : lba < dev.blockCount)
    (h : ¬P (.error .io, dev.asked lba)) :
    P ((devRead lba >>= f) dev) ↔ dev.ReadWorks 0 ∧ P (f (dev.blocks lba) (dev.asked lba)) := by
  by_cases hread : dev.ReadWorks 0
  · rw [bind_ok (devRead_ok hlba hread), and_iff_right hread]
  · rw [bind_error (devRead_error hlba hread)]
    exact iff_of_false h fun hp => hread hp.1

theorem bind_write_iff {lba : Nat} {buf : Bytes} {f : Unit → M15 β} (hlba : lba < dev.blockCount)
    (h : ¬P (.error .io, dev.refused)) :
    P ((devWrite lba buf >>= f) dev) ↔ dev.WriteWorks 0 ∧ P (f () (dev.stored lba buf)) := by
  by_cases hwrite : dev.WriteWorks 0
  · rw [bind_ok (devWrite_ok hlba hwrite), and_iff_right hwrite]
  · rw [bind_error (devWrite_error hlba hwrite)]
    exact iff_of_false h fun hp => hwrite hp.1

theorem bind_storeBmaps_iff {ib bb : Bytes} {f : Unit → M15 β} (h8 : 8 < dev.blockCount)
    (h : ¬P (.error .io, dev.refused))
    (h' : ¬P (.error .io, (dev.stored inodeBmapLba ib).refused)) :
    P ((storeBmaps ib bb >>= f) dev) ↔ dev.WriteWorks 0 ∧ dev.WriteWorks 1 ∧
      P (f () ((dev.stored inodeBmapLba ib).stored blockBmapLba bb)) := by
  have hib : inodeBmapLba < dev.blockCount := show 1 < _ by omega
  have hbb : blockBmapLba < (dev.stored inodeBmapLba ib).blockCount :=
    show 2 < dev.blockCount by omega
  rw [storeBmaps, Prog.bind_assoc]
  refine (bind_write_iff hib h).trans (and_congr_right fun _ => ?_)
  exact (bind_write_iff hbb h').trans (and_congr_left' (stored_writeWorks dev inodeBmapLba 0 ib))

theorem bind_readInode_iff {ino : Nat} {f : Bytes → M15 β} (h8 : 8 < dev.blockCount)
    (hino : InoOk ino) (h : ¬P (.error .io, dev.asked (inodeLba ino))) :
    P ((readInode ino >>= f) dev) ↔
      dev.ReadWorks 0 ∧ P (f (inodeOf dev.blocks ino) (dev.asked (inodeLba ino))) := by
  have hlba := inodeLba_lt hino
  rw [readInode, Prog.bind_assoc, bind_ok (failIf_neg hino.not_bad _ dev), Prog.bind_assoc,
    bind_ok (failIf_neg hino.lba_not_bad _ dev), Prog.bind_assoc, bind_read_iff (by omega) h]
  rfl

theorem bind_writeInode_iff {ino : Nat} {inode : Bytes} {f : Unit → M15 β} (h8 : 8 < dev.blockCount)
    (hino : InoOk ino) (h : ¬P (.error .io, dev.asked (inodeLba ino)))
    (h' : ¬P (.error .io, (dev.asked (inodeLba ino)).refused)) :
    P ((writeInode ino inode >>= f) dev) ↔ dev.ReadWorks 0 ∧ dev.WriteWorks 0 ∧
      P (f () ((dev.asked (inodeLba ino)).stored (inodeLba ino)
        ((dev.blocks (inodeLba ino)).copy (inodeOff ino) inode 0 inodeSize))) := by
  have hlba := inodeLba_lt hino
  rw [writeInode, Prog.bind_assoc, bind_ok (failIf_neg hino.not_bad _ dev), Prog.bind_assoc,
    bind_ok (failIf_neg hino.lba_not_bad _ dev), Prog.bind_assoc]
  refine (bind_read_iff (by omega) h).trans (and_congr_right fun _ => ?_)
  have hasked : inodeLba ino < (dev.asked (inodeLba ino)).blockCount :=
    show _ < dev.blockCount by omega
  exact bind_write_iff hasked h'

end Rules

end Mcsos.Mcsfs1
