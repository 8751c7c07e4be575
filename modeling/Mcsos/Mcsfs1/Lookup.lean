import Mcsos.Mcsfs1.Create

set_option autoImplicit false

/-! # What `find_dirent` decides (`fs/mcsfs1/mcsfs1.c`)

`NOENT` and `EXIST` say whether a name has been found. Nothing but `find_dirent` decides that: the
rest of an operation returns neither.
-/

namespace Mcsos.Mcsfs1

open Prog

variable {D : Disk} {c : Blocks} {e : Mcsfs1Err}

/-- The errors that say whether a name has been found. -/
def Lookup (e : Mcsfs1Err) : Prop := e = .noent ∨ e = .exist

instance (e : Mcsfs1Err) : Decidable (Lookup e) := inferInstanceAs (Decidable (_ ∨ _))

theorem Lookup.ne {e' : Mcsfs1Err} (h : Lookup e) (h' : ¬Lookup e') : e' ≠ e := fun he =>
  h' (he ▸ h)

/-! ## The parts of an operation -/

theorem devRead_avoids (he : Lookup e) (lba : Nat) : (devRead lba).Avoids e := by
  intro dev h
  unfold devRead at h
  split_ifs at h
  · exact he.ne (by decide) (Except.error.inj h)
  · exact he.ne (by decide) (Except.error.inj h)

theorem devWrite_avoids (he : Lookup e) (lba : Nat) (buf : Bytes) :
    (devWrite lba buf).Avoids e := by
  intro dev h
  unfold devWrite at h
  split_ifs at h
  · exact he.ne (by decide) (Except.error.inj h)
  · exact he.ne (by decide) (Except.error.inj h)

theorem devFlush_avoids (he : Lookup e) : devFlush.Avoids e := by
  intro dev h
  unfold devFlush at h
  split_ifs at h
  · exact he.ne (by decide) (Except.error.inj h)

theorem readInode_avoids (he : Lookup e) (ino : Nat) : (readInode ino).Avoids e :=
  (avoids_failIf (he.ne (by decide))).bind fun _ =>
    (avoids_failIf (he.ne (by decide))).bind fun _ =>
      (devRead_avoids he _).bind fun _ => avoids_pure _

theorem writeInode_avoids (he : Lookup e) (ino : Nat) (inode : Bytes) :
    (writeInode ino inode).Avoids e :=
  (avoids_failIf (he.ne (by decide))).bind fun _ =>
    (avoids_failIf (he.ne (by decide))).bind fun _ =>
      (devRead_avoids he _).bind fun _ => devWrite_avoids he _ _

theorem storeBmaps_avoids (he : Lookup e) (ib bb : Bytes) : (storeBmaps ib bb).Avoids e :=
  (devWrite_avoids he _ _).bind fun _ => devWrite_avoids he _ _

theorem noBlock_not_lookup (blockCount : Nat) : ¬Lookup (noBlock blockCount) := by
  unfold noBlock
  split_ifs
  · decide
  · decide

theorem allocInodeBlock_avoids (he : Lookup e) : allocInodeBlock.Avoids e :=
  (devRead_avoids he _).bind fun _ => (devRead_avoids he _).bind fun _ =>
    (avoids_asks _).bind fun _ => (avoids_ofOption _ (he.ne (by decide))).bind fun _ =>
      (avoids_ofOption _ (he.ne (noBlock_not_lookup _))).bind fun _ =>
        (storeBmaps_avoids he _ _).bind fun _ => avoids_pure _

theorem allocDataBlock_avoids (he : Lookup e) : allocDataBlock.Avoids e :=
  (devRead_avoids he _).bind fun _ => (devRead_avoids he _).bind fun _ =>
    (avoids_asks _).bind fun _ => (avoids_ofOption _ (he.ne (noBlock_not_lookup _))).bind fun _ =>
      (storeBmaps_avoids he _ _).bind fun _ => avoids_pure _

theorem freeInodeAndBlocks_avoids (he : Lookup e) (ino : Nat) (inode : Bytes) :
    (freeInodeAndBlocks ino inode).Avoids e :=
  (devRead_avoids he _).bind fun _ => (devRead_avoids he _).bind fun _ =>
    (avoids_asks _).bind fun _ => (avoids_failIf (he.ne (by decide))).bind fun _ =>
      storeBmaps_avoids he _ _

theorem allocBlocks_avoids (he : Lookup e) (n i : Nat) (inode : Bytes) :
    (allocBlocks inode i n).Avoids e := by
  induction n generalizing i inode with
  | zero => exact avoids_pure _
  | succ n ih =>
      rw [allocBlocks]
      split_ifs
      · exact (allocDataBlock_avoids he).bind fun _ => ih _ _
      · exact ih _ _

theorem writeBlocks_avoids (he : Lookup e) (inode buf : Bytes) (len n i written : Nat) :
    (writeBlocks inode buf len i written n).Avoids e := by
  induction n generalizing i written with
  | zero => exact avoids_pure _
  | succ n ih => exact (devWrite_avoids he _ _).bind fun _ => ih _ _

theorem readBlocks_avoids (he : Lookup e) (mnt : Mount) (inode : Bytes) (cap n i copied : Nat) :
    (readBlocks mnt inode cap i copied n).Avoids e := by
  induction n generalizing i copied with
  | zero => exact avoids_pure _
  | succ n ih =>
      exact (avoids_failIf (he.ne (by decide))).bind fun _ =>
        (avoids_failIf (he.ne (by decide))).bind fun _ => (devRead_avoids he _).bind fun _ =>
          (avoids_failIf (he.ne (by decide))).bind fun _ =>
            (ih _ _).bind fun _ => avoids_pure _

/-! ## `find_dirent` -/

theorem findDirent_cases (h8 : 8 < D.blockCount) {dev : Blkdev} (hdev : Has D c dev) {name : Bytes}
    {n : Nat} (hv : validName name = .ok n) (past : UInt8) :
    (target c name past = none ∧ (findDirent name past dev).1 = .error .noent) ∨
      ∃ s r, target c name past = some s ∧ (findDirent name past dev).1 = .ok r := by
  have hends := does_findDirent h8 name past dev hdev
  rcases hr : findDirent name past dev with ⟨e | r, dev'⟩
  · obtain ⟨c', -, -, hnone, rfl⟩ := hends.error hr
    refine Or.inl ⟨hnone, ?_⟩
    unfold findError
    rw [hv]
  · obtain ⟨c', -, -, hsome, -⟩ := hends.ok hr
    exact Or.inr ⟨r.1, r, hsome, rfl⟩

section

variable {dev : Blkdev} {name : Bytes} {n : Nat} (h8 : 8 < D.blockCount) (hdev : Has D c dev)
  (hv : validName name = .ok n) (past : UInt8)

include h8 hdev hv

theorem findDirent_noent_iff :
    (findDirent name past dev).1 = .error .noent ↔ target c name past = none := by
  rcases findDirent_cases h8 hdev hv past with ⟨hnone, he⟩ | ⟨s, r, hsome, hr⟩
  · exact iff_of_true he hnone
  · rw [hr, hsome]
    exact iff_of_false nofun nofun

/-! ## The operations -/

theorem unlink_noent_iff :
    (unlink name past dev).1 = .error .noent ↔ target c name past = none := by
  have he : Lookup .noent := Or.inl rfl
  rw [← findDirent_noent_iff h8 hdev hv past]
  refine bind_error_iff (fun r => ?_) dev
  exact (readInode_avoids he _).bind fun _ => (avoids_failIf (he.ne (by decide))).bind fun _ =>
    (devRead_avoids he _).bind fun _ => (devWrite_avoids he _ _).bind fun _ =>
      (freeInodeAndBlocks_avoids he _ _).bind fun _ => (writeInode_avoids he _ _).bind fun _ =>
        devFlush_avoids he

theorem read_noent_iff (mnt : Mount) (cap : Nat) :
    (read mnt name cap past dev).1 = .error .noent ↔ target c name past = none := by
  have he : Lookup .noent := Or.inl rfl
  rw [← findDirent_noent_iff h8 hdev hv past]
  refine bind_error_iff (fun r => ?_) dev
  exact (readInode_avoids he _).bind fun _ => (avoids_failIf (he.ne (by decide))).bind fun _ =>
    (avoids_failIf (he.ne (by decide))).bind fun _ =>
      (readBlocks_avoids he _ _ _ _ _ _).bind fun _ => avoids_pure _

/-- A write of more than a file can have does not come to the name. -/
theorem write_noent_iff (buf : Bytes) (len : Nat) :
    (write name buf len past dev).1 = .error .noent ↔
      len ≤ directBlocks * blockSize ∧ target c name past = none := by
  have he : Lookup .noent := Or.inl rfl
  unfold write
  by_cases hlen : directBlocks * blockSize < len
  · rw [bind_error (failIf_pos hlen _ dev)]
    exact iff_of_false (fun h => he.ne (by decide) (Except.error.inj h)) fun h =>
      not_le.mpr hlen h.1
  · rw [bind_ok (failIf_neg hlen _ dev), and_iff_right (not_lt.mp hlen),
      ← findDirent_noent_iff h8 hdev hv past]
    refine bind_error_iff (fun r => ?_) dev
    exact (readInode_avoids he _).bind fun _ => (avoids_failIf (he.ne (by decide))).bind fun _ =>
      (allocBlocks_avoids he _ _ _).bind fun _ => (writeBlocks_avoids he _ _ _ _ _ _).bind fun _ =>
        (writeInode_avoids he _ _).bind fun _ => devFlush_avoids he

theorem create_exist_iff :
    (create name past dev).1 = .error .exist ↔ ∃ s, target c name past = some s := by
  have he : Lookup .exist := Or.inr rfl
  have hname : (ofExcept (validName name) : M15 Nat) dev = (.ok n, dev) := by
    rw [hv]
    rfl
  unfold create
  rw [bind_ok hname]
  rcases hr : findDirent name past dev with ⟨r, dev'⟩
  have hfound : attempt (findDirent name past) dev = (.ok r, dev') := by
    unfold attempt
    rw [hr]
  rw [bind_ok hfound]
  rcases findDirent_cases h8 hdev hv past with ⟨hnone, hf⟩ | ⟨s, x, hsome, hf⟩
  · obtain rfl : r = .error .noent := by rwa [hr] at hf
    rw [bind_ok (failIf_neg (by decide) _ dev'), hnone]
    refine iff_of_false ?_ nofun
    exact ((devRead_avoids he _).bind fun _ => (avoids_ofOption _ (he.ne (by decide))).bind fun _ =>
      (allocInodeBlock_avoids he).bind fun _ => (writeInode_avoids he _ _).bind fun _ =>
        (devWrite_avoids he _ _).bind fun _ => devFlush_avoids he) dev'
  · obtain rfl : r = .ok x := by rwa [hr] at hf
    have hok : (Except.ok x : Except Mcsfs1Err (Nat × Nat)).isOk = true := rfl
    rw [bind_error (failIf_pos hok _ dev')]
    exact iff_of_true rfl ⟨s, hsome⟩

end

end Mcsos.Mcsfs1
