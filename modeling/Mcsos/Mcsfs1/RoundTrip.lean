import Mcsos.Mcsfs1.Names
import Mcsos.Mcsfs1.FsckImage

set_option autoImplicit false

/-! # Reading what has been written

On a sound image a read gives the data of the file that the name leads to. A write that succeeds
makes that data the bytes of its buffer, so a read behind it gives these bytes; the data of the
other files is what it was.
-/

namespace Mcsos.Mcsfs1

open Prog

/-! ## Data as a list of blocks -/

/-- The blocks of an inode one after the other, byte by byte. -/
theorem contents_directFrom (c : Blocks) (inode : Bytes) (n : Nat) :
    contents c (directFrom inode 0 n) = (List.range (blockSize * n)).map fun k =>
      c (iDirect inode (k / blockSize)) (k % blockSize) := by
  induction n with
  | zero => rfl
  | succ n ih =>
      have hblock : contents c [iDirect inode n] = (List.range blockSize).map fun k =>
          c (iDirect inode ((blockSize * n + k) / blockSize)) ((blockSize * n + k) % blockSize) := by
        have hone : contents c [iDirect inode n] = (c (iDirect inode n)).slice 0 blockSize := by
          rw [contents, List.flatMap_cons, List.flatMap_nil, List.append_nil]
        rw [hone, Bytes.slice]
        apply List.map_congr_left
        intro k hk
        have hlt : k < blockSize := List.mem_range.mp hk
        rw [Nat.mul_add_div (by decide), Nat.div_eq_of_lt hlt, Nat.mul_add_mod, Nat.mod_eq_of_lt hlt,
          Nat.add_zero, Nat.zero_add]
      -- the induction is on the number of blocks, so the last block is split off
      have hsplit : directFrom inode 0 (n + 1) = directFrom inode 0 n ++ [iDirect inode n] := by
        rw [directFrom, List.range'_concat, List.map_append, Nat.zero_add, Nat.one_mul]
        rfl
      rw [hsplit, contents, List.flatMap_append, Nat.mul_succ, List.range_add, List.map_append,
        List.map_map]
      exact congrArg₂ _ ih hblock

theorem contents_take {c : Blocks} {inode : Bytes} {n len : Nat} (hlen : len ≤ blockSize * n) :
    (contents c (directFrom inode 0 n)).take len = (List.range len).map fun k =>
      c (iDirect inode (k / blockSize)) (k % blockSize) := by
  rw [contents_directFrom, ← List.map_take, List.take_range, Nat.min_eq_left hlen]

/-! ## Reading a file -/

section

variable {D : Disk} {dev : Blkdev} {name : Bytes} {past : UInt8} {s : Nat}

/-- The inode of a file in a sound image, as the operations read it. -/
theorem Inv.file_inode {blockCount : Nat} {c : Blocks} (h : Inv blockCount c) (hs : s < direntCount)
    (hu : (metaOf c).Used s) : InoOk (deIno (c rootDirLba) s) ∧
      (metaOf c).file s = inodeView (inodeOf c (deIno (c rootDirLba) s)) := by
  have hino := h.data.inoOk hu
  have hfile := file_eq h hu
  rw [entry_eq c hs] at hino hfile
  exact ⟨hino, hfile⟩

/-- What the loop of a read copies is the data of the file. -/
theorem fileData_eq_take {c : Blocks} {inode : Bytes} (hfile : (metaOf c).file s = inodeView inode)
    (hsize : iSize inode ≤ 4096) :
    (contents c (directFrom inode 0 (blocksNeeded (iSize inode)))).take (iSize inode) =
      fileData c s := by
  rw [contents_take (blocksNeeded_le hsize).2, fileData, hfile]
  apply List.map_congr_left
  intro k hk
  have hlt : k < iSize inode := List.mem_range.mp hk
  have hblock : k / blockSize < directBlocks := by
    show k / 512 < 8
    omega
  have hview : (inodeView inode).direct (k / blockSize) = iDirect inode (k / blockSize) :=
    if_pos hblock
  rw [fileByte, hfile, hview]

/-- On a sound image a read gives the data of the file. -/
theorem Sound.read_data (h : Sound D dev) {mnt : Mount} (hcount : mnt.blockCount = dev.blockCount)
    (hs : target dev.blocks name past = some s) {cap : Nat}
    (hcap : ((metaOf dev.blocks).file s).size ≤ cap) :
    (read mnt name cap past dev).1 =
      .ok ⟨((metaOf dev.blocks).file s).size, fileData dev.blocks s⟩ := by
  obtain ⟨hslot, hu⟩ := target_used hs
  obtain ⟨hino, hfile⟩ := h.inv.file_inode hslot hu
  have hok := h.inv.data.file s hu
  rw [hfile] at hcap hok
  have hsize : iSize (inodeOf dev.blocks (deIno (dev.blocks rootDirLba) s)) ≤ 4096 := hok.size
  have hread : dev.Readable := h.has.readable
  have h8 : 8 < dev.blockCount := by
    rw [h.has.blockCount]
    exact h.gt
  have hopens : Opens dev name past cap (deIno (dev.blocks rootDirLba) s) :=
    ⟨⟨s, hs, rfl⟩, hino, ⟨hread.works 0, hread.works 1⟩, hok.mode, hcap⟩
  -- all blocks that the size takes are there, since the image is sound
  have hrun := read_ok hcount h8 hread hopens hsize fun j hj => by
    have hlt : j < needed (iSize (inodeOf dev.blocks (deIno (dev.blocks rootDirLba) s))) :=
      lt_of_lt_of_le hj (blocksNeeded_le_needed _)
    have hne := hok.needed j hlt
    have hdirect := hok.direct_lt j hne
    have hview : (inodeView (inodeOf dev.blocks (deIno (dev.blocks rootDirLba) s))).direct j =
        iDirect (inodeOf dev.blocks (deIno (dev.blocks rootDirLba) s)) j :=
      if_pos (lt_of_lt_of_le hlt (needed_le hsize))
    rw [hview] at hne hdirect
    exact ⟨hne, by rw [hcount, h.has.blockCount]; exact hdirect⟩
  rw [hrun, fileData_eq_take hfile hsize, hfile]
  rfl

/-- For a short name the byte behind the directory does not matter. -/
theorem target_past {c : Blocks} {n : Nat} (hv : validName name = .ok n) (hn : n < maxName)
    (past past' : UInt8) : target c name past = target c name past' := by
  have hmatch : ∀ i past, i < direntCount →
      (direntMatches (withPast (c rootDirLba) past) name n i = true ↔
        deIno (c rootDirLba) i ≠ 0 ∧ slotKey (c rootDirLba) i = key name) := fun i past hi => by
    rw [direntMatches_iff hv hi past]
    refine and_congr_right fun _ => and_iff_left_of_imp fun hkey hfull => ?_
    rw [hkey, (key_length hv).1] at hfull
    omega
  unfold target
  rw [hv]
  refine Loop.findFrom_congr fun i _ hi => Bool.eq_iff_iff.mpr ?_
  have hi16 : i < direntCount := by omega
  exact (hmatch i past hi16).trans (hmatch i past' hi16).symm

end

/-! ## After a write -/

/-- After a write the data of the file is what the buffer has. -/
theorem Wrote.fileData_eq {D : Disk} {c c' : Blocks} {s len : Nat} {buf : Bytes} {x : Inode}
    (w : Wrote D c s len buf x c') : ((metaOf c').file s).size = len ∧
      fileData c' s = buf.slice 0 len := by
  have hentry : (metaOf c').entry = (metaOf c).entry := congrArg entriesOf w.dir
  have hfile : (metaOf c').file s = x := by
    unfold Meta.file
    rw [w.inode, hentry, Function.update_self]
  rw [fileData, hfile, w.size]
  refine ⟨rfl, List.map_congr_left fun k hk => ?_⟩
  have hlt : k < len := List.mem_range.mp hk
  have hsplit : blockSize * (k / blockSize) + k % blockSize = k := Nat.div_add_mod k blockSize
  have hdata := w.data (k / blockSize) (k % blockSize) (lt_needed hlt w.fits)
    (Nat.mod_lt k (by decide)) (by omega)
  rw [fileByte, hfile, hdata, hsplit, Nat.zero_add]

/-- **Write and read.** In every state that a run on a fault-free device reaches, a write to a short
name that succeeds makes a read behind it give the bytes that were written, and leaves the size and
the data of all other files as they were. -/
theorem callRun_write_read {mnt : Mount} {allowed : Blkdev → Call → Prop} {dev dev' : Blkdev}
    {hist : History} (hfault : dev.FaultFree) (hok : (format dev).1 = .ok ())
    (hmount : (mount (format dev).2).1 = .ok mnt)
    (hrun : CallRun mnt allowed (format dev).2 hist dev') {name buf : Bytes} {n len : Nat}
    {past : UInt8} (hv : validName name = .ok n) (hn : n < maxName)
    (hwrite : (write name buf len past dev').1 = .ok ()) {cap : Nat} (hcap : len ≤ cap)
    (past' : UInt8) :
    (read mnt name cap past' (write name buf len past dev').2).1 = .ok ⟨len, buf.slice 0 len⟩ ∧
      ∃ s, target dev'.blocks name past = some s ∧
        ∀ i, (metaOf dev'.blocks).Used i →
          ((metaOf dev'.blocks).entry i).ino ≠ ((metaOf dev'.blocks).entry s).ino →
          ((metaOf (write name buf len past dev').2.blocks).file i).size =
              ((metaOf dev'.blocks).file i).size ∧
            fileData (write name buf len past dev').2.blocks i = fileData dev'.blocks i := by
  have h := ((format_sound hfault.2 hok).1).run hrun
  have hfaulty := not_faulty hfault
  have hends := does_writeFile_cuts (E := fun _ _ => True) h.gt h.le h.inv name buf len past
    (fun _ _ _ => trivial) (fun _ _ _ _ _ _ _ _ _ _ => trivial) (fun hf => absurd hf hfaulty)
    dev' h.has
  rcases hr : write name buf len past dev' with ⟨e | ⟨⟩, dev''⟩
  · rw [hr] at hwrite
    cases hwrite
  obtain ⟨c', hdev'', s, x, hs, w⟩ := hends.ok hr
  obtain rfl := hdev''.blocks_eq
  have hsound : Sound dev.disk dev'' := ⟨h.gt, h.le, hdev'', w.good.inv⟩
  have hcount : mnt.blockCount = dev''.blockCount := by
    rw [(mount_ok hmount).1, hdev''.blockCount, ← (format_sound hfault.2 hok).1.has.blockCount]
  -- the write does not touch the directory
  have hfound : target dev''.blocks name past' = some s := by
    have hdir : target dev''.blocks name past = target dev'.blocks name past := by
      unfold target
      rw [w.dir]
    rw [target_past hv hn past' past, hdir, hs]
  obtain ⟨hsize, hdata⟩ := w.fileData_eq
  refine ⟨?_, s, hs, fun i hi hne => ?_⟩
  · have hread := hsound.read_data hcount hfound (hsize.trans_le hcap)
    rwa [hsize, hdata] at hread
  · have hother : some s ≠ some i := fun he => hne (by rw [Option.some.inj he])
    exact ⟨congrArg Inode.size (w.good.kept.file i hi hother), w.good.fileData_eq h.inv hi hother⟩

/-- A device after a format and a create. -/
def oneFile : Blkdev := (Call.exec ⟨16, 8⟩ (.create nameA 0) (format freshDevice).2).2

/-- 600 bytes in a new file. -/
theorem callRun_write_read_grown :
    (read ⟨16, 8⟩ nameA 4096 0 (write nameA UInt8.ofNat 600 0 oneFile).2).1 =
      .ok ⟨600, Bytes.slice UInt8.ofNat 0 600⟩ := by
  have hfault : freshDevice.FaultFree := ⟨fun _ => rfl, fun _ => rfl⟩
  have hok : (format freshDevice).1 = .ok () := by decide +kernel
  have hmount : (mount (format freshDevice).2).1 = .ok ⟨16, 8⟩ := by decide +kernel
  have hwrite : (write nameA UInt8.ofNat 600 0 oneFile).1 = .ok () := by decide +kernel
  have hv : validName nameA = .ok 1 := by decide +kernel
  have hstart : CallRun ⟨16, 8⟩ (fun _ _ => True) (format freshDevice).2 [] _ := .start
  have hrun := hstart.call (.create nameA 0) trivial
  exact (callRun_write_read hfault hok hmount hrun hv (by decide) hwrite (by decide) 0).1

end Mcsos.Mcsfs1
