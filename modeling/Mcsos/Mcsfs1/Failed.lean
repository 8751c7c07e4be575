import Mcsos.Mcsfs1.Names

set_option autoImplicit false

/-! # Operations that fail

On a device that does not fail, an operation that returns an error has changed nothing, with one
exception: `mcsfs1_write` marks the blocks that it needs one by one, and does not unmark them when
there are no more.
-/

namespace Mcsos.Mcsfs1

open Prog

/-- The data blocks that are not marked. -/
def freeBlocks (blockCount : Nat) (m : Meta) : Finset Nat :=
  (Finset.range blockCount).filter fun b => dataStartLba ≤ b ∧ m.bb b = false

/-- The entries of `direct` before `n` that have no block. -/
def missing (x : Inode) (n : Nat) : Finset Nat := (Finset.range n).filter fun j => x.direct j = 0

/-- There are not as many free blocks as `len` bytes are missing, but there are some. -/
def Short (blockCount : Nat) (c : Blocks) (s len : Nat) : Prop :=
  0 < (freeBlocks blockCount (metaOf c)).card ∧
    (freeBlocks blockCount (metaOf c)).card < (missing ((metaOf c).file s) (needed len)).card

theorem mem_freeBlocks {blockCount : Nat} {c : Blocks} {b : Nat} :
    b ∈ freeBlocks blockCount (metaOf c) ↔ FreeBlock blockCount c b := by
  unfold freeBlocks
  rw [Finset.mem_filter, Finset.mem_range]
  exact ⟨fun h => ⟨h.2.1, h.1, h.2.2⟩, fun h => ⟨h.lt, h.ge, h.bit⟩⟩

theorem mem_missing {x : Inode} {n j : Nat} : j ∈ missing x n ↔ j < n ∧ x.direct j = 0 := by
  unfold missing
  rw [Finset.mem_filter, Finset.mem_range]

section

variable {D : Disk} {c c' : Blocks} {s n : Nat} {x : Inode}

/-- Where the first loop runs out of blocks, it has used up all that were free. -/
theorem Reserved.free_lt (g : Reserved D c s n c' x) {i : Nat} (hi : i < n)
    (hzero : x.direct i = 0) (hnone : ∀ lba, ¬FreeBlock D.blockCount c' lba) :
    (freeBlocks D.blockCount (metaOf c)).card < (missing ((metaOf c).file s) n).card := by
  -- the free blocks went to the missing entries, and entry `i` has got none
  have hmem : i ∈ missing ((metaOf c).file s) n := mem_missing.mpr ⟨hi, g.old_zero hzero⟩
  have hsub : freeBlocks D.blockCount (metaOf c) ⊆
      ((missing ((metaOf c).file s) n).erase i).image x.direct := fun b hb => by
    have hfree := mem_freeBlocks.mp hb
    have hmarked : (metaOf c').bb b = true := by
      by_contra hbit
      exact hnone b ⟨hfree.ge, hfree.lt, Bool.eq_false_of_not_eq_true hbit⟩
    rcases (g.bb b).mp hmarked with hold | ⟨j, rfl, hne, hold⟩
    · rw [hfree.bit] at hold
      cases hold
    -- the loop takes blocks for the entries before `n` only
    · have hj : j < n := by
        by_contra hge
        exact hne ((g.tail j (not_lt.mp hge)).trans hold)
      refine Finset.mem_image_of_mem _ (Finset.mem_erase.mpr ⟨?_, mem_missing.mpr ⟨hj, hold⟩⟩)
      rintro rfl
      exact hne hzero
  calc (freeBlocks D.blockCount (metaOf c)).card
      ≤ (((missing ((metaOf c).file s) n).erase i).image x.direct).card := Finset.card_le_card hsub
    _ ≤ ((missing ((metaOf c).file s) n).erase i).card := Finset.card_image_le
    _ < (missing ((metaOf c).file s) n).card := Finset.card_erase_lt_of_mem hmem

/-- Where it does not, there were enough. -/
theorem missing_le (hall : ∀ j, j < n → x.direct j ≠ 0)
    (hnew : ∀ j, x.direct j ≠ 0 → ((metaOf c).file s).direct j = 0 →
      FreeBlock D.blockCount c (x.direct j))
    (hdistinct : ∀ j k, x.direct j ≠ 0 → x.direct j = x.direct k → j = k) :
    (missing ((metaOf c).file s) n).card ≤ (freeBlocks D.blockCount (metaOf c)).card := by
  refine Finset.card_le_card_of_injOn x.direct (fun j hj => ?_) fun j hj k _ he => ?_
  · obtain ⟨hlt, hzero⟩ := mem_missing.mp hj
    exact mem_freeBlocks.mpr (hnew j (hall j hlt) hzero)
  · exact hdistinct j k (hall j (mem_missing.mp hj).1) he

end

/-- The call is a write that runs out of blocks on the way. -/
def Call.RunsOut (blockCount : Nat) (c : Blocks) : Call → Prop
  | .write name _ len past => ∃ s, Mcsfs1.target c name past = some s ∧
      len ≤ directBlocks * blockSize ∧ Short blockCount c s len
  | _ => False

/-- After an error: all blocks are as they were but for the block bitmap, and that one too unless
`out`. -/
structure Undone (out : Prop) (c : Blocks) (e : Mcsfs1Err) (c' : Blocks) : Prop where
  others : ∀ b, b ≠ blockBmapLba → Bytes.AgreeOn (c' b) (c b) 0 blockSize
  bmap : Bytes.AgreeOn (c' blockBmapLba) (c blockBmapLba) 0 blockSize ↔ ¬out
  nospc : out → e = .nospc

theorem Undone.unchanged {out : Prop} (hout : ¬out) (c : Blocks) (e : Mcsfs1Err) :
    Undone out c e c :=
  ⟨fun _ _ => Bytes.AgreeOn.refl _ _ _, iff_of_true (Bytes.AgreeOn.refl _ _ _) hout,
    fun h => absurd h hout⟩

section

variable {D : Disk} {c c' : Blocks} {s n : Nat} {x : Inode}

/-- Where the first loop runs out of blocks, the bitmap has changed unless none was free. -/
theorem Reserved.bmap_iff (g : Reserved D c s n c' x)
    (hnone : ∀ lba, ¬FreeBlock D.blockCount c' lba) :
    Bytes.AgreeOn (c' blockBmapLba) (c blockBmapLba) 0 blockSize ↔
      freeBlocks D.blockCount (metaOf c) = ∅ := by
  constructor
  · intro hsame
    apply Finset.eq_empty_iff_forall_notMem.mpr
    intro b hb
    have hfree := mem_freeBlocks.mp hb
    have hbits : (metaOf c').bb = (metaOf c).bb := bits_congr hsame
    exact hnone b ⟨hfree.ge, hfree.lt, (congrFun hbits b).trans hfree.bit⟩
  · intro hempty
    refine agreeOn_of_bits fun b => (g.bb b).trans ⟨?_, Or.inl⟩
    rintro (hold | ⟨j, rfl, hne, hold⟩)
    · exact hold
    · have hmem := mem_freeBlocks.mpr (g.new j hne hold)
      rw [hempty] at hmem
      exact absurd hmem (Finset.notMem_empty _)

theorem does_write_undone (hgood : ¬D.Faulty) (h8 : 8 < D.blockCount) (hbc : D.blockCount ≤ 4096)
    (h : Inv D.blockCount c) (name buf : Bytes) (len : Nat) (past : UInt8) :
    Does D (write name buf len past) c
      (fun _ _ => ¬(Call.write name buf len past).RunsOut D.blockCount c)
      (Undone ((Call.write name buf len past).RunsOut D.blockCount c) c) := by
  refine (does_writeFile_cuts h8 hbc h name buf len past (fun e _ hlate => ?_)
    (fun s c' x i hs hlen g hi hzero hnone => ?_) fun hf => absurd hf hgood).mono (fun _ c' hq => ?_)
    fun _ _ he => he
  -- too long, or no such file
  · refine Undone.unchanged ?_ c e
    rintro ⟨s, hs, hlen, -⟩
    exact absurd (hlate s hs) (not_lt.mpr hlen)
  -- the first loop has run out of blocks
  · have hlt := g.free_lt hi hzero hnone
    refine ⟨g.blocks, (g.bmap_iff hnone).trans ?_, fun _ => rfl⟩
    constructor
    · rintro hempty ⟨t, ht, -, hpos, -⟩
      rw [hempty] at hpos
      exact absurd hpos (Nat.lt_irrefl 0)
    · intro hout
      by_contra hne
      exact hout ⟨s, hs, hlen, Finset.card_pos.mpr (Finset.nonempty_iff_ne_empty.mpr hne), hlt⟩
  · obtain ⟨s, x, hs, w⟩ := hq
    rintro ⟨t, ht, -, -, hlt⟩
    obtain rfl : s = t := Option.some.inj (hs.symm.trans ht)
    exact absurd hlt (not_lt.mpr (missing_le w.full w.new w.distinct))

/-- How a call ends on a sound image of a device that does not fail. -/
theorem Call.does_undone (hgood : ¬D.Faulty) (h8 : 8 < D.blockCount) (hbc : D.blockCount ≤ 4096)
    (h : Inv D.blockCount c) (mnt : Mount) (op : Call) :
    Does D (op.exec mnt) c (fun _ _ => ¬op.RunsOut D.blockCount c)
      (Undone (op.RunsOut D.blockCount c) c) := by
  -- nothing fails, so an operation that stops has stopped before its first write
  have hcut : ∀ {t : Option Nat} {e : Mcsfs1Err} {c' : Blocks}, Cut D False t c e c' →
      Undone False c e c' := fun {t e c'} hcut => by
    have hsame := hcut.same (fun he => hgood (hcut.faulty he)) fun hl => hl.1
    rw [hsame]
    exact Undone.unchanged id c e
  cases op with
  | create name past =>
      exact ((does_create h8 hbc h name past).mono (fun _ _ hq => hq) fun _ _ he => hcut he).bind
        fun _ _ _ => does_pure id
  | write name buf len past =>
      exact (does_write_undone hgood h8 hbc h name buf len past).bind fun _ _ hq => does_pure hq
  | read name cap past =>
      exact ((does_readFile h8 h mnt name cap past).mono (fun _ _ hq => hq) fun _ _ he =>
        hcut he).bind fun _ _ _ => does_pure id
  | unlink name past =>
      exact ((does_unlink h8 hbc h name past).mono (fun _ _ hq => hq) fun _ _ he => hcut he).bind
        fun _ _ _ => does_pure id

end

/-- **Failed operations.** In every state that a run on a fault-free device reaches, a call that
returns an error leaves all blocks as they were but for the block bitmap, and that one too unless
the call is a write that runs out of blocks after it has marked some. Such a write fails with
`NOSPC`. -/
theorem callRun_failed {mnt : Mount} {allowed : Blkdev → Call → Prop} {dev dev' : Blkdev}
    {hist : History} (hfault : dev.FaultFree) (hok : (format dev).1 = .ok ())
    (hrun : CallRun mnt allowed (format dev).2 hist dev') (op : Call) :
    (op.RunsOut dev'.blockCount dev'.blocks → (op.exec mnt dev').1 = .error .nospc) ∧
      ∀ e, (op.exec mnt dev').1 = .error e →
        (∀ b, b ≠ blockBmapLba →
          Bytes.AgreeOn ((op.exec mnt dev').2.blocks b) (dev'.blocks b) 0 blockSize) ∧
        (Bytes.AgreeOn ((op.exec mnt dev').2.blocks blockBmapLba) (dev'.blocks blockBmapLba)
          0 blockSize ↔ ¬op.RunsOut dev'.blockCount dev'.blocks) := by
  have h := ((format_sound hfault.2 hok).1).run hrun
  have hcount : dev'.blockCount = dev.disk.blockCount := h.has.blockCount
  have hdoes := op.does_undone (not_faulty hfault) h.gt h.le h.inv mnt dev' h.has
  rw [hcount]
  rcases hr : op.exec mnt dev' with ⟨e | out, dev''⟩
  · obtain ⟨c', hdev'', hundone⟩ := hdoes.error hr
    obtain rfl := hdev''.blocks_eq
    refine ⟨fun hout => congrArg _ (hundone.nospc hout), fun e' _ => ⟨hundone.others, hundone.bmap⟩⟩
  · obtain ⟨c', -, hnot⟩ := hdoes.ok hr
    exact ⟨fun hout => absurd hout hnot, fun e' he => nomatch he⟩

/-- The device after a format and two creates: six of the eight data blocks are free. -/
def twoFiles : Blkdev :=
  (Call.exec ⟨16, 8⟩ (.create nameB 0)
    (Call.exec ⟨16, 8⟩ (.create nameA 0) (format freshDevice).2).2).2

theorem callRun_twoFiles : CallRun ⟨16, 8⟩ (fun _ _ => True) (format freshDevice).2
    [(.create nameB 0, .ok []), (.create nameA 0, .ok [])] twoFiles := by
  have hcreate : (Call.exec ⟨16, 8⟩ (.create nameA 0) (format freshDevice).2).1 = .ok [] := by
    decide +kernel
  have hcreate' : (Call.exec ⟨16, 8⟩ (.create nameB 0)
      (Call.exec ⟨16, 8⟩ (.create nameA 0) (format freshDevice).2).2).1 = .ok [] := by
    decide +kernel
  have hstart : CallRun ⟨16, 8⟩ (fun _ _ => True) (format freshDevice).2 [] _ := .start
  have hrun := (hstart.call (.create nameA 0) trivial).call (.create nameB 0) trivial
  rw [hcreate, hcreate'] at hrun
  exact hrun

/-- A third create finds the name. -/
theorem callRun_failed_exist :
    (Call.exec ⟨16, 8⟩ (.create nameA 0) twoFiles).1 = .error .exist ∧
    Bytes.AgreeOn ((Call.exec ⟨16, 8⟩ (.create nameA 0) twoFiles).2.blocks rootDirLba)
      (twoFiles.blocks rootDirLba) 0 blockSize := by
  have hexist : (Call.exec ⟨16, 8⟩ (.create nameA 0) twoFiles).1 = .error .exist := by
    decide +kernel
  have hcall := callRun_failed ⟨fun _ => rfl, fun _ => rfl⟩ (by decide +kernel) callRun_twoFiles
    (.create nameA 0)
  exact ⟨hexist, (hcall.2 .exist hexist).1 rootDirLba (by decide)⟩

/-- A write of 4096 bytes needs seven blocks more: it marks the six that are free and fails. -/
theorem callRun_write_leaks :
    CallRun ⟨16, 8⟩ (fun _ _ => True) (format freshDevice).2
      [(.create nameB 0, .ok []), (.create nameA 0, .ok [])] twoFiles ∧
    (Call.exec ⟨16, 8⟩ (.write nameA Bytes.zero 4096 0) twoFiles).1 = .error .nospc ∧
    ¬Bytes.AgreeOn ((Call.exec ⟨16, 8⟩ (.write nameA Bytes.zero 4096 0) twoFiles).2.blocks
      blockBmapLba) (twoFiles.blocks blockBmapLba) 0 blockSize := by
  refine ⟨callRun_twoFiles, by decide +kernel, fun hsame => ?_⟩
  have hbyte : (Call.exec ⟨16, 8⟩ (.write nameA Bytes.zero 4096 0) twoFiles).2.blocks blockBmapLba 1 ≠
      twoFiles.blocks blockBmapLba 1 := by decide +kernel
  exact hbyte (hsame 1 (by decide) (by decide))

end Mcsos.Mcsfs1
