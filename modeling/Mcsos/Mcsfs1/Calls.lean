import Mcsos.Mcsfs1.Format

set_option autoImplicit false

/-! # Runs of the file system

A run is a list of calls of the four operations on a formatted device. Which of the writes and
flushes fail is up to the device; an operation that meets one ends there, and the run goes on with
the next call. Every image that a run reaches is sound, and every call keeps the files that it is
not about.
-/

namespace Mcsos.Mcsfs1

variable {D : Disk} {c c' : Blocks}

/-! ## Calls -/

/-- The operations on files; `past` is what `find_dirent` reads behind the directory block. -/
inductive Call where
  | create (name : Bytes) (past : UInt8)
  | write (name buf : Bytes) (len : Nat) (past : UInt8)
  | read (name : Bytes) (cap : Nat) (past : UInt8)
  | unlink (name : Bytes) (past : UInt8)

/-- The call, and the bytes that it copies out. -/
def Call.exec (mnt : Mount) : Call → M15 (List UInt8)
  | .create name past => do
    Mcsfs1.create name past
    pure []
  | .write name buf len past => do
    Mcsfs1.write name buf len past
    pure []
  | .read name cap past => do
    let out ← Mcsfs1.read mnt name cap past
    pure out.bytes
  | .unlink name past => do
    Mcsfs1.unlink name past
    pure []

/-- The slot of the file that the call may change. -/
def Call.target (c : Blocks) : Call → Option Nat
  | .create _ _ => none
  | .write name _ _ past => Mcsfs1.target c name past
  | .read _ _ _ => none
  | .unlink name past => Mcsfs1.target c name past

/-- A write that runs out of blocks keeps those that it has. -/
def Call.Leaks : Call → Prop
  | .write _ _ _ _ => True
  | _ => False

/-- The blocks after a call that ends well. -/
def Call.Result (D : Disk) (c c' : Blocks) : Call → Prop
  | .create name past => ∃ s ino lba nameLen, Created D.blockCount name past c s ino lba nameLen ∧
      c' = created c s ino lba name nameLen
  | .write name _ len past => ∃ s x, Mcsfs1.target c name past = some s ∧ Written D c s len x c'
  | .read _ _ _ => c' = c
  | .unlink name past => ∃ s, Mcsfs1.target c name past = some s ∧
      c' = unlinked D.blockCount c s

theorem Call.does (h8 : 8 < D.blockCount) (hbc : D.blockCount ≤ 4096) (h : Inv D.blockCount c)
    (mnt : Mount) (op : Call) :
    Does D (op.exec mnt) c (fun _ c' => op.Result D c c') (Cut D op.Leaks (op.target c) c) := by
  cases op with
  | create name past =>
      exact (does_create h8 hbc h name past).bind fun _ _ hq => does_pure hq
  | write name buf len past =>
      exact (does_writeFile h8 hbc h name buf len past).bind fun _ _ hq => does_pure hq
  | read name cap past =>
      exact (does_readFile h8 h mnt name cap past).bind fun _ _ hq => does_pure hq.symm
  | unlink name past =>
      exact (does_unlink h8 hbc h name past).bind fun _ _ hq => does_pure hq

theorem Call.Result.good (hbc : D.blockCount ≤ 4096) (h : Inv D.blockCount c) {op : Call}
    (hr : op.Result D c c') : Good D.blockCount (op.target c) c c' := by
  cases op with
  | create name past =>
      obtain ⟨s, ino, lba, nameLen, w, rfl⟩ := hr
      exact w.good hbc h
  | write name buf len past =>
      obtain ⟨s, x, hs, w⟩ := hr
      show Good D.blockCount (Mcsfs1.target c name past) c c'
      rw [hs]
      exact w.good
  | read name cap past =>
      obtain rfl : c' = c := hr
      exact Good.refl h none
  | unlink name past =>
      obtain ⟨s, hs, rfl⟩ := hr
      obtain ⟨hslot, hu⟩ := target_used hs
      show Good D.blockCount (Mcsfs1.target c name past) c _
      rw [hs]
      exact good_unlinked h hslot hu

/-- How a call ends on a sound image. -/
theorem Call.exec_cases (h8 : 8 < D.blockCount) (hbc : D.blockCount ≤ 4096)
    (h : Inv D.blockCount c) {dev : Blkdev} (hdev : Has D c dev) (mnt : Mount) (op : Call) :
    ∃ c', Has D c' (op.exec mnt dev).2 ∧
      ((∃ out, (op.exec mnt dev).1 = .ok out ∧ op.Result D c c') ∨
        ∃ e, (op.exec mnt dev).1 = .error e ∧ Cut D op.Leaks (op.target c) c e c') := by
  have hends := op.does h8 hbc h mnt dev hdev
  rcases hr : op.exec mnt dev with ⟨e | out, dev'⟩
  · obtain ⟨c', hdev', hcut⟩ := hends.error hr
    exact ⟨c', hdev', Or.inr ⟨e, rfl, hcut⟩⟩
  · obtain ⟨c', hdev', hresult⟩ := hends.ok hr
    exact ⟨c', hdev', Or.inl ⟨out, rfl, hresult⟩⟩

/-- Cut off or not, a call leaves a sound image and keeps the other files. -/
theorem Call.exec_good (h8 : 8 < D.blockCount) (hbc : D.blockCount ≤ 4096)
    (h : Inv D.blockCount c) {dev : Blkdev} (hdev : Has D c dev) (mnt : Mount) (op : Call) :
    ∃ c', Has D c' (op.exec mnt dev).2 ∧ Good D.blockCount (op.target c) c c' := by
  obtain ⟨c', hdev', ⟨out, -, hr⟩ | ⟨e, -, hcut⟩⟩ := op.exec_cases h8 hbc h hdev mnt
  · exact ⟨c', hdev', hr.good hbc h⟩
  · exact ⟨c', hdev', hcut.good⟩

/-! ## Runs -/

/-- The calls of a run with what they returned, the latest first. -/
abbrev History := List (Call × Except Mcsfs1Err (List UInt8))

/-- The devices that a run of `allowed` calls can reach from `dev0`, with the history. -/
inductive CallRun (mnt : Mount) (allowed : Blkdev → Call → Prop) (dev0 : Blkdev) :
    History → Blkdev → Prop
  | start : CallRun mnt allowed dev0 [] dev0
  | call {hist : History} {dev : Blkdev} (op : Call) (hrun : CallRun mnt allowed dev0 hist dev)
      (hop : allowed dev op) :
      CallRun mnt allowed dev0 ((op, (op.exec mnt dev).1) :: hist) (op.exec mnt dev).2

/-- A sound image on a device of a size that can be formatted. -/
structure Sound (D : Disk) (dev : Blkdev) : Prop where
  gt : 8 < D.blockCount
  le : D.blockCount ≤ 4096
  has : Has D dev.blocks dev
  inv : Inv D.blockCount dev.blocks

theorem Has.blocks_eq {dev : Blkdev} (h : Has D c dev) : c = dev.blocks := h.blocks.symm

/-- What does not change of a device. -/
def Blkdev.disk (dev : Blkdev) : Disk := ⟨dev.blockCount, dev.fails⟩

/-- A format that ends well leaves a sound image. -/
theorem format_sound {dev : Blkdev} (hreads : dev.Readable) (hok : (format dev).1 = .ok ()) :
    Sound dev.disk (format dev).2 ∧ dev.blockCount ≤ blockSize * 8 ∧
      ∃ c₀, c₀ rootDirLba = Bytes.zero ∧ (format dev).2.blocks = formatted dev.blockCount c₀ := by
  have hends := does_format dev.disk dev.blocks dev ⟨rfl, rfl, rfl, hreads⟩
  rcases hr : format dev with ⟨e | ⟨⟩, dev0⟩
  · rw [hr] at hok
    cases hok
  obtain ⟨c', hdev', hmin, hmax, c₀, hzero, rfl⟩ := hends.ok hr
  have hge : 16 ≤ dev.disk.blockCount := hmin
  have hdir : c₀ rootDirLba = Bytes.zero := hzero rootDirLba (show 7 < _ by omega)
  have hblocks : dev0.blocks = formatted dev.disk.blockCount c₀ := hdev'.blocks
  refine ⟨⟨by omega, hmax, ?_, ?_⟩, hmax, c₀, hdir, hblocks⟩
  · show Has dev.disk dev0.blocks dev0
    rwa [hblocks]
  · show Inv dev.disk.blockCount dev0.blocks
    rw [hblocks]
    exact formatted_inv hmax hdir

theorem Sound.exec {dev : Blkdev} (h : Sound D dev) (mnt : Mount) (op : Call) :
    Sound D (op.exec mnt dev).2 ∧
      Good D.blockCount (op.target dev.blocks) dev.blocks (op.exec mnt dev).2.blocks := by
  obtain ⟨c', hdev', g⟩ := op.exec_good h.gt h.le h.inv h.has mnt
  obtain rfl := hdev'.blocks_eq
  exact ⟨⟨h.gt, h.le, hdev', g.inv⟩, g⟩

theorem Sound.run {mnt : Mount} {allowed : Blkdev → Call → Prop} {dev0 dev : Blkdev}
    {hist : History} (h : Sound D dev0) (hrun : CallRun mnt allowed dev0 hist dev) :
    Sound D dev := by
  induction hrun with
  | start => exact h
  | call op _ _ ih => exact (ih.exec mnt op).1

/-- On a sound image `mcsfs1_fsck` finds nothing. -/
theorem Sound.fsck {dev : Blkdev} (h : Sound D dev) : (fsck dev).1 = .ok () := by
  have hends := does_fsck h.gt h.le h.inv dev h.has
  rcases hr : Mcsfs1.fsck dev with ⟨e | ⟨⟩, dev'⟩
  · obtain ⟨c', -, hfalse⟩ := hends.error hr
    exact hfalse.elim
  · rfl

/-! ## What a run cannot break -/

/-- Byte `k` of the file in slot `s`. -/
def fileByte (c : Blocks) (s k : Nat) : UInt8 :=
  c (((metaOf c).file s).direct (k / blockSize)) (k % blockSize)

/-- The bytes of the file in slot `s`. -/
def fileData (c : Blocks) (s : Nat) : List UInt8 :=
  (List.range ((metaOf c).file s).size).map (fileByte c s)

/-- A byte of a file is in one of the blocks that the file must have. -/
theorem lt_needed {len k : Nat} (h : k < len) (hlen : len ≤ directBlocks * blockSize) :
    k / blockSize < needed len := by
  have h4096 : len ≤ 4096 := hlen
  have hb : blocksNeeded len = (len + 511) % 2 ^ 32 / 512 := rfl
  have hk : k / blockSize = k / 512 := rfl
  unfold needed
  split_ifs with hzero <;> omega

theorem Good.fileData_eq {blockCount : Nat} {t : Option Nat} (g : Good blockCount t c c')
    (h : Inv blockCount c) {s : Nat} (hs : (metaOf c).Used s) (hne : t ≠ some s) :
    fileData c' s = fileData c s := by
  unfold fileData
  rw [g.kept.file s hs hne]
  apply List.map_congr_left
  intro k hk
  have hfile := h.data.file s hs
  have hdirect := hfile.needed _ (lt_needed (List.mem_range.mp hk) hfile.size)
  unfold fileByte
  rw [g.kept.file s hs hne, g.kept.data s hs hne _ hdirect]

/-- After a format, with writes and flushes failing at any places, every image that is reached
between two calls passes `mcsfs1_fsck`, no inode and no block is in two files, and every call keeps
the other files: the slot, the size and the data. -/
theorem callRun_checkable {mnt : Mount} {dev dev' : Blkdev} {hist : History}
    (hreads : dev.Readable) (hok : (format dev).1 = .ok ())
    (hrun : CallRun mnt (fun _ _ => True) (format dev).2 hist dev') :
    (fsck dev').1 = .ok () ∧
      (∀ i j, (metaOf dev'.blocks).Used i → (metaOf dev'.blocks).Used j →
        ((metaOf dev'.blocks).entry i).ino = ((metaOf dev'.blocks).entry j).ino → i = j) ∧
      (∀ i j, (metaOf dev'.blocks).Used i → (metaOf dev'.blocks).Used j → i ≠ j →
        Apart ((metaOf dev'.blocks).file i) ((metaOf dev'.blocks).file j)) ∧
      ∀ op : Call, ∀ s, (metaOf dev'.blocks).Used s → op.target dev'.blocks ≠ some s →
        SameSlot dev'.blocks (op.exec mnt dev').2.blocks s ∧
        ((metaOf (op.exec mnt dev').2.blocks).file s).size =
          ((metaOf dev'.blocks).file s).size ∧
        fileData (op.exec mnt dev').2.blocks s = fileData dev'.blocks s := by
  have hsound := (format_sound hreads hok).1.run hrun
  refine ⟨hsound.fsck, hsound.inv.data.inos, hsound.inv.data.blocks, fun op s hs hne => ?_⟩
  have g := (hsound.exec mnt op).2
  exact ⟨g.kept.slot s hs hne, congrArg Inode.size (g.kept.file s hs hne),
    g.fileData_eq hsound.inv hs hne⟩

/-- A device of 16 blocks whose write of the first inode fails. -/
def cutDevice : Blkdev := ⟨16, fun _ => Bytes.zero, fun k => k == 23, 0, fun _ => false, []⟩

def nameA : Bytes := Bytes.zero.store 0 1 97

/-- A create that is cut off after the bitmaps, and another one. -/
theorem callRun_checkable_cut : ∃ dev',
    (Call.exec ⟨16, 8⟩ (.create nameA 0) (format cutDevice).2).1 = .error .io ∧
    CallRun ⟨16, 8⟩ (fun _ _ => True) (format cutDevice).2
      [(.create nameA 0, .ok []), (.create nameA 0, .error .io)] dev' ∧
    (fsck dev').1 = .ok () := by
  have hok : (format cutDevice).1 = .ok () := by decide +kernel
  have hcut : (Call.exec ⟨16, 8⟩ (.create nameA 0) (format cutDevice).2).1 = .error .io := by
    decide +kernel
  have hnext : (Call.exec ⟨16, 8⟩ (.create nameA 0)
      (Call.exec ⟨16, 8⟩ (.create nameA 0) (format cutDevice).2).2).1 = .ok [] := by
    decide +kernel
  have hstart : CallRun ⟨16, 8⟩ (fun _ _ => True) (format cutDevice).2 [] _ := .start
  have hrun := (hstart.call (.create nameA 0) trivial).call (.create nameA 0) trivial
  rw [hcut, hnext] at hrun
  exact ⟨_, hcut, hrun, (callRun_checkable (fun _ => rfl) hok hrun).1⟩

end Mcsos.Mcsfs1
