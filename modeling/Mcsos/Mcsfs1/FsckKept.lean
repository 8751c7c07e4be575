import Mcsos.Mcsfs1.FsckImage
import Mcsos.Mcsfs1.Names

set_option autoImplicit false

/-! # What the operations make of an accepted image

fsck lets through what a format and the operations never make: two entries with one inode, a block
that two inodes have, and anything at all in `direct` behind the blocks of the size. `Careful` is
what keeps an operation clear of these; it then leaves an image that is accepted again. The super
block is kept in any case.
-/

namespace Mcsos.Mcsfs1

open Prog

/-! ## Metadata that passes -/

/-- An inode that passes the check. -/
structure FilePasses (blockCount : Nat) (bb : Nat → Bool) (x : Inode) : Prop where
  mode : x.mode = modeFile
  size : x.size ≤ directBlocks * blockSize
  blocks : ∀ j, j < needed x.size →
    dataStartLba ≤ x.direct j ∧ x.direct j < blockCount ∧ bb (x.direct j) = true

/-- An entry that passes the check. -/
structure EntryPasses (blockCount : Nat) (m : Meta) (e : Entry) : Prop where
  inoOk : InoOk e.ino
  type : e.type = modeFile
  bit : m.ib e.ino = true
  file : FilePasses blockCount m.bb (m.inode e.ino)

/-- Metadata that passes the check. -/
structure MetaPasses (blockCount : Nat) (m : Meta) : Prop where
  root_bit : m.ib rootIno = true
  system : ∀ b, b < dataStartLba → m.bb b = true
  root_mode : (m.inode rootIno).mode = modeDir
  root_direct : (m.inode rootIno).direct 0 = rootDirLba
  entry : ∀ i, m.Used i → EntryPasses blockCount m (m.entry i)

theorem FilePasses.mono {blockCount : Nat} {bb bb' : Nat → Bool} {x : Inode}
    (h : FilePasses blockCount bb x)
    (hbb : ∀ j, j < needed x.size → bb (x.direct j) = true → bb' (x.direct j) = true) :
    FilePasses blockCount bb' x := by
  refine ⟨h.mode, h.size, fun j hj => ?_⟩
  obtain ⟨hge, hlt, hbit⟩ := h.blocks j hj
  exact ⟨hge, hlt, hbb j hj hbit⟩

section

variable {blockCount : Nat} {c : Blocks}

theorem bits_iff_test {i : Nat} (h : i < 4096) (b : Bytes) :
    bits b i = true ↔ Bitmap.test b i = true := by
  rw [bits_of_lt (show i < blockSize * 8 from h)]

theorem inodeChecked_iff (hbc : blockCount ≤ 4096) {bb inode : Bytes} :
    InodeChecked blockCount bb inode ↔ FilePasses blockCount (bits bb) (inodeView inode) := by
  -- the blocks that the size takes are in `direct`
  have hblocks : iSize inode ≤ directBlocks * blockSize → ∀ j, j < needed (iSize inode) →
      (BlockChecked bb blockCount (iDirect inode j) ↔
        dataStartLba ≤ (inodeView inode).direct j ∧ (inodeView inode).direct j < blockCount ∧
          bits bb ((inodeView inode).direct j) = true) := fun hsize j hj => by
    have hview : (inodeView inode).direct j = iDirect inode j :=
      if_pos (lt_of_lt_of_le hj (needed_le hsize))
    rw [hview]
    constructor
    · rintro ⟨hge, hlt, hbehind, hbit⟩
      exact ⟨hge, hlt, (bits_iff_test hbehind bb).mpr hbit⟩
    · rintro ⟨hge, hlt, hbit⟩
      have hbehind := lt_of_lt_of_le hlt hbc
      exact ⟨hge, hlt, hbehind, (bits_iff_test hbehind bb).mp hbit⟩
  constructor
  · intro h
    exact ⟨h.mode, h.size, fun j hj => (hblocks h.size j hj).mp (h.blocks j hj)⟩
  · intro h
    exact ⟨h.mode, h.size, fun j hj => (hblocks h.size j hj).mpr (h.blocks j hj)⟩

theorem inodesOf_ok {ino : Nat} (hino : InoOk ino) :
    inodesOf c ino = inodeView (inodeOf c ino) := if_pos hino

theorem direntChecked_iff (hbc : blockCount ≤ 4096) {i : Nat} (hi : i < direntCount) :
    DirentChecked blockCount c (c rootDirLba) i ↔
      EntryPasses blockCount (metaOf c) ((metaOf c).entry i) := by
  have hentry : (metaOf c).entry i = ⟨deIno (c rootDirLba) i, deType (c rootDirLba) i⟩ := if_pos hi
  have hbit : InoOk (deIno (c rootDirLba) i) →
      ((metaOf c).ib (deIno (c rootDirLba) i) = true ↔
        Bitmap.test (c inodeBmapLba) (deIno (c rootDirLba) i) = true) := fun hino =>
    bits_iff_test (lt_of_le_of_lt hino.2 (by decide)) _
  rw [hentry]
  constructor
  · intro h
    refine ⟨h.inoOk, h.type, (hbit h.inoOk).mpr h.bit, ?_⟩
    show FilePasses blockCount (bits (c blockBmapLba)) (inodesOf c _)
    rw [inodesOf_ok h.inoOk]
    exact (inodeChecked_iff hbc).mp h.inode
  · intro h
    have hfile : FilePasses blockCount (bits (c blockBmapLba))
        (inodesOf c (deIno (c rootDirLba) i)) := h.file
    rw [inodesOf_ok h.inoOk] at hfile
    exact ⟨h.inoOk, h.type, (hbit h.inoOk).mp h.bit, (inodeChecked_iff hbc).mpr hfile⟩

/-- An image is accepted for its super block and its metadata. -/
theorem accepted_iff (hbc : blockCount ≤ 4096) : Accepted blockCount c ↔
    8 < blockCount ∧ SuperOk blockCount (c sbLba) ∧ MetaPasses blockCount (metaOf c) := by
  have hroot : (metaOf c).inode rootIno = inodeView (inodeOf c rootIno) := inodesOf_ok rootIno_ok
  have hdirect : (inodeView (inodeOf c rootIno)).direct 0 = iDirect (inodeOf c rootIno) 0 :=
    rfl
  constructor
  · intro h
    refine ⟨h.count, h.super, (bits_iff_test (by decide) _).mpr h.rootBit,
      fun b hb => (bits_iff_test (lt_trans hb (by decide)) _).mpr (h.system b hb), ?_, ?_,
      fun i hi => ?_⟩
    · rw [hroot]
      exact h.rootMode
    · rw [hroot, hdirect]
      exact h.rootDirect
    · have hlt := used_lt hi
      have hne : deIno (c rootDirLba) i ≠ 0 := entry_eq c hlt ▸ hi
      exact (direntChecked_iff hbc hlt).mp (h.dirents i hlt hne)
  · rintro ⟨h8, hsuper, h⟩
    have hmode := h.root_mode
    have hrdirect := h.root_direct
    rw [hroot] at hmode hrdirect
    rw [hdirect] at hrdirect
    refine ⟨h8, hsuper, (bits_iff_test (by decide) _).mp h.root_bit,
      fun b hb => (bits_iff_test (lt_trans hb (by decide)) _).mp (h.system b hb), hmode, hrdirect,
      fun i hlt hne => (direntChecked_iff hbc hlt).mpr (h.entry i ?_)⟩
    unfold Meta.Used
    rw [entry_eq c hlt]
    exact hne

end

/-- Other metadata with the same root. -/
theorem MetaPasses.of_root {blockCount : Nat} {m m' : Meta} (h : MetaPasses blockCount m)
    (hbit : m'.ib rootIno = true) (hsystem : ∀ b, b < dataStartLba → m'.bb b = true)
    (hroot : m'.inode rootIno = m.inode rootIno)
    (hentry : ∀ i, m'.Used i → EntryPasses blockCount m' (m'.entry i)) :
    MetaPasses blockCount m' := by
  refine ⟨hbit, hsystem, ?_, ?_, hentry⟩
  · rw [hroot]
    exact h.root_mode
  · rw [hroot]
    exact h.root_direct

/-- The root is no file. -/
theorem MetaPasses.ne_root {blockCount : Nat} {m : Meta} (h : MetaPasses blockCount m) {i : Nat}
    (hi : m.Used i) : (m.entry i).ino ≠ rootIno := fun he => by
  have hmode := (h.entry i hi).file.mode
  rw [he, h.root_mode] at hmode
  exact absurd hmode (by decide)

/-! ## Create -/

section

variable {D : Disk} {c : Blocks} {name : Bytes} {past : UInt8} {s ino lba n : Nat}

theorem created_super (c : Blocks) (s ino lba : Nat) (name : Bytes) (n : Nat) :
    created c s ino lba name n sbLba = c sbLba := by
  unfold created
  rw [put_ne (by decide), Good.putInode_super, marked, put_ne (by decide), put_ne (by decide)]

theorem Created.passes (w : Created D.blockCount name past c s ino lba n)
    (hbc : D.blockCount ≤ 4096) (h : MetaPasses D.blockCount (metaOf c)) :
    MetaPasses D.blockCount (metaOf (created c s ino lba name n)) := by
  have hlba : lba < 256 ^ 4 := lt_trans (w.lba_lt hbc) (by decide)
  rw [w.meta_eq hbc]
  have hib : ∀ i, (metaOf c).ib i = true → Function.update (metaOf c).ib ino true i = true :=
    fun i hi => by rw [Function.update_apply, hi, ite_self]
  have hbb : ∀ b, (metaOf c).bb b = true → Function.update (metaOf c).bb lba true b = true :=
    fun b hb => by rw [Function.update_apply, hb, ite_self]
  refine h.of_root (hib _ h.root_bit) (fun b hb => hbb b (h.system b hb))
    (Function.update_of_ne (Ne.symm w.inode.ne_root) ..) fun i hi => ?_
  dsimp only [Meta.Used] at hi ⊢
  by_cases his : i = s
  · -- the new file is empty and has one block
    rw [his, Function.update_self]
    refine ⟨w.inode.inoOk, rfl, Function.update_self .., ?_⟩
    dsimp only
    rw [Function.update_self, inodeView_mkInode (by decide) (by decide) hlba]
    refine ⟨rfl, Nat.zero_le _, fun j hj => ?_⟩
    dsimp only at hj ⊢
    rw [needed_zero] at hj
    obtain rfl : j = 0 := by omega
    rw [Function.update_self]
    exact ⟨w.block.ge, w.block.lt, Function.update_self ..⟩
  · rw [Function.update_of_ne his] at hi ⊢
    have he := h.entry i hi
    -- an entry in use has a marked inode, the new one was not marked
    have hne : ((metaOf c).entry i).ino ≠ ino := fun hino => by
      have hbit := he.bit
      rw [hino, w.inode.bit] at hbit
      cases hbit
    refine ⟨he.inoOk, he.type, hib _ he.bit, ?_⟩
    dsimp only
    rw [Function.update_of_ne hne]
    exact he.file.mono fun j _ hb => hbb _ hb

end

/-! ## Unlink -/

section

variable {D : Disk} {c : Blocks} {s : Nat}

/-- No other entry has the inode in slot `s`, no block that another file needs is in its `direct`,
and no block before the data. -/
def Alone (m : Meta) (s : Nat) : Prop :=
  (∀ j, (m.file s).direct j ≠ 0 → dataStartLba ≤ (m.file s).direct j) ∧
    ∀ i, m.Used i → i ≠ s → (m.entry i).ino ≠ (m.entry s).ino ∧
      ∀ j, j < needed (m.file i).size → ∀ k, (m.file s).direct k ≠ (m.file i).direct j

theorem unlinked_super (blockCount : Nat) (c : Blocks) (s : Nat) :
    unlinked blockCount c s sbLba = c sbLba := by
  unfold unlinked freed unmarked cleared
  rw [Good.putInode_super, put_ne (by decide), put_ne (by decide), put_ne (by decide)]

theorem passes_unlinked (h : MetaPasses D.blockCount (metaOf c)) (hs : s < direntCount)
    (hu : (metaOf c).Used s) (halone : Alone (metaOf c) s) :
    MetaPasses D.blockCount (metaOf (unlinked D.blockCount c s)) := by
  have hino := (h.entry s hu).inoOk
  have hview : inodeView (inodeOf c ((metaOf c).entry s).ino) = (metaOf c).file s :=
    (inodesOf_ok hino).symm
  have hroot := h.ne_root hu
  rw [unlinked, metaOf_putInode hino, metaOf_freed hs]
  refine h.of_root ?_ (fun b hb => ?_) (Function.update_of_ne (Ne.symm hroot) ..) fun i hi => ?_
  · dsimp only
    rw [Function.update_of_ne (Ne.symm hroot)]
    exact h.root_bit
  · dsimp only
    rw [bits_clearDirect, hview]
    refine ⟨h.system b hb, ?_⟩
    -- a block before the data would lose its bit
    rintro ⟨j, rfl, hne, -⟩
    exact absurd (halone.1 j hne) (not_le.mpr hb)
  · dsimp only [Meta.Used] at hi ⊢
    obtain ⟨his, hentry⟩ := MetaInv.used_clear hi
    rw [hentry] at hi ⊢
    obtain ⟨hne, hblocks⟩ := halone.2 i hi his
    have he := h.entry i hi
    refine ⟨he.inoOk, he.type, ?_, ?_⟩
    · dsimp only
      rw [Function.update_of_ne hne]
      exact he.bit
    · dsimp only
      rw [Function.update_of_ne hne]
      -- only the blocks of slot `s` lose their bits
      apply he.file.mono
      intro j hj hb
      rw [bits_clearDirect, hview]
      refine ⟨hb, ?_⟩
      rintro ⟨k, hk, -, -⟩
      exact hblocks j hj k hk

end

/-! ## Write -/

/-- On the way from `c` to `c'` blocks have been marked, and `x'` lists some of them where `x` lists
none. -/
structure Extended (blockCount : Nat) (c c' : Blocks) (x x' : Inode) : Prop where
  super : c' sbLba = c sbLba
  ib : (metaOf c').ib = (metaOf c).ib
  inode : (metaOf c').inode = (metaOf c).inode
  entry : (metaOf c').entry = (metaOf c).entry
  marks : ∀ b, (metaOf c).bb b = true → (metaOf c').bb b = true
  mode : x'.mode = x.mode
  keeps : ∀ j, x.direct j ≠ 0 → x'.direct j = x.direct j
  new : ∀ j, x.direct j = 0 → x'.direct j ≠ 0 →
    dataStartLba ≤ x'.direct j ∧ x'.direct j < blockCount ∧ (metaOf c').bb (x'.direct j) = true

section

variable {D : Disk} {c c' : Blocks} {x x' : Inode}

theorem Extended.start (blockCount : Nat) (c : Blocks) (x : Inode) : Extended blockCount c c x x :=
  ⟨rfl, rfl, rfl, rfl, fun _ hb => hb, rfl, fun _ _ => rfl, fun _ hzero hne => absurd hzero hne⟩

/-- One more block is marked for `direct[i]`. -/
theorem Extended.add (g : Extended D.blockCount c c' x x') {i lba : Nat} (hzero : x'.direct i = 0)
    (hlba : FreeBlock D.blockCount c' lba) (hlt : lba < blockSize * 8) :
    Extended D.blockCount c (markedBlock c' lba) x
      { x' with direct := Function.update x'.direct i lba } := by
  have hm := metaOf_markedBlock c' hlt
  have hbb : ∀ b, (metaOf c').bb b = true → Function.update (metaOf c').bb lba true b = true :=
    fun b hb => by rw [Function.update_apply, hb, ite_self]
  constructor
  case super => rw [markedBlock_ne (by decide) (by decide), g.super]
  case ib =>
    rw [hm]
    exact g.ib
  case inode =>
    rw [hm]
    exact g.inode
  case entry =>
    rw [hm]
    exact g.entry
  case marks =>
    intro b hb
    rw [hm]
    exact hbb b (g.marks b hb)
  case mode => exact g.mode
  case keeps =>
    intro j hj
    have hji : j ≠ i := fun hji => hj ((g.keeps j hj).symm.trans (hji ▸ hzero))
    dsimp only
    rw [Function.update_of_ne hji]
    exact g.keeps j hj
  case new =>
    intro j hj0 hj
    rw [hm]
    dsimp only at hj ⊢
    by_cases hji : j = i
    · rw [hji, Function.update_self]
      exact ⟨hlba.ge, hlba.lt, Function.update_self ..⟩
    · rw [Function.update_of_ne hji] at hj ⊢
      obtain ⟨hge, hlt, hbit⟩ := g.new j hj0 hj
      exact ⟨hge, hlt, hbb _ hbit⟩

/-- The first loop on any image, where no write fails. -/
theorem does_allocBlocks_any (hgood : ¬D.Faulty) (h8 : 8 < D.blockCount)
    (hbc : D.blockCount ≤ 4096) (n : Nat) (hn : n ≤ directBlocks) (inode : Bytes) :
    Does D (allocBlocks inode 0 n) c
      (fun inode' c' => Extended D.blockCount c c' (inodeView inode) (inodeView inode') ∧
        ∀ j, j < n → (inodeView inode').direct j ≠ 0)
      (fun _ c' => ∃ x', Extended D.blockCount c c' (inodeView inode) x') := by
  have hin : 0 + n ≤ directBlocks := le_of_eq_of_le (Nat.zero_add n) hn
  refine (does_allocBlocks_of
    (G := fun c' inode' => Extended D.blockCount c c' (inodeView inode) (inodeView inode')) h8 hbc
    (Nat.le_refl directBlocks) (fun c' inode' i lba g hi hzero hfree => ?_)
    (fun _ _ _ g _ _ _ => ⟨_, g⟩)
    (fun hf => absurd hf hgood) n 0 hin inode (Extended.start D.blockCount c _)).mono
    (fun inode' c' hq => ?_) fun _ _ he => he
  · have hlt : lba < blockSize * 8 := lt_of_lt_of_le hfree.lt hbc
    have g' := g.add hzero hfree hlt
    rwa [← inodeView_store_direct hi (lt_trans hlt (by decide))] at g'
  · obtain ⟨hext, -, hall⟩ := hq
    exact ⟨hext, fun j hj => hall j (Nat.zero_le j) (lt_of_lt_of_eq hj (Nat.zero_add n).symm)⟩

/-- The first blocks of `x'` are data blocks, and marked if the device has them, if those that `x` has
among them are. -/
theorem Extended.tail (g : Extended D.blockCount c c' x x') {n : Nat}
    (hall : ∀ j, j < n → x'.direct j ≠ 0)
    (htail : ∀ j, j < n → x.direct j ≠ 0 → dataStartLba ≤ x.direct j ∧
      (x.direct j < D.blockCount → (metaOf c).bb (x.direct j) = true)) {j : Nat} (hj : j < n) :
    dataStartLba ≤ x'.direct j ∧
      (x'.direct j < D.blockCount → (metaOf c').bb (x'.direct j) = true) := by
  -- a block that was listed before, or one that the loop has taken
  by_cases hzero : x.direct j = 0
  · obtain ⟨hge, -, hmark⟩ := g.new j hzero (hall j hj)
    exact ⟨hge, fun _ => hmark⟩
  · obtain ⟨hge, hmark⟩ := htail j hj hzero
    rw [g.keeps j hzero]
    exact ⟨hge, fun hlt => g.marks _ (hmark hlt)⟩

theorem Extended.passes (g : Extended D.blockCount c c' x x')
    (h : MetaPasses D.blockCount (metaOf c)) : MetaPasses D.blockCount (metaOf c') := by
  refine h.of_root ?_ (fun b hb => g.marks b (h.system b hb)) (congrFun g.inode _) fun i hi => ?_
  · rw [g.ib]
    exact h.root_bit
  · unfold Meta.Used at hi
    rw [g.entry] at hi ⊢
    have he := h.entry i hi
    refine ⟨he.inoOk, he.type, ?_, ?_⟩
    · rw [g.ib]
      exact he.bit
    · rw [g.inode]
      exact he.file.mono fun j _ hb => g.marks _ hb

/-- A file is given an inode that passes, and so are all entries that have it. -/
theorem MetaPasses.setInode {blockCount : Nat} {m : Meta} (h : MetaPasses blockCount m) {ino : Nat}
    (hroot : ino ≠ rootIno) (hx : FilePasses blockCount m.bb x) :
    MetaPasses blockCount { m with inode := Function.update m.inode ino x } := by
  refine h.of_root h.root_bit h.system (Function.update_of_ne (Ne.symm hroot) ..) fun i hi => ?_
  have he := h.entry i hi
  refine ⟨he.inoOk, he.type, he.bit, ?_⟩
  dsimp only
  by_cases hino : (m.entry i).ino = ino
  · rw [hino, Function.update_self]
    exact hx
  · rw [Function.update_of_ne hino]
    exact he.file

/-- What the second loop leaves alone: the super block, and all metadata where it writes data
blocks. -/
def Spares (inode : Bytes) (i n : Nat) (c c' : Blocks) : Prop :=
  c' sbLba = c sbLba ∧
    ((∀ j, i ≤ j → j < i + n → dataStartLba ≤ iDirect inode j) → metaOf c' = metaOf c)

/-- The second loop on any image, where no write fails. -/
theorem does_writeBlocks_any (hgood : ¬D.Faulty) {inode : Bytes} (buf : Bytes)
    (len n i written : Nat) (hall : ∀ j, i ≤ j → j < i + n → iDirect inode j ≠ 0) :
    Does D (writeBlocks inode buf len i written n) c
      (fun _ c' => Spares inode i n c c' ∧
        ∀ j, i ≤ j → j < i + n → iDirect inode j < D.blockCount)
      (fun _ c' => Spares inode i n c c') := by
  induction n generalizing i written c with
  | zero => exact does_pure ⟨⟨rfl, fun _ => rfl⟩, fun j h1 h2 => absurd h2 (by omega)⟩
  | succ n ih =>
      have hne := hall i (Nat.le_refl i) (by omega)
      rw [writeBlocks]
      by_cases hlt : iDirect inode i < D.blockCount
      · refine bind_write hlt (fun hf => absurd hf hgood) ?_
        have hspares : ∀ (block : Bytes) (c' : Blocks),
            Spares inode (i + 1) n (put c (iDirect inode i) block) c' →
              Spares inode i (n + 1) c c' := fun block c' hs => by
          refine ⟨hs.1.trans (put_ne (fun he => hne he.symm) block), fun hdata => ?_⟩
          rw [hs.2 fun j h1 h2 => hdata j (by omega) (by omega)]
          exact metaOf_put_data (hdata i (Nat.le_refl i) (by omega)) c block
        refine (ih (i + 1) _ fun j h1 h2 => hall j (by omega) (by omega)).mono
          (fun _ c' hq => ⟨hspares _ c' hq.1, fun j h1 h2 => ?_⟩) fun _ c' hq => hspares _ c' hq
        rcases Nat.eq_or_lt_of_le h1 with rfl | h1
        · exact hlt
        · exact hq.2 j h1 (by omega)
      -- the device refuses a block behind its end
      · intro dev hdev
        have hwrite : ∀ block, devWrite (iDirect inode i) block dev = (.error .inval, dev) :=
          fun block => if_pos (by rw [hdev.blockCount]; omega)
        exact ends_of_error (bind_error (hwrite _)) ⟨c, hdev, rfl, fun _ => rfl⟩

/-- The entries of `direct` that a write takes over are data blocks, and marked if the device has
them. -/
def TailOk (blockCount : Nat) (m : Meta) (s len : Nat) : Prop :=
  ∀ j, j < needed len → (m.file s).direct j ≠ 0 → dataStartLba ≤ (m.file s).direct j ∧
    ((m.file s).direct j < blockCount → m.bb ((m.file s).direct j) = true)

/-- What a write leaves behind, whether it succeeds or not. -/
def Leaves (blockCount : Nat) (care : Prop) (c c' : Blocks) : Prop :=
  c' sbLba = c sbLba ∧ (care → MetaPasses blockCount (metaOf c'))

theorem does_write_any (hgood : ¬D.Faulty) (h8 : 8 < D.blockCount) (hbc : D.blockCount ≤ 4096)
    (h : MetaPasses D.blockCount (metaOf c)) (name buf : Bytes) (len : Nat) (past : UInt8) :
    Does D (write name buf len past) c
      (fun _ => Leaves D.blockCount
        (∀ s, target c name past = some s → TailOk D.blockCount (metaOf c) s len) c)
      (fun _ => Leaves D.blockCount
        (∀ s, target c name past = some s → TailOk D.blockCount (metaOf c) s len) c) := by
  apply bind_failIf (fun _ => ⟨rfl, fun _ => h⟩)
  intro hlen
  have hlen' : len ≤ directBlocks * blockSize := not_lt.mp hlen
  apply bind_findDirent h8 (fun _ => ⟨rfl, fun _ => h⟩)
  intro s hs
  obtain ⟨-, hu⟩ := target_used hs
  have he := h.entry s hu
  have hfile : (metaOf c).file s = inodeView (inodeOf c ((metaOf c).entry s).ino) :=
    inodesOf_ok he.inoOk
  have hmode : iMode (inodeOf c ((metaOf c).entry s).ino) = modeFile := by
    have hm : ((metaOf c).file s).mode = modeFile := he.file.mode
    rwa [hfile] at hm
  refine bind_readInode h8 he.inoOk ?_
  apply bind_failIf (fun hbad => absurd hmode hbad)
  intro _
  have hneed := needed_le hlen'
  refine ((does_allocBlocks_any hgood h8 hbc (needed len) hneed _).mono (fun _ _ hq => hq)
    fun e c₁ hq => ?_).bind fun inode c₁ hq => ?_
  · obtain ⟨x', g⟩ := hq
    exact ⟨g.super, fun _ => g.passes h⟩
  obtain ⟨g, hall⟩ := hq
  have hview : ∀ j, j < needed len → (inodeView inode).direct j = iDirect inode j := fun j hj =>
    if_pos (lt_of_lt_of_le hj hneed)
  -- the blocks of the new size, old and new ones
  have htail : (∀ s, target c name past = some s → TailOk D.blockCount (metaOf c) s len) →
      ∀ j, j < needed len → dataStartLba ≤ (inodeView inode).direct j ∧
        ((inodeView inode).direct j < D.blockCount →
          (metaOf c₁).bb ((inodeView inode).direct j) = true) := fun hcare j hj => by
    have hold := hcare s hs
    unfold TailOk at hold
    rw [hfile] at hold
    exact g.tail hall hold hj
  refine ((does_writeBlocks_any hgood buf len (needed len) 0 0 fun j _ hj => ?_).mono
    (fun _ _ hq => hq) fun e c₂ hq => ?_).bind fun _ c₂ hq => ?_
  · rw [Nat.zero_add] at hj
    rw [← hview j hj]
    exact hall j hj
  · refine ⟨hq.1.trans g.super, fun hcare => ?_⟩
    rw [hq.2 fun j _ hj => ?_]
    · exact g.passes h
    · rw [Nat.zero_add] at hj
      rw [← hview j hj]
      exact (htail hcare j hj).1
  -- the inode, with the new size
  obtain ⟨⟨hsuper, hmeta⟩, hlt⟩ := hq
  refine bind_writeInode h8 he.inoOk (fun hf => absurd hf hgood) ?_
  refine does_flush ⟨?_, fun hcare => ?_⟩ fun hf => absurd hf hgood
  · rw [Good.putInode_super, hsuper, g.super]
  have hsame : metaOf c₂ = metaOf c₁ := hmeta fun j _ hj => by
    rw [Nat.zero_add] at hj
    rw [← hview j hj]
    exact (htail hcare j hj).1
  have hlen4 : len < 256 ^ 4 := lt_of_le_of_lt hlen' (by decide)
  rw [metaOf_putInode he.inoOk, hsame, inodeView_store_size hlen4]
  refine (g.passes h).setInode (h.ne_root hu) ⟨g.mode.trans hmode, hlen', fun j hj => ?_⟩
  have hltj : (inodeView inode).direct j < D.blockCount := by
    rw [hview j hj]
    exact hlt j (Nat.zero_le j) (lt_of_lt_of_eq hj (Nat.zero_add _).symm)
  exact ⟨(htail hcare j hj).1, hltj, (htail hcare j hj).2 hltj⟩

end

/-! ## All of them -/

/-- The call does not meet what fsck lets through and the operations never make. -/
def Call.Careful (blockCount : Nat) (c : Blocks) : Call → Prop
  | .write name _ len past => ∀ s, Mcsfs1.target c name past = some s →
      TailOk blockCount (metaOf c) s len
  | .unlink name past => ∀ s, Mcsfs1.target c name past = some s → Alone (metaOf c) s
  | _ => True

theorem does_call_any {D : Disk} {c : Blocks} (hgood : ¬D.Faulty) (h8 : 8 < D.blockCount)
    (hbc : D.blockCount ≤ 4096) (h : MetaPasses D.blockCount (metaOf c)) (mnt : Mount) (op : Call) :
    Does D (op.exec mnt) c (fun _ => Leaves D.blockCount (op.Careful D.blockCount c) c)
      (fun _ => Leaves D.blockCount (op.Careful D.blockCount c) c) := by
  cases op with
  | create name past =>
      refine (does_create_cuts h8 hbc name past (fun e he => ?_) (fun hf => absurd hf hgood)).bind
        fun _ _ hq => does_pure ?_
      · exact ⟨rfl, fun _ => h⟩
      · obtain ⟨s, ino, lba, n, w, rfl⟩ := hq
        exact ⟨created_super c s ino lba name n, fun _ => w.passes hbc h⟩
  | write name buf len past =>
      exact (does_write_any hgood h8 hbc h name buf len past).bind fun _ _ hq => does_pure hq
  | read name cap past =>
      refine ((does_readFile_any h8 mnt name cap past fun s hs =>
        (h.entry s (target_used hs).2).inoOk).mono (fun _ _ hq => hq) fun _ _ he => ?_).bind
        fun _ _ hq => does_pure ?_
      · obtain ⟨rfl, -⟩ := he
        exact ⟨rfl, fun _ => h⟩
      · subst hq
        exact ⟨rfl, fun _ => h⟩
  | unlink name past =>
      refine (does_unlink_cuts h8 hbc name past (fun e he => ?_) (fun s hs => ?_)
        (fun hf => absurd hf hgood)).bind fun _ _ hq => does_pure ?_
      · exact ⟨rfl, fun _ => h⟩
      · have he := h.entry s (target_used hs).2
        have hm : (inodesOf c ((metaOf c).entry s).ino).mode = modeFile := he.file.mode
        rw [inodesOf_ok he.inoOk] at hm
        exact ⟨he.inoOk, hm⟩
      · obtain ⟨s, hs, rfl⟩ := hq
        obtain ⟨hslot, hu⟩ := target_used hs
        exact ⟨unlinked_super D.blockCount c s, fun hcare =>
          passes_unlinked h hslot hu (hcare s hs)⟩

/-- **What fsck accepts.** On an image that fsck accepts, no call of a fault-free device changes the
super block, and a careful one leaves an image that fsck accepts. -/
theorem fsck_kept {dev : Blkdev} (hfault : dev.FaultFree) (hbc : dev.blockCount ≤ 4096)
    (hfsck : (fsck dev).1 = .ok ()) (mnt : Mount) (op : Call) :
    (op.exec mnt dev).2.blocks sbLba = dev.blocks sbLba ∧
      (op.Careful dev.blockCount dev.blocks → (fsck (op.exec mnt dev).2).1 = .ok ()) := by
  have hgood := not_faulty hfault
  have hdev : Has dev.disk dev.blocks dev := ⟨rfl, rfl, rfl, hfault.2⟩
  -- from blocks to metadata and back
  obtain ⟨h8, hsuper, h⟩ := (accepted_iff hbc).mp ((fsck_ok_iff hfault.2).mp hfsck)
  have hdoes := does_call_any (D := dev.disk) hgood h8 hbc h mnt op dev hdev
  have hleaves : ∃ c', Has dev.disk c' (op.exec mnt dev).2 ∧
      Leaves dev.blockCount (op.Careful dev.blockCount dev.blocks) dev.blocks c' := by
    rcases hr : op.exec mnt dev with ⟨e | out, dev'⟩
    · exact hdoes.error hr
    · exact hdoes.ok hr
  obtain ⟨c', hdev', hkept, hpasses⟩ := hleaves
  have hcount : (op.exec mnt dev).2.blockCount = dev.blockCount := hdev'.blockCount
  rw [hdev'.blocks]
  refine ⟨hkept, fun hcare => (fsck_ok_iff hdev'.readable).mpr ?_⟩
  rw [hcount, hdev'.blocks]
  exact (accepted_iff hbc).mpr ⟨h8, hkept ▸ hsuper, hpasses hcare⟩

theorem patched_faultFree (dev : Blkdev) (lba : Nat) (block : Bytes) :
    (dev.patched lba block).FaultFree := ⟨fun _ => rfl, fun _ => rfl⟩

/-- The only file is alone, if it lists no block before the data. -/
theorem alone_of_only {c : Blocks} {s : Nat} (hs : s < direntCount)
    (honly : ∀ i, i < direntCount → i ≠ s → deIno (c rootDirLba) i = 0)
    (hino : InoOk (deIno (c rootDirLba) s))
    (hdirect : ∀ j, j < directBlocks → iDirect (inodeOf c (deIno (c rootDirLba) s)) j = 0 ∨
      dataStartLba ≤ iDirect (inodeOf c (deIno (c rootDirLba) s)) j) : Alone (metaOf c) s := by
  refine ⟨fun j hj => ?_, fun i hi hne => ?_⟩
  · have hfile : (metaOf c).file s = inodeView (inodeOf c (deIno (c rootDirLba) s)) := by
      unfold Meta.file
      rw [entry_eq c hs]
      exact inodesOf_ok hino
    rw [hfile] at hj ⊢
    by_cases hlt : j < directBlocks
    · have hview : (inodeView (inodeOf c (deIno (c rootDirLba) s))).direct j =
          iDirect (inodeOf c (deIno (c rootDirLba) s)) j := if_pos hlt
      rw [hview] at hj ⊢
      exact (hdirect j hlt).resolve_left hj
    · exact absurd (if_neg hlt) hj
  · have hlt := used_lt hi
    unfold Meta.Used at hi
    rw [entry_eq c hlt] at hi
    exact absurd (honly i hlt hne) hi

/-- The only file is unlinked. -/
theorem fsck_kept_unlink :
    (fsck (Call.exec ⟨16, 8⟩ (.unlink nameA 0) (emptyFile.patched 8 Bytes.zero)).2).1 = .ok () := by
  have htarget : target (emptyFile.patched 8 Bytes.zero).blocks nameA 0 = some 0 := by
    decide +kernel
  have halone : Alone (metaOf (emptyFile.patched 8 Bytes.zero).blocks) 0 :=
    alone_of_only (by decide) (by decide +kernel) (by decide +kernel) (by decide +kernel)
  refine (fsck_kept (patched_faultFree emptyFile 8 Bytes.zero) (by decide +kernel)
    (by decide +kernel) ⟨16, 8⟩ (.unlink nameA 0)).2 fun s hs => ?_
  obtain rfl : 0 = s := Option.some.inj (htarget.symm.trans hs)
  exact halone

/-- The entry of the file, once more under another name. -/
def linkedTwice : Blkdev :=
  emptyFile.patched rootDirLba (setDirent (emptyFile.blocks rootDirLba) 1 2 nameB 1)

/-- `direct[1]` of the file, which has no bytes, is block 3. -/
def wildTail : Blkdev :=
  emptyFile.patched 3 ((emptyFile.blocks 3).store 72 4 3)

/-- Unlinking one of two names, and a write over a block of the inode table. -/
theorem fsck_not_kept :
    (linkedTwice.FaultFree ∧ (fsck linkedTwice).1 = .ok () ∧
      (fsck (Call.exec ⟨16, 8⟩ (.unlink nameA 0) linkedTwice).2).1 = .error .corrupt) ∧
    wildTail.FaultFree ∧ (fsck wildTail).1 = .ok () ∧
      (fsck (Call.exec ⟨16, 8⟩ (.write nameA Bytes.zero 600 0) wildTail).2).1 =
        .error .corrupt := by
  refine ⟨⟨patched_faultFree _ _ _, ?_, ?_⟩, patched_faultFree _ _ _, ?_, ?_⟩
  all_goals decide +kernel

/-- With more blocks than bits, a create on an accepted image comes to a bit behind the buffer. -/
theorem create_behind_bmap : bigImage.FaultFree ∧ (fsck bigImage).1 = .ok () ∧
    (Call.exec ⟨4104, 8⟩ (.create nameA 0) bigImage).1 = .error .wild := by
  refine ⟨⟨fun _ => rfl, fun _ => rfl⟩, ?_, ?_⟩
  all_goals decide +kernel

end Mcsos.Mcsfs1
