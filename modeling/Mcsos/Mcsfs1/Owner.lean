import Mcsos.Mcsfs1.Layout

set_option autoImplicit false

/-! # Who owns what

`MetaInv` says that the metadata is sound: every used directory entry has an inode of its own and
every block of such an inode is marked and is its own. Bits and inodes that no entry refers to may
be anything, so a write that only touches these keeps the metadata sound. `Kept` says that the files
are what they were, but for one.
-/

namespace Mcsos.Mcsfs1

/-! ## Sound metadata -/

/-- The entry in slot `i` is in use. -/
def Meta.Used (m : Meta) (i : Nat) : Prop := (m.entry i).ino ≠ 0

/-- The inode that the entry in slot `i` refers to. -/
def Meta.file (m : Meta) (i : Nat) : Inode := m.inode (m.entry i).ino

/-- The blocks that a file of `len` bytes must have. -/
def needed (len : Nat) : Nat := if blocksNeeded len = 0 then 1 else blocksNeeded len

theorem needed_zero : needed 0 = 1 := by decide

/-- A sound inode of a file. -/
structure InodeOk (blockCount : Nat) (bb : Nat → Bool) (x : Inode) : Prop where
  mode : x.mode = modeFile
  size : x.size ≤ directBlocks * blockSize
  needed : ∀ j, j < needed x.size → x.direct j ≠ 0
  direct_ge : ∀ j, x.direct j ≠ 0 → dataStartLba ≤ x.direct j
  direct_lt : ∀ j, x.direct j ≠ 0 → x.direct j < blockCount
  bit : ∀ j, x.direct j ≠ 0 → bb (x.direct j) = true
  distinct : ∀ j k, x.direct j ≠ 0 → x.direct j = x.direct k → j = k

/-- Two inodes have no block in common. -/
def Apart (x y : Inode) : Prop := ∀ j k, x.direct j ≠ 0 → x.direct j ≠ y.direct k

theorem Apart.symm {x y : Inode} (h : Apart x y) : Apart y x := fun j k hj he =>
  h k j (he ▸ hj) he.symm

structure MetaInv (blockCount : Nat) (m : Meta) : Prop where
  root_bit : m.ib rootIno = true
  system : ∀ b, b < dataStartLba → m.bb b = true
  root_mode : (m.inode rootIno).mode = modeDir
  root_direct : (m.inode rootIno).direct 0 = rootDirLba
  slot : ∀ i, m.Used i → i < direntCount
  ino_ge : ∀ i, m.Used i → 2 ≤ (m.entry i).ino
  ino_le : ∀ i, m.Used i → (m.entry i).ino ≤ maxInodes
  type : ∀ i, m.Used i → (m.entry i).type = modeFile
  bit : ∀ i, m.Used i → m.ib (m.entry i).ino = true
  file : ∀ i, m.Used i → InodeOk blockCount m.bb (m.file i)
  inos : ∀ i j, m.Used i → m.Used j → (m.entry i).ino = (m.entry j).ino → i = j
  blocks : ∀ i j, m.Used i → m.Used j → i ≠ j → Apart (m.file i) (m.file j)

theorem InodeOk.setBb {blockCount : Nat} {bb bb' : Nat → Bool} {x : Inode}
    (h : InodeOk blockCount bb x) (hbit : ∀ j, x.direct j ≠ 0 → bb' (x.direct j) = true) :
    InodeOk blockCount bb' x :=
  ⟨h.mode, h.size, h.needed, h.direct_ge, h.direct_lt, hbit, h.distinct⟩

namespace MetaInv

variable {blockCount : Nat} {m : Meta}

theorem inoOk (h : MetaInv blockCount m) {i : Nat} (hi : m.Used i) : InoOk (m.entry i).ino :=
  ⟨le_trans (by decide) (h.ino_ge i hi), h.ino_le i hi⟩

theorem setIb (h : MetaInv blockCount m) {ib : Nat → Bool} (hroot : ib rootIno = true)
    (hused : ∀ i, m.Used i → ib (m.entry i).ino = true) :
    MetaInv blockCount { m with ib := ib } :=
  ⟨hroot, h.system, h.root_mode, h.root_direct, h.slot, h.ino_ge, h.ino_le, h.type, hused, h.file,
    h.inos, h.blocks⟩

theorem setBb (h : MetaInv blockCount m) {bb : Nat → Bool}
    (hsystem : ∀ b, b < dataStartLba → bb b = true)
    (hused : ∀ i, m.Used i → ∀ j, (m.file i).direct j ≠ 0 → bb ((m.file i).direct j) = true) :
    MetaInv blockCount { m with bb := bb } :=
  ⟨h.root_bit, hsystem, h.root_mode, h.root_direct, h.slot, h.ino_ge, h.ino_le, h.type, h.bit,
    fun i hi => (h.file i hi).setBb (hused i hi), h.inos, h.blocks⟩

/-- An inode that no entry refers to may be anything. -/
theorem setInode (h : MetaInv blockCount m) {ino : Nat} (hroot : ino ≠ rootIno)
    (hfree : ∀ i, m.Used i → (m.entry i).ino ≠ ino) (x : Inode) :
    MetaInv blockCount { m with inode := Function.update m.inode ino x } := by
  have hfile : ∀ i, m.Used i → Function.update m.inode ino x (m.entry i).ino = m.file i :=
    fun i hi => Function.update_of_ne (hfree i hi) ..
  have hkeep : Function.update m.inode ino x rootIno = m.inode rootIno :=
    Function.update_of_ne (Ne.symm hroot) ..
  refine ⟨h.root_bit, h.system, ?_, ?_, h.slot, h.ino_ge, h.ino_le, h.type, h.bit, fun i hi => ?_,
    h.inos, fun i j hi hj hij => ?_⟩
  · show (Function.update m.inode ino x rootIno).mode = modeDir
    rw [hkeep, h.root_mode]
  · show (Function.update m.inode ino x rootIno).direct 0 = rootDirLba
    rw [hkeep, h.root_direct]
  · show InodeOk blockCount m.bb (Function.update m.inode ino x (m.entry i).ino)
    rw [hfile i hi]
    exact h.file i hi
  · show Apart (Function.update m.inode ino x (m.entry i).ino)
      (Function.update m.inode ino x (m.entry j).ino)
    rw [hfile i hi, hfile j hj]
    exact h.blocks i j hi hj hij

/-- The inode of an entry becomes another sound one. -/
theorem setFile (h : MetaInv blockCount m) {s : Nat} (hs : m.Used s) {x : Inode}
    (hx : InodeOk blockCount m.bb x) (hapart : ∀ i, m.Used i → i ≠ s → Apart x (m.file i)) :
    MetaInv blockCount { m with inode := Function.update m.inode (m.entry s).ino x } := by
  have hother : ∀ i, m.Used i → i ≠ s →
      Function.update m.inode (m.entry s).ino x (m.entry i).ino = m.file i :=
    fun i hi his => Function.update_of_ne (fun he => his (h.inos i s hi hs he)) ..
  have hroot : (m.entry s).ino ≠ rootIno := fun he => by
    have hge := h.ino_ge s hs
    rw [he] at hge
    exact absurd hge (by decide)
  have hkeep : Function.update m.inode (m.entry s).ino x rootIno = m.inode rootIno :=
    Function.update_of_ne (Ne.symm hroot) ..
  refine ⟨h.root_bit, h.system, ?_, ?_, h.slot, h.ino_ge, h.ino_le, h.type, h.bit, fun i hi => ?_,
    h.inos, fun i j hi hj hij => ?_⟩
  · show (Function.update m.inode (m.entry s).ino x rootIno).mode = modeDir
    rw [hkeep, h.root_mode]
  · show (Function.update m.inode (m.entry s).ino x rootIno).direct 0 = rootDirLba
    rw [hkeep, h.root_direct]
  · show InodeOk blockCount m.bb (Function.update m.inode (m.entry s).ino x (m.entry i).ino)
    by_cases his : i = s
    · rw [his, Function.update_self]
      exact hx
    · rw [hother i hi his]
      exact h.file i hi
  · show Apart (Function.update m.inode (m.entry s).ino x (m.entry i).ino)
      (Function.update m.inode (m.entry s).ino x (m.entry j).ino)
    by_cases his : i = s
    · rw [his, Function.update_self, hother j hj fun hjs => hij (his.trans hjs.symm)]
      exact hapart j hj fun hjs => hij (his.trans hjs.symm)
    · rw [hother i hi his]
      by_cases hjs : j = s
      · rw [hjs, Function.update_self]
        exact (hapart i hi his).symm
      · rw [hother j hj hjs]
        exact h.blocks i j hi hj hij

/-- What is sound about one entry. -/
structure EntryOk (blockCount : Nat) (m : Meta) (i : Nat) (e : Entry) : Prop where
  slot : i < direntCount
  ino_ge : 2 ≤ e.ino
  ino_le : e.ino ≤ maxInodes
  type : e.type = modeFile
  bit : m.ib e.ino = true
  file : InodeOk blockCount m.bb (m.inode e.ino)

theorem entryOk (h : MetaInv blockCount m) {i : Nat} (hi : m.Used i) :
    EntryOk blockCount m i (m.entry i) :=
  ⟨h.slot i hi, h.ino_ge i hi, h.ino_le i hi, h.type i hi, h.bit i hi, h.file i hi⟩

/-- Other entries, each of them sound, with inodes and blocks of their own. -/
theorem setEntries (h : MetaInv blockCount m) {entry : Nat → Entry}
    (hok : ∀ i, (entry i).ino ≠ 0 → EntryOk blockCount m i (entry i))
    (hinos : ∀ i j, (entry i).ino ≠ 0 → (entry j).ino ≠ 0 → (entry i).ino = (entry j).ino → i = j)
    (hblocks : ∀ i j, (entry i).ino ≠ 0 → (entry j).ino ≠ 0 → i ≠ j →
      Apart (m.inode (entry i).ino) (m.inode (entry j).ino)) :
    MetaInv blockCount { m with entry := entry } :=
  ⟨h.root_bit, h.system, h.root_mode, h.root_direct, fun i hi => (hok i hi).slot,
    fun i hi => (hok i hi).ino_ge, fun i hi => (hok i hi).ino_le, fun i hi => (hok i hi).type,
    fun i hi => (hok i hi).bit, fun i hi => (hok i hi).file, hinos, hblocks⟩

/-- A new entry, for an inode that no other entry refers to. -/
theorem addEntry (h : MetaInv blockCount m) {s ino : Nat} (hs : s < direntCount) (hge : 2 ≤ ino)
    (hle : ino ≤ maxInodes) (hbit : m.ib ino = true)
    (hfree : ∀ i, m.Used i → (m.entry i).ino ≠ ino)
    (hx : InodeOk blockCount m.bb (m.inode ino))
    (hapart : ∀ i, m.Used i → Apart (m.inode ino) (m.file i)) :
    MetaInv blockCount { m with entry := Function.update m.entry s ⟨ino, modeFile⟩ } := by
  have hself : Function.update m.entry s ⟨ino, modeFile⟩ s = ⟨ino, modeFile⟩ :=
    Function.update_self ..
  have hother : ∀ i, i ≠ s → Function.update m.entry s ⟨ino, modeFile⟩ i = m.entry i :=
    fun i his => Function.update_of_ne his ..
  refine h.setEntries (fun i hi => ?_) (fun i j hi hj he => ?_) fun i j hi hj hij => ?_
  · by_cases his : i = s
    · rw [his, hself]
      exact ⟨hs, hge, hle, rfl, hbit, hx⟩
    · rw [hother i his] at hi ⊢
      exact h.entryOk hi
  · by_cases his : i = s <;> by_cases hjs : j = s
    · exact his.trans hjs.symm
    · rw [hother j hjs] at hj he
      rw [his, hself] at he
      exact absurd he.symm (hfree j hj)
    · rw [hother i his] at hi he
      rw [hjs, hself] at he
      exact absurd he (hfree i hi)
    · rw [hother i his] at hi he
      rw [hother j hjs] at hj he
      exact h.inos i j hi hj he
  · by_cases his : i = s <;> by_cases hjs : j = s
    · exact absurd (his.trans hjs.symm) hij
    · rw [hother j hjs] at hj ⊢
      rw [his, hself]
      exact hapart j hj
    · rw [hother i his] at hi ⊢
      rw [hjs, hself]
      exact (hapart i hi).symm
    · rw [hother i his] at hi ⊢
      rw [hother j hjs] at hj ⊢
      exact h.blocks i j hi hj hij

/-- Fewer entries. -/
theorem restrict (h : MetaInv blockCount m) {entry : Nat → Entry}
    (hsub : ∀ i, (entry i).ino ≠ 0 → m.Used i ∧ entry i = m.entry i) :
    MetaInv blockCount { m with entry := entry } := by
  refine h.setEntries (fun i hi => ?_) (fun i j hi hj he => ?_) fun i j hi hj hij => ?_
  · rw [(hsub i hi).2]
    exact h.entryOk (hsub i hi).1
  · rw [(hsub i hi).2, (hsub j hj).2] at he
    exact h.inos i j (hsub i hi).1 (hsub j hj).1 he
  · rw [(hsub i hi).2, (hsub j hj).2]
    exact h.blocks i j (hsub i hi).1 (hsub j hj).1 hij

theorem used_clear {entry : Nat → Entry} {s i : Nat}
    (hi : (Function.update entry s ⟨0, 0⟩ i).ino ≠ 0) :
    i ≠ s ∧ Function.update entry s ⟨0, 0⟩ i = entry i := by
  by_cases his : i = s
  · rw [his, Function.update_self] at hi
    exact absurd rfl hi
  · exact ⟨his, Function.update_of_ne his ..⟩

theorem clearEntry (h : MetaInv blockCount m) (s : Nat) :
    MetaInv blockCount { m with entry := Function.update m.entry s ⟨0, 0⟩ } :=
  h.restrict fun i hi => ⟨by rw [(used_clear hi).2] at hi; exact hi, (used_clear hi).2⟩

end MetaInv

end Mcsos.Mcsfs1
