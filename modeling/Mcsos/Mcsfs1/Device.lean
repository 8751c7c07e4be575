import Mcsos.Lib.ProgSpec
import Mcsos.Mcsfs1.Mcsfs1

set_option autoImplicit false

/-! # What the file system does to the blocks of the device

A `Disk` is what does not change: the number of blocks, and which writes and flushes fail. On a
given disk whose reads do not fail, `Does` says how a function ends in terms of the blocks before
and after. Reading leaves the blocks as they are, a write puts one block or fails with `IO` and puts
none.
-/

namespace Mcsos.Mcsfs1

open Prog

/-- What stays as it is. -/
structure Disk where
  blockCount : Nat
  fails : Nat → Bool

/-- The blocks of the device. -/
abbrev Blocks := Nat → Bytes

/-- Some write or flush fails on this disk. -/
def Disk.Faulty (D : Disk) : Prop := ∃ k, D.fails k = true

/-- The reads of the device do not fail. -/
def Blkdev.Readable (dev : Blkdev) : Prop := ∀ k, dev.readFails k = false

/-- Nothing that is asked of the device fails. -/
def Blkdev.FaultFree (dev : Blkdev) : Prop := (∀ k, dev.fails k = false) ∧ dev.Readable

/-- The device is this disk, with these blocks, and can be read. -/
structure Has (D : Disk) (c : Blocks) (dev : Blkdev) : Prop where
  blockCount : dev.blockCount = D.blockCount
  fails : dev.fails = D.fails
  blocks : dev.blocks = c
  readable : dev.Readable

/-- From the blocks `c`, `x` ends with a value and blocks of which `Q` holds, or with an error and
blocks of which `E` holds. -/
def Does {α : Type} (D : Disk) (x : M15 α) (c : Blocks) (Q : α → Blocks → Prop)
    (E : Mcsfs1Err → Blocks → Prop) : Prop :=
  ∀ dev, Has D c dev → x.Ends dev (fun a dev' => ∃ c', Has D c' dev' ∧ Q a c')
    (fun e dev' => ∃ c', Has D c' dev' ∧ E e c')

/-- The blocks after block `lba` has been written. -/
def put (c : Blocks) (lba : Nat) (buf : Bytes) : Blocks :=
  Function.update c lba (Bytes.clip blockSize buf)

theorem put_same (c : Blocks) (lba : Nat) (buf : Bytes) :
    put c lba buf lba = Bytes.clip blockSize buf := Function.update_self ..

theorem put_ne {c : Blocks} {lba b : Nat} (h : b ≠ lba) (buf : Bytes) : put c lba buf b = c b :=
  Function.update_of_ne h ..

section Rules

variable {α β : Type} {D : Disk} {c : Blocks} {Q Q' : α → Blocks → Prop}
variable {E E' : Mcsfs1Err → Blocks → Prop} {R : Unit → Blocks → Prop}

theorem does_pure {a : α} (h : Q a c) : Does D (pure a) c Q E := fun _ hdev =>
  ends_pure ⟨c, hdev, h⟩

theorem Does.bind {x : M15 α} {f : α → M15 β} {S : β → Blocks → Prop} (hx : Does D x c Q E)
    (hf : ∀ a c', Q a c' → Does D (f a) c' S E) : Does D (x >>= f) c S E := fun dev hdev =>
  (hx dev hdev).bind fun a dev' ⟨c', hdev', h⟩ => hf a c' h dev' hdev'

theorem Does.mono {x : M15 α} (hx : Does D x c Q E) (hq : ∀ a c', Q a c' → Q' a c')
    (he : ∀ e c', E e c' → E' e c') : Does D x c Q' E' := fun dev hdev =>
  (hx dev hdev).mono (fun a _ ⟨c', hdev', h⟩ => ⟨c', hdev', hq a c' h⟩)
    fun e _ ⟨c', hdev', h⟩ => ⟨c', hdev', he e c' h⟩

/-- Two things that are known of one function. -/
theorem Does.and {x : M15 α} (hx : Does D x c Q E) (hx' : Does D x c Q' E') :
    Does D x c (fun a c' => Q a c' ∧ Q' a c') (fun e c' => E e c' ∧ E' e c') := by
  intro dev hdev
  rcases hr : x dev with ⟨e | a, dev'⟩
  · obtain ⟨c', hdev', h⟩ := (hx dev hdev).error hr
    obtain ⟨c'', hdev'', h'⟩ := (hx' dev hdev).error hr
    obtain rfl : c' = c'' := hdev'.blocks.symm.trans hdev''.blocks
    exact ends_of_error hr ⟨c', hdev', h, h'⟩
  · obtain ⟨c', hdev', h⟩ := (hx dev hdev).ok hr
    obtain ⟨c'', hdev'', h'⟩ := (hx' dev hdev).ok hr
    obtain rfl : c' = c'' := hdev'.blocks.symm.trans hdev''.blocks
    exact ends_of_ok hr ⟨c', hdev', h, h'⟩

theorem does_blockCount {Q : Nat → Blocks → Prop} (h : Q D.blockCount c) :
    Does D (Prog.asks Blkdev.blockCount) c Q E := fun dev hdev =>
  ends_asks ⟨c, hdev, by rw [hdev.blockCount]; exact h⟩

theorem does_failIf {p : Prop} [Decidable p] {e : Mcsfs1Err} (he : p → E e c)
    (hq : ¬p → R () c) : Does D (Prog.failIf p e) c R E := fun _ hdev =>
  ends_failIf (fun hp => ⟨c, hdev, he hp⟩) fun hp => ⟨c, hdev, hq hp⟩

theorem does_ofOption {x : Option α} {e : Mcsfs1Err} (hn : x = none → E e c)
    (hs : ∀ a, x = some a → Q a c) : Does D (Prog.ofOption x e) c Q E := fun _ hdev =>
  ends_ofOption (fun h => ⟨c, hdev, hn h⟩) fun a h => ⟨c, hdev, hs a h⟩

theorem does_ofExcept {x : Except Mcsfs1Err α} (he : ∀ e, x = .error e → E e c)
    (hq : ∀ a, x = .ok a → Q a c) : Does D (Prog.ofExcept x) c Q E := fun _ hdev =>
  ends_ofExcept (fun e h => ⟨c, hdev, he e h⟩) fun a h => ⟨c, hdev, hq a h⟩

theorem does_attempt {x : M15 α} {S : Except Mcsfs1Err α → Blocks → Prop}
    (hx : Does D x c (fun a c' => S (.ok a) c') (fun e c' => S (.error e) c')) :
    Does D (Prog.attempt x) c S E := fun dev hdev => ends_attempt (hx dev hdev)

theorem does_read {lba : Nat} {Q : Bytes → Blocks → Prop} (hlba : lba < D.blockCount)
    (h : Q (c lba) c) : Does D (devRead lba) c Q E := by
  intro dev hdev
  have hread : devRead lba dev =
      (.ok (dev.blocks lba), { dev with reads := lba :: dev.reads }) := by
    unfold devRead
    rw [if_neg (by rw [hdev.blockCount]; omega), if_neg (by simp [hdev.readable _])]
  exact ends_of_ok hread ⟨c, ⟨hdev.blockCount, hdev.fails, hdev.blocks, hdev.readable⟩,
    by rw [hdev.blocks]; exact h⟩

theorem does_write {lba : Nat} {buf : Bytes} (hlba : lba < D.blockCount)
    (h : R () (put c lba buf)) (he : D.Faulty → E .io c) :
    Does D (devWrite lba buf) c R E := by
  intro dev hdev
  have hcount : ¬dev.blockCount ≤ lba := by
    rw [hdev.blockCount]
    omega
  cases hfail : dev.fails dev.calls with
  | true =>
      have hwrite : devWrite lba buf dev = (.error .io, { dev with calls := dev.calls + 1 }) := by
        unfold devWrite
        rw [if_neg hcount, if_pos hfail]
      exact ends_of_error hwrite
        ⟨c, ⟨hdev.blockCount, hdev.fails, hdev.blocks, hdev.readable⟩,
          he ⟨dev.calls, hdev.fails ▸ hfail⟩⟩
  | false =>
      have hwrite : devWrite lba buf dev = (.ok (), { dev with
          calls := dev.calls + 1
          blocks := Function.update dev.blocks lba (Bytes.clip blockSize buf) }) := by
        unfold devWrite
        rw [if_neg hcount, if_neg (by simp [hfail])]
      exact ends_of_ok hwrite
        ⟨put c lba buf, ⟨hdev.blockCount, hdev.fails, by rw [hdev.blocks]; rfl, hdev.readable⟩, h⟩

theorem does_flush (h : R () c) (he : D.Faulty → E .io c) : Does D devFlush c R E := by
  intro dev hdev
  cases hfail : dev.fails dev.calls with
  | true =>
      have hflush : devFlush dev = (.error .io, { dev with calls := dev.calls + 1 }) := by
        unfold devFlush
        rw [if_pos hfail]
      exact ends_of_error hflush
        ⟨c, ⟨hdev.blockCount, hdev.fails, hdev.blocks, hdev.readable⟩,
          he ⟨dev.calls, hdev.fails ▸ hfail⟩⟩
  | false =>
      have hflush : devFlush dev = (.ok (), { dev with calls := dev.calls + 1 }) := by
        unfold devFlush
        rw [if_neg (by simp [hfail])]
      exact ends_of_ok hflush ⟨c, ⟨hdev.blockCount, hdev.fails, hdev.blocks, hdev.readable⟩, h⟩

/-! ### The same, and what comes after it -/

section Binds

variable {S : β → Blocks → Prop}

theorem bind_blockCount {f : Nat → M15 β} (h : Does D (f D.blockCount) c S E) :
    Does D (Prog.asks Blkdev.blockCount >>= f) c S E :=
  (does_blockCount (Q := fun n c' => D.blockCount = n ∧ c = c') ⟨rfl, rfl⟩).bind
    fun _ _ ⟨hn, hc⟩ => hn ▸ hc ▸ h

theorem bind_failIf {p : Prop} [Decidable p] {e : Mcsfs1Err} {f : Unit → M15 β} (he : p → E e c)
    (h : ¬p → Does D (f ()) c S E) : Does D (Prog.failIf p e >>= f) c S E :=
  (does_failIf (R := fun _ c' => ¬p ∧ c = c') he fun hp => ⟨hp, rfl⟩).bind
    fun _ _ ⟨hp, hc⟩ => hc ▸ h hp

theorem bind_ofOption {x : Option α} {e : Mcsfs1Err} {f : α → M15 β} (hn : x = none → E e c)
    (h : ∀ a, x = some a → Does D (f a) c S E) : Does D (Prog.ofOption x e >>= f) c S E :=
  (does_ofOption (Q := fun a c' => x = some a ∧ c = c') hn fun _ ha => ⟨ha, rfl⟩).bind
    fun a _ ⟨ha, hc⟩ => hc ▸ h a ha

theorem bind_ofExcept {x : Except Mcsfs1Err α} {f : α → M15 β} (he : ∀ e, x = .error e → E e c)
    (h : ∀ a, x = .ok a → Does D (f a) c S E) : Does D (Prog.ofExcept x >>= f) c S E :=
  (does_ofExcept (Q := fun a c' => x = .ok a ∧ c = c') he fun _ ha => ⟨ha, rfl⟩).bind
    fun a _ ⟨ha, hc⟩ => hc ▸ h a ha

theorem bind_read {lba : Nat} {f : Bytes → M15 β} (hlba : lba < D.blockCount)
    (h : Does D (f (c lba)) c S E) : Does D (devRead lba >>= f) c S E :=
  (does_read (Q := fun b c' => c lba = b ∧ c = c') hlba ⟨rfl, rfl⟩).bind
    fun _ _ ⟨hb, hc⟩ => hb ▸ hc ▸ h

theorem bind_write {lba : Nat} {buf : Bytes} {f : Unit → M15 β} (hlba : lba < D.blockCount)
    (he : D.Faulty → E .io c) (h : Does D (f ()) (put c lba buf) S E) :
    Does D (devWrite lba buf >>= f) c S E :=
  (does_write (R := fun _ c' => put c lba buf = c') hlba rfl he).bind fun _ _ hc => hc ▸ h

/-- The two bitmap blocks, one after the other. -/
theorem bind_storeBmaps {ib bb : Bytes} {f : Unit → M15 β} (hbc : 8 < D.blockCount)
    (he : D.Faulty → E .io c) (he' : D.Faulty → E .io (put c inodeBmapLba ib))
    (h : Does D (f ()) (put (put c inodeBmapLba ib) blockBmapLba bb) S E) :
    Does D (storeBmaps ib bb >>= f) c S E := by
  have hstore : Does D (storeBmaps ib bb) c
      (fun _ c' => put (put c inodeBmapLba ib) blockBmapLba bb = c') E :=
    bind_write (show 1 < _ by omega) he (does_write (show 2 < _ by omega) rfl he')
  exact hstore.bind fun _ _ hc => hc ▸ h

end Binds

/-! ## Inodes -/

/-- Inode `ino` as `read_inode` reads it. -/
def inodeOf (c : Blocks) (ino : Nat) : Bytes :=
  Bytes.zero.copy 0 (c (inodeLba ino)) (inodeOff ino) inodeSize

/-- The blocks after inode `ino` has been written. -/
def putInode (c : Blocks) (ino : Nat) (inode : Bytes) : Blocks :=
  put c (inodeLba ino) ((c (inodeLba ino)).copy (inodeOff ino) inode 0 inodeSize)

/-- The numbers that an inode can have. -/
def InoOk (ino : Nat) : Prop := 1 ≤ ino ∧ ino ≤ maxInodes

instance (ino : Nat) : Decidable (InoOk ino) := inferInstanceAs (Decidable (_ ∧ _))

theorem inodeLba_lt {ino : Nat} (h : InoOk ino) : inodeLba ino < 7 := by
  have h2 : ino ≤ 32 := h.2
  show 3 + (ino - 1) / 8 < 7
  omega

theorem inodeLba_ge (ino : Nat) : 3 ≤ inodeLba ino := Nat.le_add_right _ _

theorem InoOk.not_bad {ino : Nat} (h : InoOk ino) : ¬(ino = 0 ∨ maxInodes < ino) := by
  have h1 := h.1
  have h2 := h.2
  omega

theorem InoOk.lba_not_bad {ino : Nat} (h : InoOk ino) : ¬dataStartLba ≤ inodeLba ino :=
  fun hbad => absurd (inodeLba_lt h) (not_lt.mpr (le_trans (by decide) hbad))

theorem bind_readInode {ino : Nat} {f : Bytes → M15 β} {S : β → Blocks → Prop}
    (hbc : 8 < D.blockCount) (hino : InoOk ino) (h : Does D (f (inodeOf c ino)) c S E) :
    Does D (readInode ino >>= f) c S E := by
  have hlba := inodeLba_lt hino
  have hread : Does D (readInode ino) c (fun b c' => inodeOf c ino = b ∧ c = c') E :=
    bind_failIf (fun hbad => absurd hbad hino.not_bad) fun _ =>
      bind_failIf (fun hbad => absurd hbad hino.lba_not_bad) fun _ =>
        bind_read (by omega) (does_pure ⟨rfl, rfl⟩)
  exact hread.bind fun _ _ ⟨hb, hc⟩ => hb ▸ hc ▸ h

theorem bind_writeInode {ino : Nat} {inode : Bytes} {f : Unit → M15 β} {S : β → Blocks → Prop}
    (hbc : 8 < D.blockCount) (hino : InoOk ino) (he : D.Faulty → E .io c)
    (h : Does D (f ()) (putInode c ino inode) S E) : Does D (writeInode ino inode >>= f) c S E := by
  have hlba := inodeLba_lt hino
  have hwrite : Does D (writeInode ino inode) c (fun _ c' => putInode c ino inode = c') E :=
    bind_failIf (fun hbad => absurd hbad hino.not_bad) fun _ =>
      bind_failIf (fun hbad => absurd hbad hino.lba_not_bad) fun _ =>
        bind_read (by omega) (does_write (by omega) rfl he)
  exact hwrite.bind fun _ _ hc => hc ▸ h

end Rules

end Mcsos.Mcsfs1
