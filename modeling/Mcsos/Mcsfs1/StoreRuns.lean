import Mcsos.Lib.Machine
import Mcsos.Mcsfs1.StoreCalls

set_option autoImplicit false

/-! # The file system is a store of files

Format, mount, and then calls in any order, with checks and further mounts in between: on a device
that does not fail, all of them return what the store of files returns. So nothing of the image can
be seen through the calls but the files and the number of free blocks, and a mount forgets none of
them.
-/

namespace Mcsos.Mcsfs1

/-- What is done with a formatted device: a call, `mcsfs1_fsck`, or mounting it once more. -/
inductive Step where
  | call (op : Call)
  | fsck
  | mount

/-- The mount and the device: a call uses the mount that there is. -/
abbrev Mounted := Mount × Blkdev

def Step.exec : Step → Mounted → Except Mcsfs1Err (List UInt8) × Mounted
  | .call op, (mnt, dev) => ((op.exec mnt dev).1, mnt, (op.exec mnt dev).2)
  | .fsck, (mnt, dev) => ((Mcsfs1.fsck dev).1.map fun _ => [], mnt, (Mcsfs1.fsck dev).2)
  | .mount, (mnt, dev) =>
    match Mcsfs1.mount dev with
    | (.ok mnt', dev') => (.ok [], mnt', dev')
    | (.error e, dev') => (.error e, mnt, dev')

/-- The same for the store: it is not damaged, and there is nothing to mount. -/
def Step.store : Step → Store → Except Mcsfs1Err (List UInt8) × Store
  | .call op, st => st.exec op
  | .fsck, st => (.ok [], st)
  | .mount, st => (.ok [], st)

/-- The names in calls do not fill their field. -/
def Step.Short : Step → Prop
  | .call op => op.Short
  | _ => True

instance : (step : Step) → Decidable step.Short
  | .call op => inferInstanceAs (Decidable op.Short)
  | .fsck => .isTrue trivial
  | .mount => .isTrue trivial

/-- The device has the files of the store, and the mount is of this device. -/
structure Serves (D : Disk) (m : Mounted) (st : Store) : Prop where
  count : m.1.blockCount = D.blockCount
  gt : 8 < D.blockCount
  le : D.blockCount ≤ 4096
  has : Has D m.2.blocks m.2
  holds : Holds D m.2.blocks st

section

variable {D : Disk} {c : Blocks} {st : Store} {m : Mounted}

theorem does_mount (h8 : 8 < D.blockCount) (h : Inv D.blockCount c) :
    Does D mount c (fun mnt c' => mnt.blockCount = D.blockCount ∧ c' = c) fun _ _ => False := by
  refine bind_loadSuper h8 h.super (bind_readInode h8 rootIno_ok (bind_failIf (fun hbad => ?_)
    fun _ => does_pure ⟨h.super.blockCount, rfl⟩))
  rcases hbad with hbad | hbad
  · exact hbad h.root.1
  · exact hbad h.root.2

theorem Serves.call (h : Serves D m st) (hgood : ¬D.Faulty) {op : Call} (hop : op.Short) :
    Agrees D (op.exec m.1) m.2.blocks (st.exec op) := by
  cases op with
  | create name past => exact h.holds.agrees_create h.gt h.le hgood m.1 name past hop
  | write name buf len past => exact h.holds.agrees_write h.gt h.le hgood m.1 name buf len past
  | read name cap past => exact h.holds.agrees_read h.gt h.le h.count name cap past
  | unlink name past => exact h.holds.agrees_unlink h.gt h.le hgood m.1 name past

/-- Each step returns what the store returns. -/
theorem refines_store (hgood : ¬D.Faulty) :
    Refines Step.exec Step.store Step.Short (Serves D) := by
  refine ⟨fun step m st hok h => ?_⟩
  cases step with
  | call op =>
      have hends := h.call hgood hok m.2 h.has
      rcases hr : op.exec m.1 m.2 with ⟨e | out, dev'⟩
      · obtain ⟨c', hdev', he, hholds⟩ := hends.error hr
        obtain rfl := hdev'.blocks_eq
        simp only [Step.exec, hr]
        exact ⟨he.symm, h.count, h.gt, h.le, hdev', hholds⟩
      · obtain ⟨c', hdev', he, hholds⟩ := hends.ok hr
        obtain rfl := hdev'.blocks_eq
        simp only [Step.exec, hr]
        exact ⟨he.symm, h.count, h.gt, h.le, hdev', hholds⟩
  | fsck =>
      have hends := does_fsck h.gt h.le h.holds.inv m.2 h.has
      rcases hr : fsck m.2 with ⟨e | ⟨⟩, dev'⟩
      · obtain ⟨c', -, hfalse⟩ := hends.error hr
        exact hfalse.elim
      · obtain ⟨c', hdev', hc⟩ := hends.ok hr
        obtain rfl := hdev'.blocks_eq
        simp only [Step.exec, hr]
        exact ⟨rfl, h.count, h.gt, h.le, hdev', hc ▸ h.holds⟩
  | mount =>
      have hends := does_mount h.gt h.holds.inv m.2 h.has
      rcases hr : mount m.2 with ⟨e | mnt, dev'⟩
      · obtain ⟨c', -, hfalse⟩ := hends.error hr
        exact hfalse.elim
      · obtain ⟨c', hdev', hcount, hc⟩ := hends.ok hr
        obtain rfl := hdev'.blocks_eq
        simp only [Step.exec, hr]
        exact ⟨rfl, hcount, h.gt, h.le, hdev', hc ▸ h.holds⟩

/-- A formatted image has the files of an empty store. -/
theorem Holds.format (hcount : D.blockCount ≤ blockSize * 8) (hdir : c rootDirLba = Bytes.zero) :
    Holds D (formatted D.blockCount c) (Store.empty (D.blockCount - dataStartLba)) := by
  have hnone : ∀ i, ¬(metaOf (formatted D.blockCount c)).Used i := formatted_not_used hdir
  have hlisted : Listed (formatted D.blockCount c rootDirLba) ∅ := formatted_listed hdir
  have hx : Exact (metaOf (formatted D.blockCount c)) := Exact.format hdir
  refine ⟨formatted_inv hcount hdir, hx.ib, ?_, fun k hk => ?_, fun i hi => absurd hi (hnone i), ?_,
    ?_⟩
  · simpa [Store.empty] using hlisted
  · simp [Store.empty] at hk
  · show (usedSlots (formatted D.blockCount c)).card = 0
    rw [Finset.card_eq_zero, Finset.eq_empty_iff_forall_notMem]
    exact fun i hi => hnone i (mem_usedSlots.mp hi)
  · have hset : freeBlocks D.blockCount (metaOf (formatted D.blockCount c)) =
        Finset.Ico dataStartLba D.blockCount := by
      ext b
      have hbit := (hx.no_files hnone).2 b
      simp only [freeBlocks, Finset.mem_filter, Finset.mem_range, Finset.mem_Ico,
        Bool.eq_false_iff, ne_eq, hbit]
      omega
    rw [hset, Nat.card_Ico]
    rfl

end

/-- **The file system is a store of files.** After a format and a mount, on a device that does not
fail, calls with names of up to 26 characters, checks and further mounts return what they return on
a store of files that has all data blocks free at first. -/
theorem stepRun_store {dev dev' : Blkdev} {mnt : Mount} (hmin : minBlocks ≤ dev.blockCount)
    (hmax : dev.blockCount ≤ blockSize * 8) (hfault : dev.FaultFree)
    (hmount : mount (format dev).2 = (.ok mnt, dev')) (steps : List Step)
    (hsteps : ∀ step ∈ steps, step.Short) :
    (answer Step.exec steps (mnt, dev')).1 =
      (answer Step.store steps (Store.empty (dev.blockCount - dataStartLba))).1 := by
  obtain ⟨hsound, -, c₀, hdir, hblocks⟩ := format_sound hfault.2 (format_ok hmin hmax hfault)
  have hholds : Holds dev.disk (format dev).2.blocks (Store.empty (dev.blockCount - dataStartLba)) :=
    hblocks ▸ Holds.format (D := dev.disk) hmax hdir
  obtain ⟨c', hdev', hcount, hc⟩ := (does_mount hsound.gt hsound.inv _ hsound.has).ok hmount
  obtain rfl := hdev'.blocks_eq
  have hserves : Serves dev.disk (mnt, dev') (Store.empty (dev.blockCount - dataStartLba)) :=
    ⟨hcount, hsound.gt, hsound.le, hdev', hc ▸ hholds⟩
  exact ((refines_store (not_faulty hfault)).run hsteps hserves).1

/-- A file outlives a mount, and the device is full after 8 blocks. -/
theorem stepRun_store_full : ∃ mnt dev', mount (format freshDevice).2 = (.ok mnt, dev') ∧
    (answer Step.exec [.call (.create nameA 0), .call (.write nameA (fun _ => 7) 3 0), .mount,
      .call (.read nameA 9 0), .call (.create nameB 0), .call (.write nameB (fun _ => 8) 4096 0),
      .call (.unlink nameB 0), .fsck] (mnt, dev')).1 =
      [.ok [], .ok [], .ok [], .ok [7, 7, 7], .ok [], .error .nospc, .ok [], .ok []] := by
  have hfault : freshDevice.FaultFree := ⟨fun _ => rfl, fun _ => rfl⟩
  have hmount : (mount (format freshDevice).2).1 = .ok ⟨16, 8⟩ := by decide +kernel
  refine ⟨_, _, Prog.eq_of_ok hmount, ?_⟩
  rw [stepRun_store (by decide) (by decide) hfault (Prog.eq_of_ok hmount) _ ?_]
  · decide +kernel
  · decide +kernel

end Mcsos.Mcsfs1
