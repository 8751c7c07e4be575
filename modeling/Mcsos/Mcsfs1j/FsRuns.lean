import Mcsos.Mcsfs1j.FsFormat

set_option autoImplicit false

/-! # Crash consistency

Runs of operations on a formatted device, where the fault injection may be set anew before every
operation. What the runs are measured against is a partial function from names to contents: each
operation changes it as `OpContract` allows by its result, and what the device shows after a
successful mount is that function, never anything in between.
-/

namespace Mcsos.Mcsfs1j

/-! ## Operations and runs -/

/-- The calls of a run. -/
inductive Op where
  | writeFile (name data : Bytes) (size : Nat)
  | writeFileStop (name data : Bytes) (size : Nat)
  | readFile (name : Bytes) (outCap : Nat)
  | fsck
  | mount
  | journalRecover

/-- A call; only a read gives anything back. `writeFileStop` is `m16_write_file_ex` with
`stop_after_commit_record = 1`. -/
def Op.exec : Op → M16 (List UInt8)
  | .writeFile name data size => do
    Mcsfs1j.writeFile name data size
    pure []
  | .writeFileStop name data size => do
    writeFileEx name data size true
    pure []
  | .readFile name outCap => Mcsfs1j.readFile name outCap
  | .fsck => do
    Mcsfs1j.fsck
    pure []
  | .mount => do
    let _ ← Mcsfs1j.mount
    pure []
  | .journalRecover => do
    Mcsfs1j.journalRecover
    pure []

/-- Name and contents of the file that a call writes. -/
def Op.file : Op → Option (List UInt8 × List UInt8)
  | .writeFile name data size => some (nameKey name, data.slice 0 size)
  | .writeFileStop name data size => some (nameKey name, data.slice 0 size)
  | _ => none

/-- A call, and what `fail_after` is set to before it, if it is. -/
structure Step where
  failAfter : Option Int
  op : Op

def Step.before (s : Step) (dev : Blockdev) : Blockdev :=
  match s.failAfter with
  | none => dev
  | some k => { dev with failAfter := k }

def Step.exec (s : Step) (dev : Blockdev) : Except M16Err (List UInt8) × Blockdev :=
  s.op.exec (s.before dev)

/-- The device after the steps. -/
def runSteps (steps : List Step) (dev : Blockdev) : Blockdev :=
  steps.foldl (fun d s => (s.exec d).2) dev

/-- The device after the first `i` steps. -/
def stateAt (steps : List Step) (dev : Blockdev) (i : Nat) : Blockdev := runSteps (steps.take i) dev

/-! ## What a step may do to the files -/

/-- The files before and after a call with the result `r`. -/
def OpContract (op : Op) (r : Except M16Err (List UInt8)) (before after : Files) : Prop :=
  match op with
  | .writeFile name data size => WriteContract before after (nameKey name) (data.slice 0 size) r
  | .writeFileStop name data size =>
    WriteContract before after (nameKey name) (data.slice 0 size) r
  | .readFile name outCap =>
    after = before ∧ (r = readSpec before (nameKey name) outCap ∨ r = .error .io)
  | _ => after = before

/-- The files stay, or the file of a write that returned `OK` or `IO` comes to them. -/
theorem OpContract.grows {op : Op} {r : Except M16Err (List UInt8)} {before after : Files}
    (h : OpContract op r before after) : after = before ∨
      ∃ key data, op.file = some (key, data) ∧ ((∃ a, r = .ok a) ∨ r = .error .io) ∧
        before key = none ∧ after = Function.update before key (some data) := by
  have hwrite : ∀ {key data : List UInt8}, op.file = some (key, data) →
      WriteContract before after key data r → after = before ∨
      ∃ key data, op.file = some (key, data) ∧ ((∃ a, r = .ok a) ∨ r = .error .io) ∧
        before key = none ∧ after = Function.update before key (some data) := by
    intro key data hf hw
    rcases r with e | a
    · cases e with
      | io =>
          rcases hw with hw | ⟨hnone, hw⟩
          · exact Or.inl hw
          · exact Or.inr ⟨key, data, hf, Or.inr rfl, hnone, hw⟩
      | inval => exact Or.inl hw
      | nospc => exact Or.inl hw
      | «exists» => exact Or.inl hw
      | noent => exact Or.inl hw
      | corrupt => exact Or.inl hw
      | toolong => exact Or.inl hw
      | wild => exact Or.inl hw
    · exact Or.inr ⟨key, data, hf, Or.inl ⟨a, rfl⟩, hw.1, hw.2⟩
  cases op with
  | writeFile name data size => exact hwrite rfl h
  | writeFileStop name data size => exact hwrite rfl h
  | readFile name outCap => exact Or.inl h.1
  | fsck => exact Or.inl h
  | mount => exact Or.inl h
  | journalRecover => exact Or.inl h

/-- A write that returned `OK` has put its file there. -/
theorem OpContract.written {op : Op} {a : List UInt8} {before after : Files} {key data : List UInt8}
    (h : OpContract op (.ok a) before after) (hf : op.file = some (key, data)) :
    after key = some data := by
  cases op with
  | writeFile name d size =>
      obtain ⟨rfl, rfl⟩ := Prod.mk.inj (Option.some.inj hf)
      rw [h.2, Function.update_self]
  | writeFileStop name d size =>
      obtain ⟨rfl, rfl⟩ := Prod.mk.inj (Option.some.inj hf)
      rw [h.2, Function.update_self]
  | readFile name outCap => cases hf
  | fsck => cases hf
  | mount => cases hf
  | journalRecover => cases hf

/-! ## The step lemma -/

theorem Held.failAfter {dev : Blockdev} {c : Nat → Bytes} (h : Held dev c) (k : Int) :
    Held { dev with failAfter := k } c :=
  ⟨(settled_failAfter k).mpr h.settled, h.total, h.image⟩

theorem Held.before {dev : Blockdev} {c : Nat → Bytes} (h : Held dev c) (s : Step) :
    Held (s.before dev) c := by
  unfold Step.before
  cases s.failAfter with
  | none => exact h
  | some k => exact h.failAfter k

/-- The result of a call whose value is dropped. -/
theorem discard_eq {α : Type} (x : M16 α) (dev : Blockdev) :
    ((x >>= fun _ => pure []) : M16 (List UInt8)) dev = ((x dev).1.map (fun _ => []), (x dev).2) := by
  rcases hx : x dev with ⟨e | a, dev'⟩
  · rw [Prog.bind_error hx]
    rfl
  · rw [Prog.bind_ok hx]
    rfl

/-- The images before and after a call with the result `r`. -/
def OpImages (op : Op) (r : Except M16Err (List UInt8)) (before after : Nat → Bytes) : Prop :=
  match op with
  | .writeFile name data size => WriteImages before after name data size r
  | .writeFileStop name data size => WriteImages before after name data size r
  | .readFile name outCap => after = before ∧
      (r = readSpec (filesOf before) (nameKey name) outCap ∨ r = .error .io)
  | _ => after = before

theorem OpImages.contract {op : Op} {r : Except M16Err (List UInt8)} {before after : Nat → Bytes}
    (h : ImageInv before) (ho : OpImages op r before after) :
    OpContract op r (filesOf before) (filesOf after) := by
  cases op with
  | writeFile name data size => exact WriteImages.contract h ho
  | writeFileStop name data size => exact WriteImages.contract h ho
  | readFile name outCap => exact ⟨congrArg filesOf ho.1, ho.2⟩
  | fsck => exact congrArg filesOf ho
  | mount => exact congrArg filesOf ho
  | journalRecover => exact congrArg filesOf ho

/-- One call: the device goes on holding an image, which changes by the result. -/
theorem exec_held {dev : Blockdev} {c : Nat → Bytes} (h : Held dev c) (op : Op) :
    ∃ c', Held (op.exec dev).2 c' ∧ OpImages op (op.exec dev).1 c c' := by
  cases op with
  | writeFile name data size =>
      obtain ⟨r, dev', c', hrun, hheld, hw⟩ := writeFileEx_spec h name data size false
      refine ⟨c', ?_, ?_⟩
      · rw [Op.exec, discard_eq, writeFile, hrun]
        exact hheld
      · rw [Op.exec, discard_eq, writeFile, hrun]
        exact hw.map
  | writeFileStop name data size =>
      obtain ⟨r, dev', c', hrun, hheld, hw⟩ := writeFileEx_spec h name data size true
      refine ⟨c', ?_, ?_⟩
      · rw [Op.exec, discard_eq, hrun]
        exact hheld
      · rw [Op.exec, discard_eq, hrun]
        exact hw.map
  | readFile name outCap =>
      obtain ⟨hheld, hr, -⟩ := mount_spec h
      obtain ⟨hdev, hok, hio⟩ := readFile_spec h name outCap
      refine ⟨c, ?_, rfl, ?_⟩
      · rw [Op.exec, hdev]
        exact hheld
      · rcases hr with hr | ⟨hr, -⟩
        · exact Or.inl (hok hr)
        · exact Or.inr (hio hr)
  | fsck =>
      refine ⟨c, ?_, rfl⟩
      rw [Op.exec, discard_eq]
      show Held (fsck dev).2 c
      rw [(fsck_spec h).1]
      exact (mount_spec h).1
  | mount =>
      refine ⟨c, ?_, rfl⟩
      rw [Op.exec, discard_eq]
      exact (mount_spec h).1
  | journalRecover =>
      refine ⟨c, ?_, rfl⟩
      rw [Op.exec, discard_eq]
      exact (journalRecover_spec h).1

/-! ## The run lemma -/

/-- Along a run there are images that the device holds, step by step. -/
theorem runSteps_images {dev : Blockdev} {c : Nat → Bytes} (h : Held dev c) (steps : List Step) :
    ∃ images : Nat → Nat → Bytes, images 0 = c ∧
      (∀ i, i ≤ steps.length → Held (stateAt steps dev i) (images i)) ∧
      ∀ i s, steps[i]? = some s →
        OpImages s.op (s.exec (stateAt steps dev i)).1 (images i) (images (i + 1)) := by
  induction steps generalizing dev c with
  | nil =>
      refine ⟨fun _ => c, rfl, fun i hi => ?_, fun i s hs => by cases hs⟩
      obtain rfl : i = 0 := Nat.le_zero.mp hi
      exact h
  | cons s steps ih =>
      obtain ⟨c', hc', hcontract⟩ := exec_held (h.before s) s.op
      obtain ⟨images, himages, hheld, hsteps⟩ := ih hc'
      refine ⟨fun i => Nat.casesOn i c images, rfl, fun i hi => ?_, fun i t ht => ?_⟩
      · cases i with
        | zero => exact h
        | succ i => exact hheld i (Nat.le_of_succ_le_succ hi)
      · cases i with
        | zero =>
            obtain rfl : s = t := Option.some.inj ht
            show OpImages s.op (s.exec dev).1 c (images 0)
            rw [himages]
            exact hcontract
        | succ i => exact hsteps i t ht

section Histories

variable {files : Nat → Files} {steps : List Step} {r : Nat → Step → Except M16Err (List UInt8)}

/-- A file that is there stays there. -/
theorem files_stay (hsteps : ∀ i s, steps[i]? = some s →
      OpContract s.op (r i s) (files i) (files (i + 1))) {i j : Nat} (hij : i ≤ j)
    (hj : j ≤ steps.length) {key data : List UInt8} (h : files i key = some data) :
    files j key = some data := by
  induction j, hij using Nat.le_induction with
  | base => exact h
  | succ j hij ih =>
      have hlt : j < steps.length := hj
      rcases (hsteps j steps[j] (List.getElem?_eq_getElem hlt)).grows with
        hsame | ⟨key', data', -, -, hnone, hadd⟩
      · rw [hsame]
        exact ih (by omega)
      · have hne : key ≠ key' := by
          rintro rfl
          rw [ih (by omega)] at hnone
          cases hnone
        rw [hadd, Function.update_of_ne hne]
        exact ih (by omega)

/-- A file that is there has come from one write. -/
theorem files_origin (h0 : files 0 = fun _ => none) (hsteps : ∀ i s, steps[i]? = some s →
      OpContract s.op (r i s) (files i) (files (i + 1))) {j : Nat} (hj : j ≤ steps.length)
    {key data : List UInt8} (h : files j key = some data) :
    ∃ i s, i < j ∧ steps[i]? = some s ∧ s.op.file = some (key, data) ∧
      ((∃ a, r i s = .ok a) ∨ r i s = .error .io) ∧ files i key = none ∧
      files (i + 1) key = some data := by
  induction j with
  | zero =>
      rw [h0] at h
      cases h
  | succ j ih =>
      have hlt : j < steps.length := hj
      have hs := List.getElem?_eq_getElem hlt
      -- either the file was there already, or the last step has brought it
      have hbefore : files j key = some data → ∃ i s, i < j + 1 ∧ steps[i]? = some s ∧
          s.op.file = some (key, data) ∧ ((∃ a, r i s = .ok a) ∨ r i s = .error .io) ∧
          files i key = none ∧ files (i + 1) key = some data := fun hj' => by
        obtain ⟨i, s, hi, hrest⟩ := ih (by omega) hj'
        exact ⟨i, s, by omega, hrest⟩
      rcases (hsteps j steps[j] hs).grows with hsame | ⟨key', data', hf, hr, hnone, hadd⟩
      · rw [hsame] at h
        exact hbefore h
      · by_cases hkey : key = key'
        · subst hkey
          have hadd' := hadd
          rw [hadd, Function.update_self] at h
          obtain rfl := Option.some.inj h
          exact ⟨j, steps[j], Nat.lt_succ_self j, hs, hf, hr, hnone,
            by rw [hadd', Function.update_self]⟩
        · rw [hadd, Function.update_of_ne hkey] at h
          exact hbefore h

end Histories

/-- Crash consistency. There are files after every number of steps such that each step changes
them as its result says, and a mount that succeeds shows exactly them: fsck is content, and
every read returns the file or says that there is none. -/
theorem runSteps_consistent {k : Int} {dev : Blockdev}
    (hformat : format { devInit with failAfter := k } = (.ok (), dev)) (steps : List Step) :
    ∃ files : Nat → Files, files 0 = (fun _ => none) ∧
      (∀ i s, steps[i]? = some s →
        OpContract s.op (s.exec (stateAt steps dev i)).1 (files i) (files (i + 1))) ∧
      (∀ i, i ≤ steps.length →
        ((stateAt steps dev i).failAfter < 0 → ∃ sb, (mount (stateAt steps dev i)).1 = .ok sb) ∧
        ((∃ sb, (mount (stateAt steps dev i)).1 = .ok sb) →
          (fsck (stateAt steps dev i)).1 = .ok () ∧
          ∀ name outCap, (readFile name outCap (stateAt steps dev i)).1 =
            readSpec (files i) (nameKey name) outCap)) ∧
      (∀ i s a key data, steps[i]? = some s → s.op.file = some (key, data) →
        (s.exec (stateAt steps dev i)).1 = .ok a →
        ∀ j, i < j → j ≤ steps.length → files j key = some data) ∧
      (∀ j key data, j ≤ steps.length → files j key = some data →
        ∃ i s, i < j ∧ steps[i]? = some s ∧ s.op.file = some (key, data) ∧
          ((∃ a, (s.exec (stateAt steps dev i)).1 = .ok a) ∨
            (s.exec (stateAt steps dev i)).1 = .error .io) ∧
          files i key = none ∧ ∀ l, i < l → l ≤ j → files l key = some data) := by
  obtain ⟨hheld0, -⟩ := format_spec (show { devInit with failAfter := k }.totalBlocks = maxBlocks
    from rfl) hformat
  obtain ⟨images, himages, hheld, himage⟩ := runSteps_images hheld0 steps
  have hsteps : ∀ i s, steps[i]? = some s → OpContract s.op (s.exec (stateAt steps dev i)).1
      (filesOf (images i)) (filesOf (images (i + 1))) := fun i s hs =>
    (himage i s hs).contract (hheld i (le_of_lt (List.getElem?_eq_some_iff.mp hs).1)).image
  have h0 : filesOf (images 0) = fun _ => none := by
    rw [himages]
    exact (formatImage_inv maxBlocks).2
  refine ⟨fun i => filesOf (images i), h0, hsteps, fun i hi => ⟨fun hf => ?_, fun hm => ⟨?_, ?_⟩⟩,
    ?_, ?_⟩
  · rcases (mount_spec (hheld i hi)).2.1 with hr | ⟨-, hge⟩
    · exact hr
    · omega
  · exact (fsck_spec (hheld i hi)).2.1 hm
  · exact fun name outCap => (readFile_spec (hheld i hi) name outCap).2.1 hm
  · intro i s a key data hs hf hok j hij hj
    have hc := hsteps i s hs
    rw [hok] at hc
    exact files_stay (r := fun i s => (s.exec (stateAt steps dev i)).1) hsteps hij hj (hc.written hf)
  · intro j key data hj hd
    obtain ⟨i, s, hi, hs, hf, hr, hnone, hadd⟩ :=
      files_origin (r := fun i s => (s.exec (stateAt steps dev i)).1) h0 hsteps hj hd
    exact ⟨i, s, hi, hs, hf, hr, hnone, fun l hil hlj =>
      files_stay (r := fun i s => (s.exec (stateAt steps dev i)).1) hsteps hil (by omega) hadd⟩

/-- The name `a`. -/
def nameA : Bytes := Bytes.zero.store 0 1 97

/-- A write cut at its 21st block write, and a recovery cut at once; the power comes back. -/
def cutWrite : List Step :=
  [⟨some 20, .writeFile nameA (Bytes.zero.fill 0 3 7) 3⟩, ⟨some 0, .journalRecover⟩,
    ⟨some (-1), .fsck⟩]

theorem cutWrite_files {files : Nat → Files} {r : Nat → Step → Except M16Err (List UInt8)}
    (hsteps : ∀ i s, cutWrite[i]? = some s →
      OpContract s.op (r i s) (files i) (files (i + 1))) :
    files 1 = files 0 ∨ files 1 = Function.update (files 0) [97] (some [7, 7, 7]) := by
  have hfile : Op.file (.writeFile nameA (Bytes.zero.fill 0 3 7) 3) = some ([97], [7, 7, 7]) := by
    decide
  rcases (hsteps 0 ⟨some 20, .writeFile nameA (Bytes.zero.fill 0 3 7) 3⟩ rfl).grows with
    hsame | ⟨key, data, hf, -, -, hadd⟩
  · exact Or.inl hsame
  · obtain ⟨rfl, rfl⟩ := Prod.mk.inj (Option.some.inj (hfile.symm.trans hf))
    exact Or.inr hadd

/-- A device after a format that nothing has cut. -/
def formatted : Blockdev := (format { devInit with failAfter := -1 }).2

theorem formatted_format : format { devInit with failAfter := -1 } = (.ok (), formatted) :=
  format_ok rfl (by decide : (-1 : Int) < 0)

/-- The file of the cut write is all there or not at all. -/
theorem runSteps_consistent_cutWrite :
    ∃ files : Nat → Files, files 0 = (fun _ => none) ∧
      (files 1 = files 0 ∨ files 1 = Function.update (files 0) [97] (some [7, 7, 7])) ∧
      ∀ i, i ≤ 3 → (∃ sb, (mount (stateAt cutWrite formatted i)).1 = .ok sb) →
        (fsck (stateAt cutWrite formatted i)).1 = .ok () := by
  obtain ⟨files, h0, hsteps, hmount, -⟩ := runSteps_consistent formatted_format cutWrite
  exact ⟨files, h0, cutWrite_files (r := fun i s => (s.exec (stateAt cutWrite formatted i)).1) hsteps,
    fun i hi hm => ((hmount i hi).2 hm).1⟩

end Mcsos.Mcsfs1j
