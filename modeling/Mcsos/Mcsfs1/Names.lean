import Mcsos.Mcsfs1.Accounts
import Mcsos.Mcsfs1.Lookup

set_option autoImplicit false

/-! # The names are a set

`find_dirent` looks at 28 bytes from the name field of an entry on, and the field has 27. A name of
27 bytes is found only where the byte behind it, the first of the next entry or the first behind the
block, is zero. `Terminated` says so of every entry in use; where it holds before every call, the
directory is the set of the names that have been created and not unlinked since.
-/

namespace Mcsos.Mcsfs1

variable {D : Disk} {c c' : Blocks}

/-! ## Names in the directory -/

/-- The characters of a name that a call is given. -/
def key (name : Bytes) : List UInt8 := CStr.chars name 0 (maxName + 1)

/-- Entry `i` is in use. -/
def InUse (dir : Bytes) (i : Nat) : Prop := i < direntCount ∧ deIno dir i ≠ 0

instance (dir : Bytes) (i : Nat) : Decidable (InUse dir i) := inferInstanceAs (Decidable (_ ∧ _))

/-- The characters of the name in entry `i`. -/
def slotKey (dir : Bytes) (i : Nat) : List UInt8 := CStr.chars (deName dir i) 0 maxName

/-- A name that fills the field of entry `i` has a zero byte behind it. -/
def EndsAt (dir : Bytes) (past : UInt8) (i : Nat) : Prop :=
  (slotKey dir i).length = maxName → withPast dir past ((i + 1) * direntSize) = 0

instance (dir : Bytes) (past : UInt8) (i : Nat) : Decidable (EndsAt dir past i) :=
  inferInstanceAs (Decidable (_ → _))

/-- Every name in use that fills its field has a zero byte behind it. -/
def Terminated (dir : Bytes) (past : UInt8) : Prop :=
  ∀ i, i < direntCount → deIno dir i ≠ 0 → EndsAt dir past i

instance (dir : Bytes) (past : UInt8) : Decidable (Terminated dir past) :=
  inferInstanceAs (Decidable (∀ i, i < direntCount → _))

theorem used_iff (c : Blocks) (i : Nat) : (metaOf c).Used i ↔ InUse (c rootDirLba) i := by
  show (entriesOf (c rootDirLba) i).ino ≠ 0 ↔ _
  unfold entriesOf InUse
  by_cases hi : i < direntCount
  · rw [if_pos hi]
    exact ⟨fun h => ⟨hi, h⟩, fun h => h.2⟩
  · rw [if_neg hi]
    exact ⟨fun h => absurd rfl h, fun h => absurd h.1 hi⟩

theorem key_length {name : Bytes} {n : Nat} (h : validName name = .ok n) :
    (key name).length = n ∧ n ≤ maxName := by
  obtain ⟨hn, -, hle⟩ := validName_ok h
  rw [strlenBound, CStr.strlenFrom_eq, Nat.zero_add] at hn
  exact ⟨hn.symm, hle⟩

theorem memcmp_eq_zero_iff (a b : Bytes) (n : Nat) :
    memcmp a b n = 0 ↔ ∀ k, k < n → a k = b k := by
  have hfrom : ∀ i, memcmpFrom a b i n = 0 ↔ ∀ k, i ≤ k → k < i + n → a k = b k := by
    induction n with
    | zero => exact fun i => ⟨fun _ k h1 h2 => absurd h2 (not_lt.mpr h1), fun _ => rfl⟩
    | succ n ih =>
        intro i
        rw [memcmpFrom]
        by_cases hi : a i = b i
        · rw [if_neg (not_not.mpr hi), ih (i + 1)]
          refine ⟨fun h k h1 h2 => ?_, fun h k h1 h2 => h k (by omega) (by omega)⟩
          by_cases hk : k = i
          · rw [hk, hi]
          · exact h k (by omega) (by omega)
        · rw [if_pos hi]
          refine ⟨fun h => absurd ?_ hi, fun h => absurd (h i (le_refl i) (by omega)) hi⟩
          exact UInt8.toNat_inj.mp (by omega)
  have h0 := hfrom 0
  rw [Nat.zero_add] at h0
  exact h0.trans ⟨fun h k hk => h k (Nat.zero_le k) hk, fun h k _ hk => h k hk⟩

/-- What the bytes behind the block are does not matter for the name field. -/
theorem slotKey_withPast {i : Nat} (hi : i < direntCount) (dir : Bytes) (past : UInt8) :
    slotKey (withPast dir past) i = slotKey dir i := by
  have hin := slot_inside hi
  have hsize : direntSize = 5 + maxName := rfl
  apply CStr.chars_congr_all
  intro k hk
  show withPast dir past (i * direntSize + 5 + (0 + k)) = dir (i * direntSize + 5 + (0 + k))
  exact withPast_agreeOn dir past _ (Nat.zero_le _) (by omega)

/-- `find_dirent` takes entry `i` for the name if it has that name and the name ends. -/
theorem direntMatches_iff {name dir : Bytes} {n i : Nat} (hv : validName name = .ok n)
    (hi : i < direntCount) (past : UInt8) :
    direntMatches (withPast dir past) name n i = true ↔
      deIno dir i ≠ 0 ∧ slotKey dir i = key name ∧ EndsAt dir past i := by
  obtain ⟨hlen, hle⟩ := key_length hv
  have hfield := slotKey_withPast hi dir past
  have hbehind : deName (withPast dir past) i (0 + maxName) =
      withPast dir past ((i + 1) * direntSize) := by
    have hsize : direntSize = 5 + maxName := rfl
    show withPast dir past (i * direntSize + 5 + (0 + maxName)) = _
    congr 1
    rw [Nat.succ_mul]
    omega
  unfold direntMatches
  rw [Bool.and_eq_true, Bool.and_eq_true, decide_eq_true_iff, decide_eq_true_iff,
    decide_eq_true_iff, deIno_withPast hi, strlenBound, CStr.strlenFrom_eq, Nat.zero_add,
    memcmp_eq_zero_iff, and_assoc]
  apply and_congr_right
  intro _
  by_cases hends : EndsAt dir past i
  · have hsame : CStr.chars (deName (withPast dir past) i) 0 (maxName + 1) = slotKey dir i := by
      rw [← hfield]
      apply CStr.chars_succ_of_end
      intro hfull
      rw [hbehind]
      exact hends (by rw [← hfield]; exact hfull)
    rw [hsame, and_iff_left hends, key, ← hsame, CStr.chars_eq_iff]
    have hkey : (CStr.chars name 0 (maxName + 1)).length = n := hlen
    rw [hkey]
    simp only [Nat.zero_add]
  · obtain ⟨hfull, hne⟩ := Classical.not_imp.mp hends
    have hlong : (CStr.chars (deName (withPast dir past) i) 0 (maxName + 1)).length =
        maxName + 1 := by
      refine CStr.chars_succ_length ?_ (by rw [hbehind]; exact hne)
      show (slotKey (withPast dir past) i).length = maxName
      rw [hfield, hfull]
    rw [hlong]
    exact iff_of_false (fun h => by omega) fun h => hends h.2

/-- The name is found if an entry in use has it and it ends there. -/
theorem target_some_iff {name : Bytes} {n : Nat} (hv : validName name = .ok n) (past : UInt8) :
    (∃ s, target c name past = some s) ↔ ∃ i, InUse (c rootDirLba) i ∧
      slotKey (c rootDirLba) i = key name ∧ EndsAt (c rootDirLba) past i := by
  have htarget : target c name past = findSlot (withPast (c rootDirLba) past) name n := by
    unfold target
    rw [hv]
  rw [htarget]
  constructor
  · rintro ⟨s, hs⟩
    obtain ⟨-, hlt, hmatch, -⟩ := Loop.findFrom_some_iff.mp hs
    rw [Nat.zero_add] at hlt
    obtain ⟨hino, hrest⟩ := (direntMatches_iff hv hlt past).mp hmatch
    exact ⟨s, ⟨hlt, hino⟩, hrest⟩
  · rintro ⟨i, ⟨hlt, hino⟩, hrest⟩
    apply Option.ne_none_iff_exists'.mp
    intro hnone
    have hno := Loop.findFrom_none_iff.mp hnone i (Nat.zero_le i) (by omega)
    rw [(direntMatches_iff hv hlt past).mpr ⟨hino, hrest⟩] at hno
    cases hno

theorem target_key {name : Bytes} {n s : Nat} (hv : validName name = .ok n) {past : UInt8}
    (h : target c name past = some s) :
    InUse (c rootDirLba) s ∧ slotKey (c rootDirLba) s = key name := by
  have htarget : target c name past = findSlot (withPast (c rootDirLba) past) name n := by
    unfold target
    rw [hv]
  rw [htarget] at h
  obtain ⟨-, hlt, hmatch, -⟩ := Loop.findFrom_some_iff.mp h
  rw [Nat.zero_add] at hlt
  obtain ⟨hino, hkey, -⟩ := (direntMatches_iff hv hlt past).mp hmatch
  exact ⟨⟨hlt, hino⟩, hkey⟩

/-! ## What the operations do to the names -/

theorem slotKey_congr {a b : Bytes} {i : Nat}
    (h : Bytes.AgreeOn a b (i * direntSize) (i * direntSize + direntSize)) :
    slotKey a i = slotKey b i := by
  have hsize : direntSize = 5 + maxName := rfl
  exact CStr.chars_congr_all fun k hk => h _ (by omega) (by omega)

/-- The entry that `mcsfs1_create` writes has the name. -/
theorem slotKey_setDirent {name : Bytes} {n : Nat} (hv : validName name = .ok n) (dir : Bytes)
    (i ino : Nat) : slotKey (setDirent dir i ino name n) i = key name := by
  obtain ⟨hlen, hle⟩ := key_length hv
  have hkey : key name = CStr.chars name 0 maxName := by
    apply CStr.chars_succ_of_end
    intro hfull
    by_contra hne
    have hlong : (key name).length = maxName + 1 := CStr.chars_succ_length hfull hne
    omega
  rw [hkey] at hlen
  rw [hkey]
  apply CStr.chars_congr
  intro k hk hkn
  rw [hlen] at hk
  show setDirent dir i ino name n (i * direntSize + 5 + (0 + k)) = name (0 + k)
  unfold setDirent
  by_cases hkn' : k < n
  · rw [Bytes.copy_apply_of_mem (by omega) (by omega)]
    congr 1
    omega
  · obtain rfl : k = n := by omega
    rw [Bytes.copy_apply_of_ge (by omega), Bytes.fill_apply_of_mem (by omega) (by omega), ← hlen]
    exact (CStr.chars_end (by rw [hlen]; exact hkn)).symm

theorem Created.slotKey_self {name : Bytes} {past : UInt8} {s ino lba n : Nat}
    (w : Created D.blockCount name past c s ino lba n) :
    slotKey (created c s ino lba name n rootDirLba) s = key name := by
  rw [← slotKey_setDirent w.valid (c rootDirLba) s ino]
  unfold created
  rw [put_same]
  exact slotKey_congr ((Bytes.clip_agreeOn _ _).mono (Nat.zero_le _) (slot_inside w.slot))

/-- A file that is kept keeps its name. -/
theorem Good.slotKey_eq {blockCount : Nat} {t : Option Nat} (g : Good blockCount t c c') {i : Nat}
    (hi : (metaOf c).Used i) (hne : t ≠ some i) :
    slotKey (c' rootDirLba) i = slotKey (c rootDirLba) i := slotKey_congr (g.kept.slot i hi hne)

/-- The entries in use have different names, and these are the names of `K`. -/
structure Listed (dir : Bytes) (K : Set (List UInt8)) : Prop where
  mem_iff : ∀ k, k ∈ K ↔ ∃ i, InUse dir i ∧ slotKey dir i = k
  distinct : ∀ i j, InUse dir i → InUse dir j → slotKey dir i = slotKey dir j → i = j
  valid : ∀ k, k ∈ K → ∃ name n, validName name = .ok n ∧ key name = k

/-- A name that is not found is not in the directory. -/
theorem Listed.not_mem {K : Set (List UInt8)} (h : Listed (c rootDirLba) K) {past : UInt8}
    (hterm : Terminated (c rootDirLba) past) {name : Bytes} {n : Nat}
    (hv : validName name = .ok n) (hmissing : target c name past = none) : key name ∉ K := by
  intro hmem
  obtain ⟨i, hi, hkey⟩ := (h.mem_iff _).mp hmem
  obtain ⟨s, hs⟩ := (target_some_iff hv past).mpr ⟨i, hi, hkey, hterm i hi.1 hi.2⟩
  rw [hmissing] at hs
  cases hs

theorem Listed.create {K : Set (List UInt8)} (h : Listed (c rootDirLba) K)
    {name : Bytes} {past : UInt8} {s ino lba n : Nat} (hterm : Terminated (c rootDirLba) past)
    (hbc : D.blockCount ≤ 4096) (hinv : Inv D.blockCount c)
    (w : Created D.blockCount name past c s ino lba n) :
    Listed (created c s ino lba name n rootDirLba) (insert (key name) K) := by
  have hnew := h.not_mem hterm w.valid w.missing
  have hin : ∀ i, InUse (created c s ino lba name n rootDirLba) i ↔
      i = s ∨ InUse (c rootDirLba) i := fun i => by
    rw [← used_iff, ← used_iff]
    exact w.used_iff hbc i
  have hself := w.slotKey_self
  have hold : ∀ i, InUse (c rootDirLba) i →
      slotKey (created c s ino lba name n rootDirLba) i = slotKey (c rootDirLba) i := fun i hi =>
    (w.good hbc hinv).slotKey_eq ((used_iff c i).mpr hi) nofun
  -- the lookup that came first has found no entry of this name
  have hother : ∀ i, InUse (c rootDirLba) i → slotKey (c rootDirLba) i ≠ key name := fun i hi he =>
    hnew ((h.mem_iff _).mpr ⟨i, hi, he⟩)
  refine ⟨fun k => ?_, fun i j hi hj he => ?_, fun k hk => ?_⟩
  · rw [Set.mem_insert_iff, h.mem_iff]
    constructor
    · rintro (rfl | ⟨i, hi, hk⟩)
      · exact ⟨s, (hin s).mpr (Or.inl rfl), hself⟩
      · exact ⟨i, (hin i).mpr (Or.inr hi), (hold i hi).trans hk⟩
    · rintro ⟨i, hi, hk⟩
      rcases (hin i).mp hi with rfl | hi
      · exact Or.inl (hk.symm.trans hself)
      · exact Or.inr ⟨i, hi, (hold i hi).symm.trans hk⟩
  · rcases (hin i).mp hi with his | hi' <;> rcases (hin j).mp hj with hjs | hj'
    · exact his.trans hjs.symm
    · rw [his, hself, hold j hj'] at he
      exact absurd he.symm (hother j hj')
    · rw [hjs, hself, hold i hi'] at he
      exact absurd he (hother i hi')
    · rw [hold i hi', hold j hj'] at he
      exact h.distinct i j hi' hj' he
  · rcases hk with rfl | hk
    · exact ⟨name, n, w.valid, rfl⟩
    · exact h.valid k hk

theorem Listed.unlink {K : Set (List UInt8)} (h : Listed (c rootDirLba) K)
    (hinv : Inv D.blockCount c) {s : Nat} (hs : InUse (c rootDirLba) s) :
    Listed (unlinked D.blockCount c s rootDirLba) (K \ {slotKey (c rootDirLba) s}) := by
  have hu := (used_iff c s).mpr hs
  have hin : ∀ i, InUse (unlinked D.blockCount c s rootDirLba) i ↔
      i ≠ s ∧ InUse (c rootDirLba) i := fun i => by
    rw [← used_iff, ← used_iff]
    exact unlinked_used_iff hinv hs.1 hu i
  have hold : ∀ i, i ≠ s → InUse (c rootDirLba) i →
      slotKey (unlinked D.blockCount c s rootDirLba) i = slotKey (c rootDirLba) i :=
    fun i his hi => (good_unlinked hinv hs.1 hu).slotKey_eq ((used_iff c i).mpr hi)
      fun he => his (Option.some.inj he).symm
  refine ⟨fun k => ?_, fun i j hi hj he => ?_, fun k hk => h.valid k hk.1⟩
  · rw [Set.mem_sdiff, Set.mem_singleton_iff, h.mem_iff]
    constructor
    · rintro ⟨⟨i, hi, rfl⟩, hne⟩
      have his : i ≠ s := fun his => hne (by rw [his])
      exact ⟨i, (hin i).mpr ⟨his, hi⟩, hold i his hi⟩
    · rintro ⟨i, hi, hk⟩
      obtain ⟨his, hi⟩ := (hin i).mp hi
      rw [hold i his hi] at hk
      exact ⟨⟨i, hi, hk⟩, fun he => his (h.distinct i s hi hs (hk.trans he))⟩
  · obtain ⟨his, hi⟩ := (hin i).mp hi
    obtain ⟨hjs, hj⟩ := (hin j).mp hj
    rw [hold i his hi, hold j hjs hj] at he
    exact h.distinct i j hi hj he

/-! ## Runs -/

/-- What `find_dirent` reads behind the directory block in this call. -/
def Call.past : Call → UInt8
  | .create _ past => past
  | .write _ _ _ past => past
  | .read _ _ past => past
  | .unlink _ past => past

/-- Names that fill their field end, in the directory as this call reads it. -/
def NamesEnd (dev : Blkdev) (op : Call) : Prop := Terminated (dev.blocks rootDirLba) op.past

instance (dev : Blkdev) (op : Call) : Decidable (NamesEnd dev op) :=
  inferInstanceAs (Decidable (Terminated _ _))

/-- The names that have been created and not unlinked since. -/
def names : History → Set (List UInt8)
  | [] => ∅
  | (.create name _, .ok _) :: hist => insert (key name) (names hist)
  | (.unlink name _, .ok _) :: hist => names hist \ {key name}
  | _ :: hist => names hist

theorem names_error (op : Call) (e : Mcsfs1Err) (hist : History) :
    names ((op, .error e) :: hist) = names hist := by
  cases op <;> rfl

/-- On a device that never fails, a call that returns an error leaves the directory alone. -/
theorem Cut.dir_eq {t : Option Nat} {e : Mcsfs1Err} {leaks : Prop} (h : Cut D leaks t c e c')
    (hfault : ¬D.Faulty) : c' rootDirLba = c rootDirLba := by
  by_cases hl : leaks
  · exact h.dir hl
  · rw [h.same (fun hio => hfault (h.faulty hio)) fun hleak => hl hleak.1]

theorem Call.Result.listed (hbc : D.blockCount ≤ 4096) (hinv : Inv D.blockCount c) {hist : History}
    {op : Call} (hl : Listed (c rootDirLba) (names hist))
    (hterm : Terminated (c rootDirLba) op.past) (hr : op.Result D c c') (out : List UInt8) :
    Listed (c' rootDirLba) (names ((op, .ok out) :: hist)) := by
  cases op with
  | create name past =>
      obtain ⟨s, ino, lba, n, w, rfl⟩ := hr
      exact hl.create hterm hbc hinv w
  | write name buf len past =>
      obtain ⟨s, x, -, w⟩ := hr
      rw [w.dir]
      exact hl
  | read name cap past =>
      obtain rfl : c' = c := hr
      exact hl
  | unlink name past =>
      obtain ⟨s, hs, rfl⟩ := hr
      cases hv : validName name with
      | error e =>
          unfold Mcsfs1.target at hs
          rw [hv] at hs
          cases hs
      | ok n =>
          obtain ⟨huse, hkey⟩ := target_key hv hs
          show Listed _ (names hist \ {key name})
          rw [← hkey]
          exact hl.unlink hinv huse

/-- The directory lists what has been created and not unlinked since. -/
theorem Sound.run_listed {mnt : Mount} {dev0 dev : Blkdev} {hist : History} (h : Sound D dev0)
    (hfault : ¬D.Faulty) (hl : Listed (dev0.blocks rootDirLba) ∅)
    (hrun : CallRun mnt NamesEnd dev0 hist dev) :
    Listed (dev.blocks rootDirLba) (names hist) := by
  induction hrun with
  | start => exact hl
  | @call hist dev op hrun hterm ih =>
      have hsound := h.run hrun
      obtain ⟨c', hdev', hcases⟩ := op.exec_cases hsound.gt hsound.le hsound.inv hsound.has mnt
      rw [← hdev'.blocks_eq]
      rcases hcases with ⟨out, hout, hr⟩ | ⟨e, he, hcut⟩
      · rw [hout]
        exact hr.listed hsound.le hsound.inv ih hterm out
      · rw [he, names_error, hcut.dir_eq hfault]
        exact ih

theorem formatted_listed {blockCount : Nat} (h : c rootDirLba = Bytes.zero) :
    Listed (formatted blockCount c rootDirLba) ∅ := by
  have hnone : ∀ i, ¬InUse (formatted blockCount c rootDirLba) i := fun i hi =>
    formatted_not_used h i ((used_iff _ i).mpr hi)
  refine ⟨fun k => iff_of_false (Set.notMem_empty k) ?_, fun i j hi => absurd hi (hnone i),
    fun k hk => absurd hk (Set.notMem_empty k)⟩
  rintro ⟨i, hi, -⟩
  exact hnone i hi

/-- The name is there for every operation. -/
structure Found (mnt : Mount) (dev : Blkdev) (name : Bytes) (past : UInt8) : Prop where
  exist : (create name past dev).1 = .error .exist
  readable : ∀ cap, (read mnt name cap past dev).1 ≠ .error .noent
  writable : ∀ buf len, (write name buf len past dev).1 ≠ .error .noent
  removable : (unlink name past dev).1 ≠ .error .noent

/-- The name is there for no operation; a write of more than a file can have does not look. -/
structure Missing (mnt : Mount) (dev : Blkdev) (name : Bytes) (past : UInt8) : Prop where
  not_exist : (create name past dev).1 ≠ .error .exist
  not_readable : ∀ cap, (read mnt name cap past dev).1 = .error .noent
  not_writable : ∀ buf len, len ≤ directBlocks * blockSize →
    (write name buf len past dev).1 = .error .noent
  not_removable : (unlink name past dev).1 = .error .noent

section

variable {mnt : Mount} {dev : Blkdev} {name : Bytes} {n : Nat}

theorem Sound.found_iff (h : Sound D dev) (hv : validName name = .ok n) (past : UInt8) :
    Found mnt dev name past ↔ ∃ s, target dev.blocks name past = some s := by
  have hexist := create_exist_iff h.gt h.has hv past
  refine ⟨fun hf => hexist.mp hf.exist, fun hs => ?_⟩
  have hsome : target dev.blocks name past ≠ none := by
    obtain ⟨s, hs⟩ := hs
    rw [hs]
    exact Option.some_ne_none s
  exact ⟨hexist.mpr hs, fun cap he => hsome ((read_noent_iff h.gt h.has hv past mnt cap).mp he),
    fun buf len he => hsome ((write_noent_iff h.gt h.has hv past buf len).mp he).2,
    fun he => hsome ((unlink_noent_iff h.gt h.has hv past).mp he)⟩

theorem Sound.missing (h : Sound D dev) (hv : validName name = .ok n) {past : UInt8}
    (hnone : target dev.blocks name past = none) : Missing mnt dev name past where
  not_exist := fun he => by
    obtain ⟨s, hs⟩ := (create_exist_iff h.gt h.has hv past).mp he
    rw [hnone] at hs
    cases hs
  not_readable := fun cap => (read_noent_iff h.gt h.has hv past mnt cap).mpr hnone
  not_writable := fun buf len hlen =>
    (write_noent_iff h.gt h.has hv past buf len).mpr ⟨hlen, hnone⟩
  not_removable := (unlink_noent_iff h.gt h.has hv past).mpr hnone

end

/-- The directory is the set of its names if and only if they all end. -/
theorem Listed.terminated_iff {K : Set (List UInt8)} {dev : Blkdev} (hsound : Sound D dev)
    (h : Listed (dev.blocks rootDirLba) K) (mnt : Mount) (past : UInt8) :
    Terminated (dev.blocks rootDirLba) past ↔ ∀ name n, validName name = .ok n →
      (key name ∈ K → Found mnt dev name past) ∧ (key name ∉ K → Missing mnt dev name past) := by
  constructor
  · intro hterm name n hv
    refine ⟨fun hmem => (hsound.found_iff hv past).mpr ?_, fun hnot => hsound.missing hv ?_⟩
    · obtain ⟨i, hi, hkey⟩ := (h.mem_iff _).mp hmem
      exact (target_some_iff hv past).mpr ⟨i, hi, hkey, hterm i hi.1 hi.2⟩
    · by_contra hsome
      obtain ⟨s, hs⟩ := Option.ne_none_iff_exists'.mp hsome
      obtain ⟨huse, hkey⟩ := target_key hv hs
      exact hnot ((h.mem_iff _).mpr ⟨s, huse, hkey⟩)
  · intro hall i hlt hino
    have hmem : slotKey (dev.blocks rootDirLba) i ∈ K := (h.mem_iff _).mpr ⟨i, ⟨hlt, hino⟩, rfl⟩
    obtain ⟨name, n, hv, hkey⟩ := h.valid _ hmem
    have hfound := (hall name n hv).1 (hkey ▸ hmem)
    obtain ⟨j, hj, hjkey, hends⟩ :=
      (target_some_iff hv past).mp ((hsound.found_iff hv past).mp hfound)
    obtain rfl := h.distinct i j ⟨hlt, hino⟩ hj (hkey.symm.trans hjkey.symm)
    exact hends

/-- On a device that never fails, after a format and calls before which all names end: the names
are the set of those that have been created and not unlinked since, if and only if they end. -/
theorem callRun_names {mnt : Mount} {dev dev' : Blkdev} {hist : History}
    (hmin : minBlocks ≤ dev.blockCount) (hmax : dev.blockCount ≤ blockSize * 8)
    (hfault : dev.FaultFree)
    (hrun : CallRun mnt NamesEnd (format dev).2 hist dev') (past : UInt8) :
    Terminated (dev'.blocks rootDirLba) past ↔ ∀ name n, validName name = .ok n →
      (key name ∈ names hist → Found mnt dev' name past) ∧
      (key name ∉ names hist → Missing mnt dev' name past) := by
  have hdisk := not_faulty hfault
  obtain ⟨hsound, -, c₀, hdir, hblocks⟩ := format_sound hfault.2 (format_ok hmin hmax hfault)
  have hl : Listed ((format dev).2.blocks rootDirLba) ∅ := hblocks ▸ formatted_listed hdir
  exact (hsound.run_listed hdisk hl hrun).terminated_iff (hsound.run hrun) mnt past

/-- A short name that has been created is found. -/
theorem callRun_names_short : ∃ dev',
    CallRun ⟨16, 8⟩ NamesEnd (format freshDevice).2 [(.create nameA 0, .ok [])] dev' ∧
    Found ⟨16, 8⟩ dev' nameA 0 := by
  have hcreate : (Call.exec ⟨16, 8⟩ (.create nameA 0) (format freshDevice).2).1 = .ok [] := by
    decide +kernel
  have hends : Terminated ((Call.exec ⟨16, 8⟩ (.create nameA 0)
      (format freshDevice).2).2.blocks rootDirLba) 0 := by decide +kernel
  have hstart : CallRun ⟨16, 8⟩ NamesEnd (format freshDevice).2 [] _ := .start
  have hrun := hstart.call (.create nameA 0) (by decide +kernel)
  rw [hcreate] at hrun
  have hiff := callRun_names (by decide) (by decide) ⟨fun _ => rfl, fun _ => rfl⟩ hrun 0
  have hv : validName nameA = .ok 1 := by decide +kernel
  exact ⟨_, hrun, (hiff.mp hends nameA 1 hv).1 (Set.mem_insert _ _)⟩

/-- A name of 27 bytes. -/
def longName : Bytes := Bytes.zero.fill 0 maxName 97

def nameB : Bytes := Bytes.zero.store 0 1 98

/-- With another file in the next entry, a name of 27 bytes is not found: it cannot be unlinked, and
it can be created once more. -/
theorem callRun_names_long : ∃ dev' hist,
    CallRun ⟨16, 8⟩ (fun _ _ => True) (format freshDevice).2 hist dev' ∧
    hist = [(.create nameB 0, .ok []), (.create longName 0, .ok [])] ∧
    validName longName = .ok 27 ∧ validName nameB = .ok 1 ∧ key longName ∈ names hist ∧
    (unlink longName 0 dev').1 = .error .noent ∧ (create longName 0 dev').1 = .ok () := by
  have hlong : (Call.exec ⟨16, 8⟩ (.create longName 0) (format freshDevice).2).1 = .ok [] := by
    decide +kernel
  have hshort : (Call.exec ⟨16, 8⟩ (.create nameB 0)
      (Call.exec ⟨16, 8⟩ (.create longName 0) (format freshDevice).2).2).1 = .ok [] := by
    decide +kernel
  have hstart : CallRun ⟨16, 8⟩ (fun _ _ => True) (format freshDevice).2 [] _ := .start
  have hrun := (hstart.call (.create longName 0) trivial).call (.create nameB 0) trivial
  rw [hlong, hshort] at hrun
  refine ⟨_, _, hrun, rfl, by decide +kernel, by decide +kernel, ?_, by decide +kernel,
    by decide +kernel⟩
  exact Set.mem_insert_of_mem _ (Set.mem_insert _ _)

end Mcsos.Mcsfs1
