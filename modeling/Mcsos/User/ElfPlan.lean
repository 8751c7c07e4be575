import Mathlib.Data.Nat.Bitwise
import Mcsos.User.ElfLoader

set_option autoImplicit false

/-! # What the ELF loader accepts (`kernel/user/m11_elf_loader.c`)

The checks of the loader are on 64-bit words, and what they check is about numbers. Each check is
read here as a statement about numbers, without any wrap-around, and the loop as a walk over the
`PT_LOAD` headers of the image.
-/

namespace Mcsos.User

/-! ## What the image says -/

def Phdr.Writable (ph : Phdr) : Prop := ph.pFlags.toNat.testBit 1 = true

def Phdr.Executable (ph : Phdr) : Prop := ph.pFlags.toNat.testBit 0 = true

/-- A loadable segment that fits its alignment, an image of `size` bytes and the region. -/
structure LoadOk (region : UserRegion) (size : Nat) (ph : Phdr) : Prop where
  flags : ph.pFlags.toNat < 8
  not_both : ¬(ph.Writable ∧ ph.Executable)
  sizes : ph.pFilesz.toNat ≤ ph.pMemsz.toNat
  align : ph.pAlign.toNat = 0 ∨ ph.pAlign.toNat = 1 ∨
    ph.pAlign.toNat.isPowerOfTwo ∧ ph.pVaddr.toNat ≡ ph.pOffset.toNat [MOD ph.pAlign.toNat]
  file : ph.pOffset.toNat + ph.pFilesz.toNat ≤ size
  nonempty : 0 < ph.pMemsz.toNat
  low : region.base.toNat ≤ ph.pVaddr.toNat
  high : ph.pVaddr.toNat + ph.pMemsz.toNat ≤ region.limit.toNat

/-- The ident, the version and the kind of file, as the loader wants them. -/
structure HeaderOk (eh : Ehdr) : Prop where
  magic : eh.eIdent 0 = 0x7f ∧ eh.eIdent 1 = 'E'.toUInt8 ∧ eh.eIdent 2 = 'L'.toUInt8 ∧
    eh.eIdent 3 = 'F'.toUInt8
  elfClass : eh.eIdent 4 = elfClass64
  data : eh.eIdent 5 = elfData2Lsb
  version : eh.eIdent 6 = 1 ∧ eh.eVersion = 1
  type : eh.eType = etExec ∨ eh.eType = etDyn
  machine : eh.eMachine = emX86_64
  ehsize : eh.eEhsize.toNat = 64

/-- The header of the image. -/
def Image.ehdr (image : Image) : Ehdr := Ehdr.ofBytes image.bytes

/-- The `PT_LOAD` headers among the `n` program headers from number `i` on. -/
def Image.loadsFrom (image : Image) (phoff i n : Nat) : List Phdr :=
  ((List.range' i n).map fun k => Phdr.ofBytes image.bytes (phoff + 56 * k)).filter
    fun ph => ph.pType = ptLoad

/-- The `PT_LOAD` headers of the image, in file order. -/
def Image.loads (image : Image) : List Phdr :=
  image.loadsFrom image.ehdr.ePhoff.toNat 0 image.ehdr.ePhnum.toNat

/-- The images that the loader is for. -/
structure Acceptable (image : Image) (region : UserRegion) : Prop where
  holds_header : 64 ≤ image.size.toNat
  header : HeaderOk image.ehdr
  phnum : 0 < image.ehdr.ePhnum.toNat
  phentsize : image.ehdr.ePhentsize.toNat = 56
  phdrs : image.ehdr.ePhoff.toNat + 56 * image.ehdr.ePhnum.toNat ≤ image.size.toNat
  entry : region.base.toNat ≤ image.ehdr.eEntry.toNat ∧
    image.ehdr.eEntry.toNat < region.limit.toNat
  some_load : 1 ≤ image.loads.length
  few_loads : image.loads.length ≤ 8
  loads : ∀ ph ∈ image.loads, LoadOk region image.size.toNat ph

/-- The images of which the loader looks at the program headers: all but these is fine. -/
structure ReachesSegments (image : Image) (region : UserRegion) : Prop where
  holds_header : 64 ≤ image.size.toNat
  header : HeaderOk image.ehdr
  phnum : 0 < image.ehdr.ePhnum.toNat
  phentsize : image.ehdr.ePhentsize.toNat = 56
  phdrs : image.ehdr.ePhoff.toNat + 56 * image.ehdr.ePhnum.toNat ≤ image.size.toNat
  entry : region.base.toNat ≤ image.ehdr.eEntry.toNat ∧
    image.ehdr.eEntry.toNat < region.limit.toNat

theorem Acceptable.reaches {image : Image} {region : UserRegion} (h : Acceptable image region) :
    ReachesSegments image region :=
  ⟨h.holds_header, h.header, h.phnum, h.phentsize, h.phdrs, h.entry⟩

/-! ## Words and numbers -/

theorem addOverflowU64_cases (a b : UInt64) :
    (a.toNat + b.toNat < 2 ^ 64 ∧
      ∃ r, addOverflowU64 a b = some r ∧ r.toNat = a.toNat + b.toNat) ∨
    (2 ^ 64 ≤ a.toNat + b.toNat ∧ addOverflowU64 a b = none) := by
  have ha := a.toNat_lt
  have hb := b.toNat_lt
  have hr : (a + b).toNat = (a.toNat + b.toNat) % 2 ^ 64 := UInt64.toNat_add a b
  unfold addOverflowU64
  by_cases h : a.toNat + b.toNat < 2 ^ 64
  · refine Or.inl ⟨h, a + b, if_neg ?_, by omega⟩
    rw [UInt64.lt_iff_toNat_lt]
    omega
  · refine Or.inr ⟨by omega, if_pos ?_⟩
    rw [UInt64.lt_iff_toNat_lt]
    omega

theorem isPowerOfTwoU64_iff (v : UInt64) : isPowerOfTwoU64 v = true ↔ v.toNat.isPowerOfTwo := by
  rw [← Nat.ne_zero_and_sub_one_eq_zero_iff_isPowerOfTwo, isPowerOfTwoU64, Bool.and_eq_true,
    decide_eq_true_iff, decide_eq_true_iff]
  have hzero : v ≠ 0 ↔ v.toNat ≠ 0 := by
    rw [Ne, ← UInt64.toNat_inj]
    rfl
  rw [hzero]
  apply and_congr_right
  intro hv
  have hlt := v.toNat_lt
  have hsub : (v - 1).toNat = v.toNat - 1 := by
    rw [UInt64.toNat_sub_of_le _ _ (UInt64.le_iff_toNat_le.mpr (by show 1 ≤ _; omega))]
    rfl
  rw [← UInt64.toNat_inj, UInt64.toNat_and, hsub]
  rfl

/-- No flag but the lowest three. -/
theorem flags_mask_iff (f : UInt32) : f &&& ~~~(pfR ||| pfW ||| pfX) = 0 ↔ f.toNat < 8 := by
  have hmask : (~~~(pfR ||| pfW ||| pfX)).toNat = 2 ^ 32 - (7 + 1) := rfl
  have hf := f.toNat_lt
  rw [← UInt32.toNat_inj, UInt32.toNat_and, hmask]
  constructor
  · intro h
    apply Nat.lt_pow_two_of_testBit (n := 3) _
    intro i hi
    by_cases h32 : i < 32
    · have hbit : (f.toNat &&& (2 ^ 32 - (7 + 1))).testBit i = Nat.testBit 0 i :=
        congrArg (fun n => n.testBit i) h
      have h7 : (7 : Nat).testBit i = false :=
        Nat.testBit_lt_two_pow (lt_of_lt_of_le (by norm_num) (Nat.pow_le_pow_right (by norm_num) hi))
      rw [Nat.testBit_and, Nat.testBit_two_pow_sub_succ (by norm_num), h7] at hbit
      simpa [h32] using hbit
    · exact Nat.testBit_lt_two_pow
        (lt_of_lt_of_le hf (Nat.pow_le_pow_right (by norm_num) (by omega)))
  · intro h
    have hall : ∀ n < 8, n &&& (2 ^ 32 - (7 + 1)) = 0 := by decide
    exact hall _ h

theorem flag_iff (f : UInt32) (k : Nat) (m : UInt32) (hm : m.toNat = 2 ^ k) :
    f &&& m ≠ 0 ↔ f.toNat.testBit k = true := by
  rw [Ne, ← UInt32.toNat_inj, UInt32.toNat_and, hm, Nat.and_two_pow]
  cases f.toNat.testBit k <;> simp

/-! ## The checks -/

theorem validateUserRange_iff (region : UserRegion) (base size : UInt64) :
    validateUserRange region base size = m11Ok ↔
      0 < size.toNat ∧ region.base.toNat ≤ base.toNat ∧
        base.toNat + size.toNat ≤ region.limit.toNat := by
  have hl := region.limit.toNat_lt
  unfold validateUserRange
  by_cases h1 : region.limit ≤ region.base
  · rw [if_pos h1]
    rw [UInt64.le_iff_toNat_le] at h1
    exact ⟨nofun, fun h => absurd h1 (by omega)⟩
  rw [if_neg h1]
  by_cases h2 : size = 0
  · rw [if_pos h2, h2]
    exact ⟨nofun, fun h => absurd h.1 (by decide)⟩
  rw [if_neg h2]
  have hpos : 0 < size.toNat := by
    rw [Nat.pos_iff_ne_zero]
    exact fun h => h2 (UInt64.toNat_inj.mp h)
  rcases addOverflowU64_cases base size with ⟨_, r, hr, hrn⟩ | ⟨hlt, hr⟩
  · rw [hr]
    dsimp only
    split_ifs with h3 <;>
      simp only [UInt64.lt_iff_toNat_lt, UInt64.le_iff_toNat_le, hrn] at h3
    · exact ⟨nofun, fun h => absurd h3 (by omega)⟩
    · exact ⟨fun _ => ⟨hpos, by omega⟩, fun _ => rfl⟩
  · rw [hr]
    exact ⟨nofun, fun h => by omega⟩

theorem validateIdent_iff (eh : Ehdr) : validateIdent eh = m11Ok ↔
    (eh.eIdent 0 = elfMag0 ∧ eh.eIdent 1 = elfMag1 ∧ eh.eIdent 2 = elfMag2 ∧
      eh.eIdent 3 = elfMag3) ∧ eh.eIdent 4 = elfClass64 ∧ eh.eIdent 5 = elfData2Lsb ∧
      eh.eIdent 6 = evCurrent ∧ eh.eVersion = evCurrent.toUInt32 := by
  unfold validateIdent
  split_ifs with h1 h2 h3 h4
  · exact ⟨nofun, fun h => by tauto⟩
  · exact ⟨nofun, fun h => absurd h.2.1 h2⟩
  · exact ⟨nofun, fun h => absurd h.2.2.1 h3⟩
  · exact ⟨nofun, fun h => by tauto⟩
  · exact ⟨fun _ => by tauto, fun _ => rfl⟩

theorem validatePhdrBounds_iff (eh : Ehdr) (size : UInt64) :
    validatePhdrBounds eh size = m11Ok ↔
      0 < eh.ePhnum.toNat ∧ eh.ePhentsize.toNat = 56 ∧
        eh.ePhoff.toNat + 56 * eh.ePhnum.toNat ≤ size.toNat := by
  have hn := eh.ePhnum.toNat_lt
  have hs := size.toNat_lt
  unfold validatePhdrBounds
  by_cases h1 : eh.ePhnum = 0
  · rw [if_pos h1, h1]
    exact ⟨nofun, fun h => absurd h.1 (by decide)⟩
  rw [if_neg h1]
  have hpos : 0 < eh.ePhnum.toNat := by
    rw [Nat.pos_iff_ne_zero]
    exact fun h => h1 (UInt16.toNat_inj.mp h)
  by_cases h2 : eh.ePhentsize = phdrSize
  · have he : eh.ePhentsize.toNat = 56 := by rw [h2]; rfl
    rw [if_neg (not_not.mpr h2)]
    dsimp only
    have hbytes : (eh.ePhentsize.toUInt64 * eh.ePhnum.toUInt64).toNat = 56 * eh.ePhnum.toNat := by
      rw [UInt64.toNat_mul, UInt16.toNat_toUInt64, UInt16.toNat_toUInt64, he]
      exact Nat.mod_eq_of_lt (by omega)
    have hdiv : eh.ePhentsize.toUInt64 * eh.ePhnum.toUInt64 / eh.ePhnum.toUInt64 =
        eh.ePhentsize.toUInt64 := by
      rw [← UInt64.toNat_inj, UInt64.toNat_div, hbytes, UInt16.toNat_toUInt64,
        UInt16.toNat_toUInt64, he, Nat.mul_div_cancel _ hpos]
    rw [if_neg fun h => h.2 hdiv]
    rcases addOverflowU64_cases eh.ePhoff (eh.ePhentsize.toUInt64 * eh.ePhnum.toUInt64) with
      ⟨_, r, hr, hrn⟩ | ⟨hlt, hr⟩
    · rw [hr]
      dsimp only
      split_ifs with h3 <;> simp only [UInt64.lt_iff_toNat_lt, hrn, hbytes] at h3
      · exact ⟨nofun, fun h => absurd h3 (by omega)⟩
      · exact ⟨fun _ => ⟨hpos, he, by omega⟩, fun _ => rfl⟩
    · rw [hr]
      exact ⟨nofun, fun h => by omega⟩
  · rw [if_pos h2]
    exact ⟨nofun, fun h => absurd (UInt16.toNat_inj.mp h.2.1) h2⟩

theorem alignment_iff (ph : Phdr) :
    (¬(ph.pAlign ≠ 0 ∧ ph.pAlign ≠ 1 ∧ ¬isPowerOfTwoU64 ph.pAlign = true) ∧
      ¬(ph.pAlign ≠ 0 ∧ ph.pAlign ≠ 1 ∧ ph.pVaddr % ph.pAlign ≠ ph.pOffset % ph.pAlign)) ↔
    (ph.pAlign.toNat = 0 ∨ ph.pAlign.toNat = 1 ∨
      ph.pAlign.toNat.isPowerOfTwo ∧ ph.pVaddr.toNat ≡ ph.pOffset.toNat [MOD ph.pAlign.toNat]) := by
  have h0 : ph.pAlign.toNat = 0 ↔ ph.pAlign = 0 := UInt64.toNat_inj (b := 0)
  have h1 : ph.pAlign.toNat = 1 ↔ ph.pAlign = 1 := UInt64.toNat_inj (b := 1)
  rw [h0, h1, ← isPowerOfTwoU64_iff, Nat.ModEq, ← UInt64.toNat_mod, ← UInt64.toNat_mod,
    UInt64.toNat_inj]
  tauto

theorem validateLoadSegment_iff (ph : Phdr) (size : UInt64) (region : UserRegion) :
    validateLoadSegment ph size region = m11Ok ↔ LoadOk region size.toNat ph := by
  have hs := size.toNat_lt
  have hw : ph.pFlags &&& pfW ≠ 0 ↔ ph.Writable := flag_iff ph.pFlags 1 pfW rfl
  have hx : ph.pFlags &&& pfX ≠ 0 ↔ ph.Executable := flag_iff ph.pFlags 0 pfX rfl
  have halign := alignment_iff ph
  unfold validateLoadSegment
  by_cases h1 : ph.pFlags &&& ~~~(pfR ||| pfW ||| pfX) ≠ 0
  · rw [if_pos h1]
    exact ⟨nofun, fun h => absurd ((flags_mask_iff _).mpr h.flags) h1⟩
  rw [if_neg h1]
  by_cases h2 : ph.pFlags &&& pfW ≠ 0 ∧ ph.pFlags &&& pfX ≠ 0
  · rw [if_pos h2]
    exact ⟨nofun, fun h => absurd ⟨hw.mp h2.1, hx.mp h2.2⟩ h.not_both⟩
  rw [if_neg h2]
  by_cases h3 : ph.pMemsz < ph.pFilesz
  · rw [if_pos h3]
    rw [UInt64.lt_iff_toNat_lt] at h3
    exact ⟨nofun, fun h => absurd h.sizes (by omega)⟩
  rw [if_neg h3]
  rw [UInt64.lt_iff_toNat_lt] at h3
  by_cases h4 : ph.pAlign ≠ 0 ∧ ph.pAlign ≠ 1 ∧ ¬isPowerOfTwoU64 ph.pAlign = true
  · rw [if_pos h4]
    exact ⟨nofun, fun h => absurd h4 (halign.mpr h.align).1⟩
  rw [if_neg h4]
  by_cases h5 : ph.pAlign ≠ 0 ∧ ph.pAlign ≠ 1 ∧ ph.pVaddr % ph.pAlign ≠ ph.pOffset % ph.pAlign
  · rw [if_pos h5]
    exact ⟨nofun, fun h => absurd h5 (halign.mpr h.align).2⟩
  rw [if_neg h5]
  rcases addOverflowU64_cases ph.pOffset ph.pFilesz with ⟨_, r, hr, hrn⟩ | ⟨hlt, hr⟩
  · rw [hr]
    dsimp only
    split_ifs with h6 <;> simp only [UInt64.lt_iff_toNat_lt, hrn] at h6
    · exact ⟨nofun, fun h => absurd h.file (by omega)⟩
    · rw [validateUserRange_iff]
      constructor
      · rintro ⟨hpos, hlow, hhigh⟩
        exact ⟨(flags_mask_iff _).mp (not_not.mp h1), fun h => h2 ⟨hw.mpr h.1, hx.mpr h.2⟩,
          by omega, halign.mp ⟨h4, h5⟩, by omega, hpos, hlow, hhigh⟩
      · exact fun h => ⟨h.nonempty, h.low, h.high⟩
  · rw [hr]
    exact ⟨nofun, fun h => absurd h.file (by omega)⟩

/-! ## The loop over the program headers -/

/-- The plan that lists the segments of `loads`. -/
def planOf (entry : UInt64) (loads : List Phdr) : ProcessImagePlan where
  entry := entry
  segmentCount := .ofNat loads.length
  segments := loads.map Phdr.segment ++ List.replicate (8 - loads.length) zeroSegment

theorem planOf_count {loads : List Phdr} (h : loads.length ≤ 8) (entry : UInt64) :
    (planOf entry loads).segmentCount.toNat = loads.length :=
  UInt32.toNat_ofNat_of_lt' (by show loads.length < 2 ^ 32; omega)

theorem planOf_push {loads : List Phdr} (h : loads.length < 8) (entry : UInt64) (ph : Phdr) :
    (planOf entry loads).push ph.segment = planOf entry (loads ++ [ph]) := by
  have hcount : (planOf entry loads).segmentCount.toNat = loads.length :=
    planOf_count (by omega) entry
  have hsucc : (planOf entry loads).segmentCount + 1 = UInt32.ofNat (loads ++ [ph]).length := by
    rw [List.length_append, List.length_singleton, UInt32.ofNat_add]
    rfl
  have hset : (planOf entry loads).segments.set loads.length ph.segment =
      (planOf entry (loads ++ [ph])).segments := by
    obtain ⟨k, hk⟩ : ∃ k, 8 - loads.length = k + 1 := ⟨7 - loads.length, by omega⟩
    have hk' : 8 - (loads ++ [ph]).length = k := by
      rw [List.length_append, List.length_singleton]
      omega
    simp only [planOf, hk, hk', List.replicate_succ, List.map_append, List.map_cons, List.map_nil,
      List.append_assoc, List.cons_append, List.nil_append]
    rw [List.set_append_right _ _ (by simp)]
    simp
  rw [ProcessImagePlan.push, hcount, hset, hsucc]
  rfl

variable {image : Image} {region : UserRegion}

theorem readPhdr_inside {off : Nat} (h : off + 56 ≤ image.size.toNat) :
    image.readPhdr off = some (Phdr.ofBytes image.bytes off) := if_pos h

theorem loadsFrom_succ (phoff i n : Nat) : image.loadsFrom phoff i (n + 1) =
    if (Phdr.ofBytes image.bytes (phoff + 56 * i)).pType = ptLoad then
      Phdr.ofBytes image.bytes (phoff + 56 * i) :: image.loadsFrom phoff (i + 1) n
    else image.loadsFrom phoff (i + 1) n := by
  rw [Image.loadsFrom, List.range'_succ, List.map_cons, List.filter_cons]
  simp only [decide_eq_true_eq]
  rfl

/-- The loop reads nothing outside the image, and goes to its end just where all headers are fine
and there is room for them. `done` are the headers planned so far. -/
theorem planSegments_spec (region : UserRegion) (entry : UInt64) (phoff n i : Nat)
    (done : List Phdr) (hdone : done.length ≤ 8) (hin : phoff + 56 * (i + n) ≤ image.size.toNat) :
    ((done ++ image.loadsFrom phoff i n).length ≤ 8 ∧
      (∀ ph ∈ image.loadsFrom phoff i n, LoadOk region image.size.toNat ph) ∧
      planSegments image region phoff n i (planOf entry done) =
        some (.ok (planOf entry (done ++ image.loadsFrom phoff i n)))) ∨
    (¬((done ++ image.loadsFrom phoff i n).length ≤ 8 ∧
      ∀ ph ∈ image.loadsFrom phoff i n, LoadOk region image.size.toNat ph) ∧
      ∃ rc, rc ≠ m11Ok ∧
        planSegments image region phoff n i (planOf entry done) = some (.error rc)) := by
  induction n generalizing i done with
  | zero =>
      have hnil : image.loadsFrom phoff i 0 = [] := rfl
      rw [hnil, List.append_nil]
      exact Or.inl ⟨hdone, nofun, rfl⟩
  | succ n ih =>
      have hread : image.readPhdr (phoff + phdrSize.toNat * i) =
          some (Phdr.ofBytes image.bytes (phoff + 56 * i)) :=
        readPhdr_inside (by show phoff + 56 * i + 56 ≤ _; omega)
      have hstep : ∀ plan, planSegments image region phoff (n + 1) i plan =
          if (Phdr.ofBytes image.bytes (phoff + 56 * i)).pType ≠ ptLoad then
            planSegments image region phoff n (i + 1) plan
          else if maxLoadSegments ≤ plan.segmentCount.toNat then some (.error m11ErrSegcount)
          else if validateLoadSegment (Phdr.ofBytes image.bytes (phoff + 56 * i)) image.size region
              ≠ m11Ok then
            some (.error (validateLoadSegment (Phdr.ofBytes image.bytes (phoff + 56 * i))
              image.size region))
          else planSegments image region phoff n (i + 1)
            (plan.push (Phdr.ofBytes image.bytes (phoff + 56 * i)).segment) := by
        intro plan
        rw [planSegments, hread]
        rfl
      rw [hstep, loadsFrom_succ]
      set ph := Phdr.ofBytes image.bytes (phoff + 56 * i)
      by_cases hload : ph.pType = ptLoad
      · rw [if_neg (not_not.mpr hload), if_pos hload, planOf_count hdone]
        by_cases hfull : maxLoadSegments ≤ done.length
        · -- the number of segments is checked before the segment itself
          rw [if_pos hfull]
          refine Or.inr ⟨fun h => ?_, m11ErrSegcount, by decide, rfl⟩
          have hlen := h.1
          rw [List.length_append, List.length_cons] at hlen
          have : 8 ≤ done.length := hfull
          omega
        rw [if_neg hfull]
        have hroom : done.length < 8 := not_le.mp hfull
        by_cases hok : validateLoadSegment ph image.size region = m11Ok
        · rw [if_neg (not_not.mpr hok), planOf_push hroom]
          have hph := (validateLoadSegment_iff ph image.size region).mp hok
          have happ : done ++ ph :: image.loadsFrom phoff (i + 1) n =
              done ++ [ph] ++ image.loadsFrom phoff (i + 1) n := by simp
          rw [happ, List.forall_mem_cons]
          simp only [hph, true_and]
          exact ih (i + 1) (done ++ [ph]) (by simp; omega) (by omega)
        · rw [if_pos hok]
          refine Or.inr ⟨fun h => hok ?_, _, hok, rfl⟩
          exact (validateLoadSegment_iff ph image.size region).mpr (h.2 ph (by simp))
      · rw [if_pos hload, if_neg hload]
        exact ih (i + 1) done hdone (by omega)

/-! ## The loader -/

/-- The checks before the loop let through the images whose segments are to be looked at. -/
theorem elf64PlanLoad_reaches (image : Image) (region : UserRegion) :
    (ReachesSegments image region ∧ elf64PlanLoad image region =
      ((planSegments image region image.ehdr.ePhoff.toNat image.ehdr.ePhnum.toNat 0
        (planOf image.ehdr.eEntry [])).bind fun
          | .error rc => some (rc, zeroPlan)
          | .ok plan =>
            if plan.segmentCount = 0 then some (m11ErrSegcount, plan) else some (m11Ok, plan))) ∨
    (¬ReachesSegments image region ∧
      ∃ rc, rc ≠ m11Ok ∧ elf64PlanLoad image region = some (rc, zeroPlan)) := by
  unfold elf64PlanLoad
  by_cases h1 : image.size < ehdrSize.toUInt64
  · rw [if_pos h1]
    rw [UInt64.lt_iff_toNat_lt] at h1
    exact Or.inr ⟨fun h => absurd h.holds_header (not_le.mpr h1), _, by decide, rfl⟩
  rw [if_neg h1]
  have hsize : 64 ≤ image.size.toNat := by
    rw [UInt64.lt_iff_toNat_lt] at h1
    exact not_lt.mp h1
  have hread : image.readEhdr = some image.ehdr := if_pos hsize
  rw [hread]
  show (ReachesSegments image region ∧ (if validateIdent image.ehdr ≠ m11Ok then _ else _) = _) ∨
    (_ ∧ ∃ rc, rc ≠ m11Ok ∧ (if validateIdent image.ehdr ≠ m11Ok then _ else _) = _)
  by_cases h2 : validateIdent image.ehdr = m11Ok
  swap
  · rw [if_pos h2]
    refine Or.inr ⟨fun h => h2 ((validateIdent_iff _).mpr ?_), _, h2, rfl⟩
    exact ⟨h.header.magic, h.header.elfClass, h.header.data, h.header.version⟩
  rw [if_neg (not_not.mpr h2)]
  by_cases h3 : image.ehdr.eType ≠ etExec ∧ image.ehdr.eType ≠ etDyn
  · rw [if_pos h3]
    exact Or.inr ⟨fun h => h.header.type.elim h3.1 h3.2, _, by decide, rfl⟩
  rw [if_neg h3]
  by_cases h4 : image.ehdr.eMachine = emX86_64
  swap
  · rw [if_pos h4]
    exact Or.inr ⟨fun h => h4 h.header.machine, _, by decide, rfl⟩
  rw [if_neg (not_not.mpr h4)]
  by_cases h5 : image.ehdr.eEhsize = ehdrSize
  swap
  · rw [if_pos h5]
    exact Or.inr ⟨fun h => h5 (UInt16.toNat_inj.mp h.header.ehsize), _, by decide, rfl⟩
  rw [if_neg (not_not.mpr h5)]
  have hbounds := validatePhdrBounds_iff image.ehdr image.size
  by_cases h6 : validatePhdrBounds image.ehdr image.size = m11Ok
  swap
  · rw [if_pos h6]
    exact Or.inr ⟨fun h => h6 (hbounds.mpr ⟨h.phnum, h.phentsize, h.phdrs⟩), _, h6, rfl⟩
  rw [if_neg (not_not.mpr h6)]
  obtain ⟨hphnum, hphentsize, hphdrs⟩ := hbounds.mp h6
  have hentry := validateUserRange_iff region image.ehdr.eEntry 1
  rw [show (1 : UInt64).toNat = 1 from rfl] at hentry
  by_cases h7 : validateUserRange region image.ehdr.eEntry 1 = m11Ok
  swap
  · rw [if_pos h7]
    exact Or.inr ⟨fun h => h7 (hentry.mpr ⟨by norm_num, h.entry⟩), _, by decide, rfl⟩
  rw [if_neg (not_not.mpr h7)]
  obtain ⟨-, hlow, hhigh⟩ := hentry.mp h7
  have hheader : HeaderOk image.ehdr := by
    obtain ⟨hmagic, hclass, hdata, hversion⟩ := (validateIdent_iff _).mp h2
    have htype : image.ehdr.eType = etExec ∨ image.ehdr.eType = etDyn := by
      by_contra h
      exact h3 (not_or.mp h)
    exact ⟨hmagic, hclass, hdata, hversion, htype, h4, congrArg UInt16.toNat h5⟩
  exact Or.inl ⟨⟨hsize, hheader, hphnum, hphentsize, hphdrs, hlow, hhigh⟩, rfl⟩

/-- The loader returns something on every image: it plans the loadable segments where the image is
acceptable, and fails otherwise. All failures but the one for want of a segment clear the plan. -/
theorem elf64PlanLoad_cases (image : Image) (region : UserRegion) :
    (Acceptable image region ∧
      elf64PlanLoad image region = some (m11Ok, planOf image.ehdr.eEntry image.loads)) ∨
    (ReachesSegments image region ∧ image.loads = [] ∧
      elf64PlanLoad image region = some (m11ErrSegcount, planOf image.ehdr.eEntry [])) ∨
    (¬Acceptable image region ∧ ¬(ReachesSegments image region ∧ image.loads = []) ∧
      ∃ rc, rc ≠ m11Ok ∧ elf64PlanLoad image region = some (rc, zeroPlan)) := by
  rcases elf64PlanLoad_reaches image region with ⟨hreach, hload⟩ | ⟨hreach, hfail⟩
  swap
  · exact Or.inr (Or.inr ⟨fun h => hreach h.reaches, fun h => hreach h.1, hfail⟩)
  rw [hload]
  have hphdrs := hreach.phdrs
  have hloop := @planSegments_spec image region image.ehdr.eEntry
    image.ehdr.ePhoff.toNat image.ehdr.ePhnum.toNat 0 [] (by simp) (by omega)
  rw [List.nil_append, ← Image.loads] at hloop
  rcases hloop with ⟨hfew, hall, hplan⟩ | ⟨hbad, rc, hrc, hplan⟩
  · rw [hplan, Option.bind_some]
    have hcount := planOf_count hfew image.ehdr.eEntry
    by_cases h8 : (planOf image.ehdr.eEntry image.loads).segmentCount = 0
    · have hnil : image.loads = [] := by
        apply List.length_eq_zero_iff.mp
        rw [← hcount]
        exact congrArg UInt32.toNat h8
      refine Or.inr (Or.inl ⟨hreach, hnil, ?_⟩)
      simp only [hnil]
      rfl
    · refine Or.inl ⟨⟨hreach.holds_header, hreach.header, hreach.phnum, hreach.phentsize,
        hreach.phdrs, hreach.entry, ?_, hfew, hall⟩, if_neg h8⟩
      rw [Nat.one_le_iff_ne_zero]
      exact fun h => h8 (UInt32.toNat_inj.mp (hcount.trans h))
  · rw [hplan, Option.bind_some]
    refine Or.inr (Or.inr ⟨fun h => hbad ⟨h.few_loads, h.loads⟩, fun h => hbad ?_, rc, hrc, rfl⟩)
    simp [h.2]

/-- The loader reads nothing outside the image, accepts just the acceptable images, and plans
their loadable segments in file order. -/
theorem elf64PlanLoad_iff (image : Image) (region : UserRegion) :
    ∃ rc plan, elf64PlanLoad image region = some (rc, plan) ∧
      (rc = m11Ok ↔ Acceptable image region) ∧
      (rc = m11Ok → plan.entry = image.ehdr.eEntry ∧
        plan.segmentCount.toNat = image.loads.length ∧
        plan.segments = image.loads.map Phdr.segment ++
          List.replicate (8 - image.loads.length) zeroSegment) := by
  rcases elf64PlanLoad_cases image region with
    ⟨hacc, hplan⟩ | ⟨-, hnil, hplan⟩ | ⟨hacc, -, rc, hrc, hplan⟩
  · exact ⟨_, _, hplan, iff_of_true rfl hacc, fun _ => ⟨rfl, planOf_count hacc.few_loads _, rfl⟩⟩
  · have hne : m11ErrSegcount ≠ m11Ok := by decide
    refine ⟨_, _, hplan, iff_of_false hne fun h => ?_, fun h => absurd h hne⟩
    have hsome := h.some_load
    simp [hnil] at hsome
  · exact ⟨rc, _, hplan, iff_of_false hrc hacc, fun h => absurd h hrc⟩

end Mcsos.User
