import Mcsos.Mcsfs1j.JournalReplay

set_option autoImplicit false

/-! # One damaged byte in a committed journal

The header is covered by its checksum, a payload by the checksum in its descriptor, and the magic
and the checksum of a descriptor by being compared. The target of a descriptor is covered by
nothing: a change of its low byte is noticed only if there is no such block.
-/

namespace Mcsos.Mcsfs1j

open WriteLog

/-! ## The checksum notices one byte -/

/-- One step of FNV-1a. -/
def fnvStep (h : UInt32) (x : UInt8) : UInt32 := (h ^^^ x.toUInt32) * 16777619

/-- The FNV prime is odd, so it has an inverse. -/
theorem fnvPrime_inverse : (16777619 : UInt32) * 899433627 = 1 := by decide

theorem mul_fnvPrime_inj {a b : UInt32} (h : a * 16777619 = b * 16777619) : a = b := by
  have := congrArg (· * (899433627 : UInt32)) h
  rwa [UInt32.mul_assoc, UInt32.mul_assoc, fnvPrime_inverse, UInt32.mul_one, UInt32.mul_one] at this

theorem fnvStep_inj_left {h h' : UInt32} {x : UInt8} (he : fnvStep h x = fnvStep h' x) : h = h' :=
  (UInt32.xor_left_inj _).mp (mul_fnvPrime_inj he)

theorem fnvStep_inj_right {h : UInt32} {x x' : UInt8} (he : fnvStep h x = fnvStep h x') : x = x' :=
  UInt8.toUInt32_inj.mp ((UInt32.xor_right_inj _).mp (mul_fnvPrime_inj he))

theorem checksum_succ (b : Bytes) (n : Nat) : checksum b (n + 1) = fnvStep (checksum b n) (b n) := by
  unfold checksum
  rw [List.range_succ, List.foldl_append]
  rfl

/-- Two buffers of `n` bytes differ in byte `i` and nowhere else. -/
structure DifferAt (n i : Nat) (a b : Bytes) : Prop where
  lt : i < n
  ne : a i ≠ b i
  same : ∀ k, k < n → k ≠ i → a k = b k

/-- Buffers that differ in one byte have different checksums. -/
theorem checksum_ne {a b : Bytes} {i n : Nat} (h : DifferAt n i a b) :
    checksum a n ≠ checksum b n := by
  induction n with
  | zero => exact absurd h.lt (Nat.not_lt_zero i)
  | succ n ih =>
      rw [checksum_succ, checksum_succ]
      intro he
      by_cases hin : i = n
      · subst hin
        -- the same sum so far, then the two bytes
        have hpre : checksum a i = checksum b i :=
          checksum_congr fun k _ hk => h.same k (by omega) (by omega)
        rw [hpre] at he
        exact h.ne (fnvStep_inj_right he)
      · -- the sums differ already, and the same byte comes to both
        have hlt := h.lt
        rw [h.same n (Nat.lt_succ_self n) (Ne.symm hin)] at he
        exact ih ⟨by omega, h.ne, fun k hk => h.same k (by omega)⟩ (fnvStep_inj_left he)

/-- A field that has the byte in it differs. -/
theorem DifferAt.load_ne {n i off w : Nat} {a b : Bytes} (h : DifferAt n i a b) (hlo : off ≤ i)
    (hhi : i < off + w) : a.load off w ≠ b.load off w := by
  intro he
  have hbyte := Bytes.bytes_eq_of_load_eq he (i - off) (by omega)
  rw [show off + (i - off) = i by omega] at hbyte
  exact h.ne hbyte

/-- A field beside the byte is the same. -/
theorem DifferAt.load_eq {n i off w : Nat} {a b : Bytes} (h : DifferAt n i a b)
    (hout : i < off ∨ off + w ≤ i) (hin : off + w ≤ n) : a.load off w = b.load off w :=
  Bytes.load_congr fun k hk hk' => h.same k (by omega) (by omega)

theorem differAt_update {b : Bytes} {i n : Nat} {v : UInt8} (hi : i < n) (hv : v ≠ b i) :
    DifferAt n i (Function.update b i v) b where
  lt := hi
  ne := by
    rw [Function.update_self]
    exact hv
  same := fun _ _ hk => Function.update_of_ne hk _ _

/-! ## Damage -/

/-- The device with byte `off` of block `lba` changed to `v`. -/
def damage (dev : Blockdev) (lba off : Nat) (v : UInt8) : Blockdev :=
  { dev with blocks := Function.update dev.blocks lba (Function.update (dev.blocks lba) off v) }

theorem damage_other {dev : Blockdev} {lba off lba' : Nat} {v : UInt8} (h : lba' ≠ lba) :
    (damage dev lba off v).blocks lba' = dev.blocks lba' := Function.update_of_ne h _ _

theorem damage_block (dev : Blockdev) (lba off : Nat) (v : UInt8) :
    (damage dev lba off v).blocks lba = Function.update (dev.blocks lba) off v :=
  Function.update_self _ _ _

theorem damage_same {dev : Blockdev} {lba off : Nat} {v : UInt8} (h : v = dev.blocks lba off) :
    damage dev lba off v = dev := by
  unfold damage
  rw [h, Function.update_eq_self, Function.update_eq_self]

/-- A field that a byte of is changed is no longer what it was. -/
theorem load_update_ne {b : Bytes} {i off w : Nat} {v : UInt8} (hv : v ≠ b i) (hlo : off ≤ i)
    (hhi : i < off + w) : Bytes.load (Function.update b i v) off w ≠ b.load off w :=
  (differAt_update (Nat.lt_succ_self i) hv).load_ne hlo hhi

theorem load_update_off {b : Bytes} {i off w : Nat} {v : UInt8} (h : i < off ∨ off + w ≤ i) :
    Bytes.load (Function.update b i v) off w = b.load off w := by
  apply Bytes.load_congr
  intro k hk hk'
  exact Function.update_of_ne (by omega) _ _

/-! ## A damaged header -/

/-- Recovery does not replay under a header with a wrong byte. -/
theorem not_headerOk_of_differAt {h h' : Bytes} {count i : Nat} (hgood : GoodHeader h count)
    (hd : DifferAt blockSize i h' h) : ¬HeaderOk h' := by
  rintro ⟨hbad, -⟩
  have hsum := hbad.checksum
  by_cases hfield : 24 ≤ i ∧ i < 28
  · -- the checksum field is not the sum of the rest any more
    have hrest : headerChecksum h' = headerChecksum h :=
      headerChecksum_congr fun k hk hlt => hd.same k hlt (by omega)
    rw [hrest, hgood.checksum] at hsum
    exact hd.load_ne hfield.1 hfield.2 hsum.symm
  · have hrest : hChecksum h' = hChecksum h := hd.load_eq (by omega) (by decide)
    rw [hrest, ← hgood.checksum] at hsum
    refine checksum_ne ⟨hd.lt, ?_, fun k hk hne => ?_⟩ (UInt32.toNat_inj.mp hsum)
    · rw [Bytes.store, if_neg (by omega), Bytes.store, if_neg (by omega)]
      exact hd.ne
    · unfold Bytes.store
      split
      · rfl
      · exact hd.same k hk hne

/-- Two bytes of the magic are not zero, so one wrong byte does not make a header an empty one. -/
theorem magic_ne_zero_of_differAt {h h' : Bytes} {i : Nat} (hmagic : hMagic h = jMagic)
    (hd : DifferAt blockSize i h' h) : hMagic h' ≠ 0 := by
  intro hzero
  have hstored : h.load 0 8 = (Bytes.zero.store 0 8 jMagic).load 0 8 := hmagic
  have hempty : h'.load 0 8 = Bytes.zero.load 0 8 := hzero
  have hold := Bytes.bytes_eq_of_load_eq hstored
  have hnew := Bytes.bytes_eq_of_load_eq hempty
  have hsize : 8 ≤ blockSize := by decide
  by_cases hi : i = 0
  · have hsame := hd.same (0 + 1) (by omega) (by omega)
    rw [hnew 1 (by decide), hold 1 (by decide)] at hsame
    exact absurd hsame (by decide)
  · have hsame := hd.same (0 + 0) (by omega) (by omega)
    rw [hnew 0 (by decide), hold 0 (by decide)] at hsame
    exact absurd hsame (by decide)

/-- The checksum tells any two buffers apart that differ in one byte. So recovery finds a committed
header with a wrong byte, wherever it is, corrupt, and does nothing to the device. -/
theorem checksum_detects_byte :
    (∀ (n i : Nat) (a b : Bytes), DifferAt n i a b → checksum a n ≠ checksum b n) ∧
      ∀ (dev : Blockdev) (h : Bytes) (count i : Nat), validLba dev journalStart →
        GoodHeader h count → DifferAt blockSize i (dev.blocks journalStart) h →
        journalRecover dev = (.error .corrupt, dev) := by
  refine ⟨fun n i a b => checksum_ne, fun dev h count i hv hgood hd => ?_⟩
  apply journalRecover_rejected hv
  · exact fun hempty => magic_ne_zero_of_differAt hgood.magic hd hempty.1
  · exact not_headerOk_of_differAt hgood hd

/-- The last byte of the header of a commit is wrong. -/
def wrongLastByte : Blockdev :=
  { devInit with
    blocks := Function.update (fun _ => Bytes.zero) journalStart
      (Function.update (Bytes.clip blockSize (mkHeader 2 1)) 511 1) }

theorem checksum_detects_byte_last : checksum (Bytes.zero.fill 3 1 7) 8 ≠ checksum Bytes.zero 8 ∧
    journalRecover wrongLastByte = (.error .corrupt, wrongLastByte) := by
  refine ⟨checksum_detects_byte.1 8 3 _ _ ⟨by decide, by decide, fun k _ hk => ?_⟩,
    checksum_detects_byte.2 wrongLastByte _ 1 511 (by decide)
      (goodHeader_mkHeader 2 (show 1 ≤ journalMaxRecords by decide))
      (differAt_update (by decide) (by decide +kernel))⟩
  rw [Bytes.fill, if_neg (by omega)]

/-! ## Damaged records -/

/-- Record `i` is the one of `tx`. -/
def RecordAs (total : Nat) (blocks : Nat → Bytes) (tx : Tx) (i : Nat) : Prop :=
  GoodRecord total blocks i ∧
    recordAt blocks i = ((tx.recs i).targetLba, Bytes.clip blockSize (tx.recs i).payload)

/-- Two stores have the same blocks of record `i`. -/
def SameRecord (a b : Nat → Bytes) (i : Nat) : Prop :=
  a (descLba i) = b (descLba i) ∧ a (dataLba i) = b (dataLba i)

theorem SameRecord.trans {a b c : Nat → Bytes} {i : Nat} (h : SameRecord a b i)
    (h' : SameRecord b c i) : SameRecord a c i :=
  ⟨h.1.trans h'.1, h.2.trans h'.2⟩

theorem goodRecord_congr {total : Nat} {a b : Nat → Bytes} {i : Nat} (h : SameRecord a b i) :
    GoodRecord total a i ↔ GoodRecord total b i := by
  unfold GoodRecord
  rw [h.1, h.2]

theorem recordAs_congr {total : Nat} {a b : Nat → Bytes} {tx : Tx} {i : Nat} (h : SameRecord a b i) :
    RecordAs total a tx i ↔ RecordAs total b tx i := by
  unfold RecordAs recordAt
  rw [goodRecord_congr h, h.1, h.2]

theorem recordAs_of_committed {dev : Blockdev} {tx : Tx} (h : Committed dev tx) {i : Nat}
    (hi : i < tx.count) : RecordAs dev.totalBlocks dev.blocks tx i := by
  obtain ⟨hvalid, -⟩ := h.targets i hi
  have htarget : dTargetLba (dev.blocks (descLba i)) = (tx.recs i).targetLba := by
    rw [h.desc i hi, dTargetLba_mkDesc (lt_of_validLba hvalid)]
  have hclip := checksum_congr (Bytes.clip_agreeOn blockSize (tx.recs i).payload)
  refine ⟨⟨?_, ?_, ?_⟩, ?_⟩
  · rw [h.desc i hi, dMagic_mkDesc]
  · rw [htarget]
    exact hvalid
  · rw [h.desc i hi, dPayloadChecksum_mkDesc, h.data i hi, hclip]
  · unfold recordAt
    rw [htarget, h.data i hi]

/-- If every record is one of `tx` or bad, replay only gets to records of `tx`. -/
theorem goodRecords_own {total : Nat} {blocks : Nat → Bytes} {tx : Tx} {i n : Nat}
    (hn : i + n ≤ journalMaxRecords)
    (hout : ∀ k, i ≤ k → k < i + n → ¬InJournal (tx.recs k).targetLba)
    (h : ∀ k, i ≤ k → k < i + n → RecordAs total blocks tx k ∨ ¬GoodRecord total blocks k) :
    ∀ w ∈ goodRecords total blocks i n, ∃ k, k < i + n ∧
      w = ((tx.recs k).targetLba, Bytes.clip blockSize (tx.recs k).payload) := by
  induction n generalizing i blocks with
  | zero =>
      intro w hw
      cases hw
  | succ n ih =>
      rw [goodRecords]
      rcases h i (le_refl i) (by omega) with ⟨hgood, hrec⟩ | hbad
      · rw [if_pos hgood]
        -- the write is outside the journal, so the records after it are as they were
        have hsame : ∀ k, k < journalMaxRecords →
            SameRecord (applyWrites (stored [recordAt blocks i]) blocks) blocks k := fun k hk => by
          have hwrite : applyWrites (stored [recordAt blocks i]) blocks =
              Function.update blocks (recordAt blocks i).1
                (Bytes.clip blockSize (recordAt blocks i).2) := rfl
          have hin := hout i (le_refl i) (by omega)
          rw [hwrite, hrec]
          constructor
          · refine Function.update_of_ne (fun he => hin ?_) _ _
            exact (show descLba k = (tx.recs i).targetLba from he) ▸ inJournal_desc hk
          · refine Function.update_of_ne (fun he => hin ?_) _ _
            exact (show dataLba k = (tx.recs i).targetLba from he) ▸ inJournal_data hk
        intro w hw
        rcases List.mem_cons.mp hw with rfl | hw
        · exact ⟨i, by omega, hrec⟩
        · obtain ⟨k, hk, hwk⟩ := ih (by omega) (fun k hik hk => hout k (by omega) (by omega))
            (fun k hik hk => by
              rw [recordAs_congr (hsame k (by omega)), goodRecord_congr (hsame k (by omega))]
              exact h k (by omega) (by omega)) w hw
          exact ⟨k, by omega, hwk⟩
      · rw [if_neg hbad]
        intro w hw
        cases hw

theorem descLba_ne_dataLba (i k : Nat) : descLba i ≠ dataLba k := by
  unfold dataLba descLba
  omega

/-- The damage does not send a record to another block: it is not in the low byte of a target, or
leaves it as it is, or makes it a block that does not exist. -/
def TargetKept (dev : Blockdev) (tx : Tx) (lba off : Nat) (v : UInt8) : Prop :=
  ∀ k, k < tx.count → lba = descLba k → off = 8 →
    v = dev.blocks lba off ∨ ¬validLba dev v.toNat

section Damage

variable {dev : Blockdev} {tx : Tx} {lba off : Nat} {v : UInt8}

/-- A record in other blocks is as it was. -/
theorem sameRecord_damage {k : Nat} (hd : lba ≠ descLba k) (hp : lba ≠ dataLba k) :
    SameRecord (damage dev lba off v).blocks dev.blocks k :=
  ⟨damage_other (Ne.symm hd), damage_other (Ne.symm hp)⟩

/-- The checksum in the descriptor covers the payload. -/
theorem not_goodRecord_data (h : Committed dev tx) {k : Nat} (hk : k < tx.count)
    (hoff : off < blockSize) (hv : v ≠ dev.blocks (dataLba k) off) :
    ¬GoodRecord dev.totalBlocks (damage dev (dataLba k) off v).blocks k := by
  rintro ⟨-, -, hsum⟩
  rw [damage_block, damage_other (descLba_ne_dataLba k k)] at hsum
  have hold := (recordAs_of_committed h hk).1.2.2
  rw [← hold] at hsum
  exact checksum_ne (differAt_update hoff hv) (UInt32.toNat_inj.mp hsum)

/-- A target below 256 is in its low byte. -/
theorem target_high_zero (h : Committed dev tx) {k : Nat} (hk : k < tx.count) {j : Nat}
    (hj : 0 < j) (hj' : j < 4) : dev.blocks (descLba k) (8 + j) = 0 := by
  have htarget := (recordAs_of_committed h hk).1.2.1.2
  have hbyte := Bytes.byte_le_load (dev.blocks (descLba k)) 8 hj'
  have hpow : 256 ^ 1 ≤ 256 ^ j := Nat.pow_le_pow_right (by decide) hj
  have hzero : (dev.blocks (descLba k) (8 + j)).toNat = 0 := by
    by_contra hne
    have hlt : 256 < 128 :=
      calc 256 = 256 ^ 1 * 1 := rfl
        _ ≤ 256 ^ j * (dev.blocks (descLba k) (8 + j)).toNat :=
            Nat.mul_le_mul hpow (Nat.pos_of_ne_zero hne)
        _ ≤ dTargetLba (dev.blocks (descLba k)) := hbyte
        _ < 128 := htarget
    omega
  exact UInt8.toNat_inj.mp hzero

/-- The target under a changed low byte is that byte. -/
theorem dTargetLba_damage (h : Committed dev tx) {k : Nat} (hk : k < tx.count) :
    dTargetLba ((damage dev (descLba k) 8 v).blocks (descLba k)) = v.toNat := by
  rw [damage_block]
  unfold dTargetLba
  rw [Bytes.load_of_high_zero, Function.update_self]
  intro j hj hj'
  rw [Function.update_of_ne (by omega)]
  exact target_high_zero h hk hj hj'

/-- A changed descriptor is bad or says the same, if the change does not redirect it. -/
theorem damaged_desc (h : Committed dev tx) {k : Nat} (hk : k < tx.count)
    (hv : v ≠ dev.blocks (descLba k) off) (hkept : TargetKept dev tx (descLba k) off v) :
    RecordAs dev.totalBlocks (damage dev (descLba k) off v).blocks tx k ∨
      ¬GoodRecord dev.totalBlocks (damage dev (descLba k) off v).blocks k := by
  have hrec := recordAs_of_committed h hk
  have hdata : (damage dev (descLba k) off v).blocks (dataLba k) = dev.blocks (dataLba k) :=
    damage_other (descLba_ne_dataLba k k).symm
  rcases lt_or_ge off 8 with h8 | h8
  · -- the magic
    apply Or.inr
    intro hgood
    have hmagic := hgood.1
    rw [damage_block, ← hrec.1.1] at hmagic
    exact load_update_ne hv (Nat.zero_le off) (by omega) hmagic
  · rcases lt_or_ge off 12 with h12 | h12
    · -- the target
      apply Or.inr
      intro hgood
      have htarget := hgood.2.1
      by_cases hlow : off = 8
      · -- the low byte: `hkept` excludes any other block that may be replayed to
        subst hlow
        rw [dTargetLba_damage h hk] at htarget
        rcases hkept k hk rfl rfl with hsame | hno
        · exact hv hsame
        · exact hno htarget
      · -- a high byte that is not zero makes the target too large
        obtain ⟨j, rfl⟩ : ∃ j, off = 8 + j := ⟨off - 8, by omega⟩
        have hbyte := Bytes.byte_le_load
          (Function.update (dev.blocks (descLba k)) (8 + j) v) 8 (show j < 4 by omega)
        rw [Function.update_self] at hbyte
        rw [target_high_zero h hk (show 0 < j by omega) (by omega)] at hv
        have hpos : 0 < v.toNat := Nat.pos_of_ne_zero fun hz => hv (UInt8.toNat_inj.mp hz)
        have hpow : 256 ^ 1 ≤ 256 ^ j := Nat.pow_le_pow_right (by decide) (by omega)
        have hge : 256 ≤ Bytes.load (Function.update (dev.blocks (descLba k)) (8 + j) v) 8 4 :=
          calc 256 = 256 ^ 1 * 1 := rfl
            _ ≤ 256 ^ j * v.toNat := Nat.mul_le_mul hpow hpos
            _ ≤ _ := hbyte
        have hlt : dTargetLba ((damage dev (descLba k) (8 + j) v).blocks (descLba k)) < 128 :=
          htarget.2
        rw [damage_block] at hlt
        unfold dTargetLba at hlt
        omega
    · rcases lt_or_ge off 16 with h16 | h16
      · -- the checksum of the payload
        apply Or.inr
        intro hgood
        have hsum := hgood.2.2
        rw [hdata, damage_block, hrec.1.2.2] at hsum
        exact load_update_ne hv h12 (by omega) hsum.symm
      · -- nothing is read from here on
        have hmagic : dMagic ((damage dev (descLba k) off v).blocks (descLba k)) =
            dMagic (dev.blocks (descLba k)) := by
          rw [damage_block]
          exact load_update_off (by omega)
        have htarget : dTargetLba ((damage dev (descLba k) off v).blocks (descLba k)) =
            dTargetLba (dev.blocks (descLba k)) := by
          rw [damage_block]
          exact load_update_off (by omega)
        have hsum : dPayloadChecksum ((damage dev (descLba k) off v).blocks (descLba k)) =
            dPayloadChecksum (dev.blocks (descLba k)) := by
          rw [damage_block]
          exact load_update_off (by omega)
        refine Or.inl ?_
        unfold RecordAs GoodRecord recordAt
        rw [hmagic, htarget, hsum, hdata]
        exact hrec

/-- Every record is one of the transaction or bad, if the damage is not in the header. -/
theorem damaged_records (h : Committed dev tx) (hoff : off < blockSize)
    (hkept : TargetKept dev tx lba off v) {k : Nat} (hk : k < tx.count) :
    RecordAs dev.totalBlocks (damage dev lba off v).blocks tx k ∨
      ¬GoodRecord dev.totalBlocks (damage dev lba off v).blocks k := by
  by_cases hv : v = dev.blocks lba off
  · rw [damage_same hv]
    exact Or.inl (recordAs_of_committed h hk)
  · by_cases hd : lba = descLba k
    · subst hd
      exact damaged_desc h hk hv hkept
    · by_cases hp : lba = dataLba k
      · subst hp
        exact Or.inr (not_goodRecord_data h hk hoff hv)
      · rw [recordAs_congr (sameRecord_damage hd hp)]
        exact Or.inl (recordAs_of_committed h hk)

end Damage

/-! ## Recovery from a damaged journal -/

/-- How many of `n` writes the device takes. -/
def writesLeft (dev : Blockdev) (n : Nat) : Nat :=
  if dev.failAfter < 0 then n else min n dev.failAfter.toNat

theorem le_writesLeft_iff {dev : Blockdev} {m n : Nat} (h : m ≤ n) :
    m ≤ writesLeft dev n ↔ Allows dev m := by
  unfold writesLeft Allows
  split <;> omega

/-- The records of the journal of `dev` that recovery writes. -/
def doneRecords (dev : Blockdev) : List (Nat × Bytes) :=
  (journalRecords dev).take (writesLeft dev (journalRecords dev).length)

theorem mem_doneRecords {dev : Blockdev} {w : Nat × Bytes} (h : w ∈ doneRecords dev) :
    w ∈ journalRecords dev := List.mem_of_mem_take h

/-- The home blocks after a recovery. -/
theorem journalRecover_home {dev : Blockdev} (hv : validLba dev journalStart)
    (hh : HeaderOk (dev.blocks journalStart))
    (hdata : ∀ k, k < hCount (dev.blocks journalStart) → validLba dev (dataLba k)) :
    HomeEq (journalRecover dev).2.blocks (applyWrites (stored (doneRecords dev)) dev.blocks) := by
  obtain ⟨r, dev', j, hj, hcases⟩ := journalRecover_cases hv hh hdata
  have hcount : j = writesLeft dev (journalRecords dev).length := by
    have hvalid : ∀ n, ∀ w ∈ (journalRecords dev).take n, validLba dev w.1 := fun n w hw =>
      goodRecords_valid w (List.mem_of_mem_take hw)
    have hreach : ∀ n, n ≤ (journalRecords dev).length →
        (n ≤ j ↔ n ≤ writesLeft dev (journalRecords dev).length) := fun n hn => by
      rw [hj.reach n hn, le_writesLeft_iff hn]
      exact ⟨fun h => h.2, fun h => ⟨hvalid n, h⟩⟩
    have hle : writesLeft dev (journalRecords dev).length ≤ (journalRecords dev).length := by
      unfold writesLeft
      split <;> omega
    exact le_antisymm ((hreach j hj.le).mp (le_refl j)) ((hreach _ hle).mpr (le_refl _))
  have hblocks : dev'.blocks = applyWrites (stored (doneRecords dev)) dev.blocks := by
    rw [hj.blocks, hcount]
    rfl
  rw [← hblocks]
  rcases hcases with ⟨e, -, hrun⟩ | ⟨-, -, hrun⟩ | ⟨-, -, hrun⟩
  · rw [hrun]
    exact HomeEq.refl _
  · rw [hrun]
    exact HomeEq.refl _
  · rw [hrun]
    unfold journalClear
    rcases writeBlock_cases journalStart Bytes.zero dev' with
      ⟨dev1, h, -, -, hb, -⟩ | ⟨-, h⟩ | ⟨-, -, h⟩
    · intro lba hlba
      rw [h, hb, Function.update_of_ne]
      rintro rfl
      exact hlba inJournal_start
    · rw [h]
      exact HomeEq.refl _
    · rw [h]
      exact HomeEq.refl _

/-- Block `lba` holds a payload that `tx` has for it. -/
def OwnPayload (tx : Tx) (lba : Nat) (b : Bytes) : Prop :=
  ∃ k, k < tx.count ∧ (tx.recs k).targetLba = lba ∧
    Bytes.AgreeOn b (tx.recs k).payload 0 blockSize

/-- Outside the journal, nothing has changed but targets of `tx`, and those to payloads of theirs. -/
def OnlyOwn (tx : Tx) (before after : Nat → Bytes) : Prop :=
  ∀ lba, ¬InJournal lba →
    Bytes.AgreeOn (after lba) (before lba) 0 blockSize ∨ OwnPayload tx lba (after lba)

/-- Recovery changes no home block but targets of `tx`, and those to payloads of theirs. -/
def RecoversOwn (tx : Tx) (dev : Blockdev) : Prop :=
  OnlyOwn tx dev.blocks (journalRecover dev).2.blocks

/-- The writes `ws` leave home blocks with what they hold, or with payloads that `tx` has for
them. -/
def OwnWrites (tx : Tx) (blocks : Nat → Bytes) (ws : List (Nat × Bytes)) : Prop :=
  ∀ w, IsLast ws w → ¬InJournal w.1 →
    Bytes.AgreeOn w.2 (blocks w.1) 0 blockSize ∨ OwnPayload tx w.1 w.2

theorem OwnPayload.congr {tx : Tx} {lba : Nat} {a b : Bytes} (h : OwnPayload tx lba b)
    (hab : Bytes.AgreeOn a b 0 blockSize) : OwnPayload tx lba a := by
  obtain ⟨k, hk, ht, hb⟩ := h
  exact ⟨k, hk, ht, hab.trans hb⟩

/-- What writes do to the home blocks is what the last ones do. -/
theorem onlyOwn_applyWrites_iff {tx : Tx} {ws : List (Nat × Bytes)} {blocks after : Nat → Bytes}
    (hafter : HomeEq after (applyWrites (stored ws) blocks)) :
    OnlyOwn tx blocks after ↔ OwnWrites tx blocks ws := by
  have hlast : ∀ w, IsLast ws w → ¬InJournal w.1 →
      after w.1 = Bytes.clip blockSize w.2 := fun w hw hout => by
    rw [hafter w.1 hout]
    exact applyWrites_isLast (isLast_stored hw) blocks
  constructor
  · intro h w hw hout
    rcases h w.1 hout with hsame | hown
    · rw [hlast w hw hout] at hsame
      exact Or.inl ((Bytes.clip_agreeOn blockSize w.2).symm.trans hsame)
    · rw [hlast w hw hout] at hown
      exact Or.inr (hown.congr (Bytes.clip_agreeOn blockSize w.2).symm)
  · intro h lba hout
    by_cases hw : ∃ w ∈ ws, w.1 = lba
    · obtain ⟨w, hwl, rfl⟩ := exists_isLast hw
      rw [hlast w hwl hout]
      rcases h w hwl hout with hsame | hown
      · exact Or.inl ((Bytes.clip_agreeOn blockSize w.2).trans hsame)
      · exact Or.inr (hown.congr (Bytes.clip_agreeOn blockSize w.2))
    · rw [hafter lba hout, applyWrites_of_not_written]
      · exact Or.inl (Bytes.AgreeOn.refl _ _ _)
      · intro v hv hvl
        obtain ⟨u, hu, huv⟩ := mem_stored hv
        exact hw ⟨u, hu, huv.trans hvl⟩

/-- A commit that stops after its header leaves its transaction committed. -/
theorem committed_of_stop {dev dev1 : Blockdev} {tx : Tx} {seq : Nat}
    (hcount : tx.count ≤ journalMaxRecords) (htargets : TargetsOk dev tx)
    (hrun : journalCommit tx seq true dev = (.ok (), dev1)) :
    Committed dev1 tx ∧ validLba dev1 journalStart ∧ HomeEq dev1.blocks dev.blocks ∧
      dev1.totalBlocks = dev.totalBlocks := by
  rw [journalCommit_eq hcount] at hrun
  obtain ⟨j, hj⟩ := writeAll_outcome (commitWrites tx seq true) dev
  rw [hrun] at hj
  have hall := hj.ok_iff.mp rfl
  have hvalid := ((hj.reach _ (le_refl _)).mp hall.ge).1
  rw [List.take_length] at hvalid
  have hv : validLba dev journalStart := hvalid _ List.mem_cons_self
  have hdata : ∀ i, i < tx.count → validLba dev (dataLba i) :=
    (valid_logWrites_iff hv).mp fun w hw => hvalid w (List.mem_append_left _ hw)
  have hblocks := hj.blocks
  rw [hall, List.take_length] at hblocks
  obtain ⟨hc, hhome⟩ := committed_after_header hcount htargets hdata hblocks hj.total
  exact ⟨hc, (validLba_congr hj.total _).mpr hv, hhome, hj.total⟩

/-- The device switched on again, to fail after `k` writes. -/
def restart (dev : Blockdev) (k : Int) : Blockdev := { dev with failAfter := k }

/-- Recovery that rejects the header keeps to any transaction. -/
theorem recoversOwn_of_not_headerOk (tx : Tx) {dev : Blockdev} (hv : validLba dev journalStart)
    (hh : ¬HeaderOk (dev.blocks journalStart)) : RecoversOwn tx dev := by
  unfold RecoversOwn
  rw [journalRecover_not_headerOk hv hh]
  exact fun lba _ => Or.inl (Bytes.AgreeOn.refl _ _ _)

theorem recoversOwn_iff {tx : Tx} {dev : Blockdev} (hv : validLba dev journalStart)
    (hh : HeaderOk (dev.blocks journalStart))
    (hdata : ∀ k, k < hCount (dev.blocks journalStart) → validLba dev (dataLba k)) :
    RecoversOwn tx dev ↔ OwnWrites tx dev.blocks (doneRecords dev) :=
  onlyOwn_applyWrites_iff (journalRecover_home hv hh hdata)

/-- A committed transaction keeps its header under damage, or loses it. -/
theorem damaged_header {dev : Blockdev} {tx : Tx} (hc : Committed dev tx) (lba : Nat) {off : Nat}
    (hoff : off < blockSize) {v : UInt8}
    (hh : HeaderOk ((damage dev lba off v).blocks journalStart)) :
    (damage dev lba off v).blocks journalStart = dev.blocks journalStart := by
  by_cases hl : lba = journalStart
  · subst hl
    rw [damage_block] at hh ⊢
    by_contra hne
    refine not_headerOk_of_differAt hc.header (differAt_update hoff fun hvo => hne ?_) hh
    rw [hvo, Function.update_eq_self]
  · exact damage_other (Ne.symm hl)

/-- A change that redirects no record does no harm. -/
theorem recoversOwn_of_targetKept {dev : Blockdev} {tx : Tx} {lba off : Nat} {v : UInt8}
    (hc : Committed dev tx) (hv : validLba dev journalStart) (hoff : off < blockSize)
    (hkept : TargetKept dev tx lba off v) (f : Int) :
    RecoversOwn tx (restart (damage dev lba off v) f) := by
  have hcount := hc.count_le
  have hv' : validLba (restart (damage dev lba off v) f) journalStart := hv
  by_cases hh : HeaderOk ((restart (damage dev lba off v) f).blocks journalStart)
  · have hcount' : hCount ((restart (damage dev lba off v) f).blocks journalStart) = tx.count :=
      (congrArg hCount (damaged_header hc lba hoff hh)).trans hc.header.count
    have hdata : ∀ k, k < hCount ((restart (damage dev lba off v) f).blocks journalStart) →
        validLba (restart (damage dev lba off v) f) (dataLba k) := fun k hk => by
      rw [hcount'] at hk
      exact (hc.valid k hk).2
    refine (recoversOwn_iff hv' hh hdata).mpr fun w hw _ => ?_
    obtain ⟨xs, ys, hxs, -⟩ := hw
    have hmem : w ∈ journalRecords (restart (damage dev lba off v) f) := by
      refine mem_doneRecords ?_
      rw [hxs]
      exact List.mem_append_right _ List.mem_cons_self
    unfold journalRecords at hmem
    rw [hcount'] at hmem
    obtain ⟨k, hk, rfl⟩ := goodRecords_own (by omega) (fun k _ hk => (hc.targets k (by omega)).2)
      (fun k _ hk => damaged_records hc hoff hkept (by omega)) w hmem
    exact Or.inr ⟨k, by omega, rfl, Bytes.clip_agreeOn _ _⟩
  · exact recoversOwn_of_not_headerOk tx hv' hh

end Mcsos.Mcsfs1j
