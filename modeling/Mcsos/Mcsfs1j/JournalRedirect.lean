import Mcsos.Mcsfs1j.JournalDamage

set_option autoImplicit false

/-! # A redirected record

A changed low byte of a target sends the payload of its record to another block. `Harmless` is when
that does no harm. It looks at the payload and at the block that the descriptor now names: if that is
one of the journal, the payload stands in for what a later record has there, as its payload or as its
descriptor, and so on from that record.
-/

namespace Mcsos.Mcsfs1j

open WriteLog

variable {dev : Blockdev} {tx : Tx}

/-! ## When a redirected record does no harm -/

/-- The payload `q`, written to block `b` as record `k`, is in its place or does not stay: a later
record that is written goes to the same block, or the block holds `q` already, or the transaction
has `q` for it. -/
def Belongs (tx : Tx) (dev : Blockdev) (k b : Nat) (q : Bytes) : Prop :=
  (∃ j, k < j ∧ j < tx.count ∧ Allows dev (j + 1) ∧ (tx.recs j).targetLba = b) ∨
    Bytes.AgreeOn q (dev.blocks b) 0 blockSize ∨ OwnPayload tx b q

/-- Record `k` does no harm as payload `q` for block `b`: the device stops before it; `b` is a home
block where `q` belongs; `b` is a block of the journal that is not read any more; or it is one of a
later record `j`, which is then refused, or does no harm with `q` as its payload or as its
descriptor. -/
inductive Harmless (tx : Tx) (dev : Blockdev) : Nat → Nat → Bytes → Prop
  | cut {k b : Nat} {q : Bytes} (hcut : ¬Allows dev (k + 1)) : Harmless tx dev k b q
  | home {k b : Nat} {q : Bytes} (hb : ¬InJournal b) (h : Belongs tx dev k b q) :
      Harmless tx dev k b q
  | unread {k b : Nat} {q : Bytes} (hb : InJournal b)
      (h : ∀ j, k < j → j < tx.count → b ≠ descLba j ∧ b ≠ dataLba j) : Harmless tx dev k b q
  | refused {k j b : Nat} {q : Bytes} (hk : k < j) (hj : j < tx.count)
      (hb : b = descLba j ∨ b = dataLba j)
      (h : ¬GoodRecord dev.totalBlocks (Function.update dev.blocks b q) j) : Harmless tx dev k b q
  | payload {k j b : Nat} {q : Bytes} (hk : k < j) (hj : j < tx.count) (hb : b = dataLba j)
      (h : Harmless tx dev j (tx.recs j).targetLba q) : Harmless tx dev k b q
  | desc {k j b : Nat} {q : Bytes} (hk : k < j) (hj : j < tx.count) (hb : b = descLba j)
      (h : Harmless tx dev j (dTargetLba q) (dev.blocks (dataLba j))) : Harmless tx dev k b q

/-! ## The writes that the device takes -/

/-- As many of the writes `ws` as the device takes after `k` others. -/
def allowedFrom (dev : Blockdev) (k : Nat) (ws : List (Nat × Bytes)) : List (Nat × Bytes) :=
  if dev.failAfter < 0 then ws else ws.take (dev.failAfter.toNat - k)

theorem allowedFrom_nil (dev : Blockdev) (k : Nat) : allowedFrom dev k [] = [] := by
  unfold allowedFrom
  split
  · rfl
  · exact List.take_nil

theorem allowedFrom_cons {k : Nat} (h : Allows dev (k + 1)) (w : Nat × Bytes)
    (ws : List (Nat × Bytes)) :
    allowedFrom dev k (w :: ws) = w :: allowedFrom dev (k + 1) ws := by
  unfold allowedFrom
  unfold Allows at h
  split
  · rfl
  · rw [show dev.failAfter.toNat - k = dev.failAfter.toNat - (k + 1) + 1 by omega,
      List.take_succ_cons]

theorem allowedFrom_cut {k : Nat} (h : ¬Allows dev (k + 1)) (ws : List (Nat × Bytes)) :
    allowedFrom dev k ws = [] := by
  unfold allowedFrom
  unfold Allows at h
  rw [if_neg (by omega), show dev.failAfter.toNat - k = 0 by omega, List.take_zero]

theorem doneRecords_eq (dev : Blockdev) :
    doneRecords dev = allowedFrom dev 0 (journalRecords dev) := by
  unfold doneRecords writesLeft allowedFrom
  split
  · exact List.take_length
  · rw [Nat.sub_zero, Nat.min_comm, ← List.take_take, List.take_length]

/-! ## Records of the transaction -/

theorem ownWrites_nil (tx : Tx) (blocks : Nat → Bytes) : OwnWrites tx blocks [] := by
  rintro w ⟨xs, ys, hws, -⟩
  exact absurd hws.symm (by simp)

/-- Only the last write to a block matters. -/
theorem ownWrites_cons {blocks : Nat → Bytes} {w : Nat × Bytes} {ws : List (Nat × Bytes)} :
    OwnWrites tx blocks (w :: ws) ↔ OwnWrites tx blocks ws ∧
      (¬InJournal w.1 → (∃ v ∈ ws, v.1 = w.1) ∨
        Bytes.AgreeOn w.2 (blocks w.1) 0 blockSize ∨ OwnPayload tx w.1 w.2) := by
  constructor
  · intro h
    refine ⟨fun u hu => h u (hu.cons w), fun hout => ?_⟩
    by_cases hlater : ∃ v ∈ ws, v.1 = w.1
    · exact Or.inl hlater
    · exact Or.inr (h w ⟨[], ws, rfl, fun v hv he => hlater ⟨v, hv, he⟩⟩ hout)
  · rintro ⟨hws, hw⟩ u hu hout
    rcases isLast_cons hu with hu | ⟨rfl, hlast⟩
    · exact hws u hu hout
    · refine (hw hout).resolve_left ?_
      rintro ⟨v, hv, he⟩
      exact hlast v hv he

/-- The records of the transaction itself are where they belong. -/
theorem ownWrites_append_home {i m : Nat} (h : i + m ≤ tx.count) (rest : List (Nat × Bytes)) :
    OwnWrites tx dev.blocks (allowedFrom dev i (stored (homeWrites tx i m) ++ rest)) ↔
      OwnWrites tx dev.blocks (allowedFrom dev (i + m) rest) := by
  induction m generalizing i with
  | zero => exact Iff.rfl
  | succ m ih =>
      by_cases ha : Allows dev (i + 1)
      · have hown : OwnPayload tx (tx.recs i).targetLba (Bytes.clip blockSize (tx.recs i).payload) :=
          ⟨i, by omega, rfl, Bytes.clip_agreeOn _ _⟩
        have hnext := ih (i := i + 1) (by omega)
        rw [show i + 1 + m = i + (m + 1) by omega] at hnext
        rw [homeWrites_succ, stored, List.map_cons, List.cons_append, allowedFrom_cons ha,
          ownWrites_cons, ← hnext]
        exact and_iff_left fun _ => Or.inr (Or.inr hown)
      · -- the device has stopped by then
        have hlater : ¬Allows dev (i + (m + 1) + 1) := fun h' => ha (h'.mono (by omega))
        rw [allowedFrom_cut ha, allowedFrom_cut hlater]

/-- The blocks that the records of the transaction go to, as far as the device takes them. -/
theorem mem_allowedFrom_home {i m b : Nat} :
    (∃ v ∈ allowedFrom dev i (stored (homeWrites tx i m)), v.1 = b) ↔
      ∃ j, i ≤ j ∧ j < i + m ∧ Allows dev (j + 1) ∧ (tx.recs j).targetLba = b := by
  induction m generalizing i with
  | zero =>
      have hnil : allowedFrom dev i (stored (homeWrites tx i 0)) = [] := allowedFrom_nil dev i
      rw [hnil]
      constructor
      · rintro ⟨v, hv, -⟩
        cases hv
      · rintro ⟨j, hij, hj, -⟩
        omega
  | succ m ih =>
      by_cases ha : Allows dev (i + 1)
      · rw [homeWrites_succ, stored, List.map_cons, allowedFrom_cons ha]
        have hnext := ih (i := i + 1)
        rw [stored] at hnext
        simp only [List.mem_cons, exists_eq_or_imp, hnext]
        constructor
        · rintro (hb | ⟨j, hij, hj, h⟩)
          · exact ⟨i, le_refl i, by omega, ha, hb⟩
          · exact ⟨j, by omega, by omega, h⟩
        · rintro ⟨j, hij, hj, h⟩
          rcases Nat.eq_or_lt_of_le hij with rfl | hij
          · exact Or.inl h.2
          · exact Or.inr ⟨j, hij, by omega, h⟩
      · rw [allowedFrom_cut ha]
        constructor
        · rintro ⟨v, hv, -⟩
          cases hv
        · rintro ⟨j, hij, -, hj, -⟩
          exact absurd (hj.mono (by omega)) ha

/-- Two stores have the same journal. -/
def SameJournal (a b : Nat → Bytes) : Prop := ∀ lba, InJournal lba → a lba = b lba

theorem SameJournal.record {a b : Nat → Bytes} (h : SameJournal a b) {k : Nat}
    (hk : k < journalMaxRecords) : SameRecord a b k :=
  ⟨h _ (inJournal_desc hk), h _ (inJournal_data hk)⟩

/-- Replay gets through the records of the transaction, and the journal stays as it is. -/
theorem goodRecords_append_home {total : Nat} {blocks : Nat → Bytes} {i m : Nat} (n : Nat)
    (hm : i + m ≤ journalMaxRecords)
    (hout : ∀ k, i ≤ k → k < i + m → ¬InJournal (tx.recs k).targetLba)
    (h : ∀ k, i ≤ k → k < i + m → RecordAs total blocks tx k) :
    ∃ blocks', SameJournal blocks' blocks ∧ goodRecords total blocks i (m + n) =
      stored (homeWrites tx i m) ++ goodRecords total blocks' (i + m) n := by
  induction m generalizing i blocks with
  | zero =>
      refine ⟨blocks, fun _ _ => rfl, ?_⟩
      rw [Nat.zero_add]
      rfl
  | succ m ih =>
      obtain ⟨hgood, hrec⟩ := h i (le_refl i) (by omega)
      have hin := hout i (le_refl i) (by omega)
      have hsame : SameJournal (applyWrites (stored [recordAt blocks i]) blocks) blocks := by
        intro lba hlba
        rw [hrec]
        refine Function.update_of_ne (fun he => hin ?_) _ _
        exact (show lba = (tx.recs i).targetLba from he) ▸ hlba
      have hlater : ∀ k, i + 1 ≤ k → k < i + 1 + m →
          RecordAs total (applyWrites (stored [recordAt blocks i]) blocks) tx k :=
        fun k hik hk => (recordAs_congr (hsame.record (by omega))).mpr (h k (by omega) (by omega))
      obtain ⟨blocks', hsame', hrest⟩ :=
        ih (by omega) (fun k hik hk => hout k (by omega) (by omega)) hlater
      refine ⟨blocks', fun lba hlba => (hsame' lba hlba).trans (hsame lba hlba), ?_⟩
      rw [show m + 1 + n = m + n + 1 by omega, goodRecords, if_pos hgood, hrest, hrec,
        homeWrites_succ, show i + 1 + m = i + (m + 1) by omega]
      rfl

/-! ## The replay from a redirected record on -/

theorem descLba_inj {i k : Nat} (h : descLba i = descLba k) : i = k := by
  unfold descLba at h
  omega

theorem dataLba_inj {i k : Nat} (h : dataLba i = dataLba k) : i = k := descLba_inj (Nat.succ.inj h)

/-- A write to a block of one record does not hit another one. -/
theorem sameRecord_update_other (blocks : Nat → Bytes) {i j b : Nat} (q : Bytes) (hij : i ≠ j)
    (hb : b = descLba j ∨ b = dataLba j) : SameRecord (Function.update blocks b q) blocks i := by
  constructor
  · refine Function.update_of_ne ?_ _ _
    rcases hb with rfl | rfl
    · exact fun he => hij (descLba_inj he)
    · exact descLba_ne_dataLba _ _
  · refine Function.update_of_ne ?_ _ _
    rcases hb with rfl | rfl
    · exact (descLba_ne_dataLba _ _).symm
    · exact fun he => hij (dataLba_inj he)

/-- The same write over the same record. -/
theorem sameRecord_update {blocks : Nat → Bytes} {j b : Nat} {q : Bytes}
    (h : SameRecord blocks dev.blocks j) :
    SameRecord (Function.update blocks b q) (Function.update dev.blocks b q) j := by
  constructor
  · rw [Function.update_apply, Function.update_apply, h.1]
  · rw [Function.update_apply, Function.update_apply, h.2]

section

variable {blocks : Nat → Bytes} {k b n : Nat} {q : Bytes}

/-- Where no later record is hit, the block itself decides. -/
theorem ownWrites_apart_iff (hn : k + (n + 1) = tx.count) (hcount : tx.count ≤ journalMaxRecords)
    (hout : ∀ j, j < tx.count → ¬InJournal (tx.recs j).targetLba)
    (hown : ∀ j, k < j → j < tx.count → RecordAs dev.totalBlocks blocks tx j)
    (ha : Allows dev (k + 1)) (hb : ∀ j, k < j → j < tx.count → b ≠ descLba j ∧ b ≠ dataLba j) :
    OwnWrites tx dev.blocks (allowedFrom dev k ((b, q) ::
        goodRecords dev.totalBlocks (Function.update blocks b q) (k + 1) n)) ↔
      (¬InJournal b → Belongs tx dev k b q) := by
  have hafter : ∀ j, k + 1 ≤ j → j < k + 1 + n →
      RecordAs dev.totalBlocks (Function.update blocks b q) tx j := fun j hkj hj => by
    obtain ⟨hd, hp⟩ := hb j hkj (by omega)
    have hsame : SameRecord (Function.update blocks b q) blocks j :=
      ⟨Function.update_of_ne (Ne.symm hd) _ _, Function.update_of_ne (Ne.symm hp) _ _⟩
    exact (recordAs_congr hsame).mpr (hown j hkj (by omega))
  obtain ⟨blocks', -, happend⟩ := goodRecords_append_home 0 (by omega)
    (fun j _ hj => hout j (by omega)) hafter
  have hrest : goodRecords dev.totalBlocks (Function.update blocks b q) (k + 1) n =
      stored (homeWrites tx (k + 1) n) := happend.trans (List.append_nil _)
  have hall : OwnWrites tx dev.blocks
      (allowedFrom dev (k + 1) (stored (homeWrites tx (k + 1) n) ++ [])) ↔ _ :=
    ownWrites_append_home (by omega) []
  rw [List.append_nil, allowedFrom_nil] at hall
  rw [hrest, allowedFrom_cons ha, ownWrites_cons, and_iff_right (hall.mpr (ownWrites_nil _ _)),
    mem_allowedFrom_home, show k + 1 + n = tx.count by omega]
  rfl

/-- Where a later record is hit, that record decides. -/
theorem ownWrites_hit_iff {j m : Nat} (hj : k + 1 + m = j) (hn : j + (n + 1) = tx.count)
    (hcount : tx.count ≤ journalMaxRecords)
    (hout : ∀ i, i < tx.count → ¬InJournal (tx.recs i).targetLba)
    (hown : ∀ i, k < i → i < tx.count → RecordAs dev.totalBlocks blocks tx i)
    (ha : Allows dev (k + 1)) (hb : b = descLba j ∨ b = dataLba j) :
    ∃ blocks', SameJournal blocks' (Function.update blocks b q) ∧
      (OwnWrites tx dev.blocks (allowedFrom dev k ((b, q) ::
        goodRecords dev.totalBlocks (Function.update blocks b q) (k + 1) (m + (n + 1)))) ↔
      OwnWrites tx dev.blocks (allowedFrom dev j
        (goodRecords dev.totalBlocks blocks' j (n + 1)))) := by
  subst hj
  have hbefore : ∀ i, k + 1 ≤ i → i < k + 1 + m →
      RecordAs dev.totalBlocks (Function.update blocks b q) tx i := fun i hki hi =>
    (recordAs_congr (sameRecord_update_other blocks q (by omega) hb)).mpr (hown i hki (by omega))
  obtain ⟨blocks', hsame, hrest⟩ := goodRecords_append_home (n + 1) (by omega)
    (fun i _ hi => hout i (by omega)) hbefore
  refine ⟨blocks', hsame, ?_⟩
  have hin : InJournal b := by
    rcases hb with rfl | rfl
    · exact inJournal_desc (by omega)
    · exact inJournal_data (by omega)
  rw [hrest, allowedFrom_cons ha, ownWrites_cons, ownWrites_append_home (by omega)]
  exact and_iff_left fun hnot => absurd hin hnot

end

/-! ## `Harmless` where a later record is hit -/

section

variable {k j b : Nat} {q : Bytes} (hkj : k < j) (hj : j < tx.count)
  (hcount : tx.count ≤ journalMaxRecords) (ha : Allows dev (k + 1))

include hkj hj hcount ha

theorem harmless_hit_iff (hb : b = descLba j ∨ b = dataLba j)
    (hgood : GoodRecord dev.totalBlocks (Function.update dev.blocks b q) j) :
    Harmless tx dev k b q ↔ (b = dataLba j ∧ Harmless tx dev j (tx.recs j).targetLba q) ∨
      b = descLba j ∧ Harmless tx dev j (dTargetLba q) (dev.blocks (dataLba j)) := by
  -- no other record has that block
  have honly : ∀ i, b = descLba i ∨ b = dataLba i → i = j := fun i hi => by
    rcases hb with rfl | rfl
    · exact hi.elim (fun he => (descLba_inj he).symm) fun he => absurd he (descLba_ne_dataLba _ _)
    · exact hi.elim (fun he => absurd he.symm (descLba_ne_dataLba _ _)) fun he =>
        (dataLba_inj he).symm
  constructor
  · intro h
    cases h with
    | cut hcut => exact absurd ha hcut
    | home hout =>
        refine absurd ?_ hout
        rcases hb with rfl | rfl
        · exact inJournal_desc (lt_of_lt_of_le hj hcount)
        · exact inJournal_data (lt_of_lt_of_le hj hcount)
    | unread _ h =>
        obtain ⟨hd, hp⟩ := h j hkj hj
        exact absurd hb (not_or.mpr ⟨hd, hp⟩)
    | refused _ _ hbi h =>
        obtain rfl := honly _ hbi
        exact absurd hgood h
    | payload _ _ hbi h =>
        obtain rfl := honly _ (Or.inr hbi)
        exact Or.inl ⟨hbi, h⟩
    | desc _ _ hbi h =>
        obtain rfl := honly _ (Or.inl hbi)
        exact Or.inr ⟨hbi, h⟩
  · rintro (⟨hb, h⟩ | ⟨hb, h⟩)
    · exact .payload hkj hj hb h
    · exact .desc hkj hj hb h

end

/-- The writes from record `k` on, with payload `q` for block `b`: `Harmless` says when they keep to
the transaction. -/
theorem ownWrites_redirected_iff {blocks : Nat → Bytes} {k b n : Nat} {q : Bytes}
    (hn : k + (n + 1) = tx.count) (hcount : tx.count ≤ journalMaxRecords)
    (hout : ∀ j, j < tx.count → ¬InJournal (tx.recs j).targetLba)
    (hsame : ∀ j, k < j → j < tx.count → SameRecord blocks dev.blocks j)
    (hown : ∀ j, k < j → j < tx.count → RecordAs dev.totalBlocks dev.blocks tx j)
    (hgood : GoodRecord dev.totalBlocks blocks k) (hrec : recordAt blocks k = (b, q))
    (hclip : Bytes.clip blockSize q = q) :
    OwnWrites tx dev.blocks (allowedFrom dev k (goodRecords dev.totalBlocks blocks k (n + 1))) ↔
      Harmless tx dev k b q := by
  -- a record that is hit comes later, so the number of records left goes down
  induction n using Nat.strong_induction_on generalizing blocks k b q with
  | _ n ih =>
  by_cases ha : Allows dev (k + 1)
  · have hown' : ∀ j, k < j → j < tx.count → RecordAs dev.totalBlocks blocks tx j := fun j hkj hj =>
      (recordAs_congr (hsame j hkj hj)).mpr (hown j hkj hj)
    have hwrite : applyWrites (stored [recordAt blocks k]) blocks = Function.update blocks b q := by
      rw [hrec]
      exact congrArg (Function.update blocks b) hclip
    rw [goodRecords, if_pos hgood, hwrite, hrec]
    by_cases hhit : ∃ j, k < j ∧ j < tx.count ∧ (b = descLba j ∨ b = dataLba j)
    · -- the records up to the one that is hit are those of the transaction
      obtain ⟨j, hkj, hj, hb⟩ := hhit
      obtain ⟨m, hm⟩ : ∃ m, k + 1 + m = j := ⟨j - (k + 1), by omega⟩
      obtain ⟨n', hn'⟩ : ∃ n', j + (n' + 1) = tx.count := ⟨tx.count - j - 1, by omega⟩
      obtain ⟨blocks', hsame', hiff⟩ := ownWrites_hit_iff (q := q) hm hn' hcount hout hown' ha hb
      rw [show n = m + (n' + 1) by omega, hiff]
      have hrecord : SameRecord blocks' (Function.update dev.blocks b q) j := by
        obtain ⟨hd, hp⟩ := hsame'.record (lt_of_lt_of_le hj hcount)
        obtain ⟨hd', hp'⟩ := sameRecord_update (b := b) (q := q) (hsame j hkj hj)
        exact ⟨hd.trans hd', hp.trans hp'⟩
      by_cases hg : GoodRecord dev.totalBlocks (Function.update dev.blocks b q) j
      · have hg' := (goodRecord_congr hrecord).mpr hg
        have hlater : ∀ i, j < i → i < tx.count → SameRecord blocks' dev.blocks i := fun i hji hi =>
          (hsame'.record (lt_of_lt_of_le hi hcount)).trans
            ((sameRecord_update_other blocks q (by omega) hb).trans (hsame i (by omega) hi))
        have hown'' : ∀ i, j < i → i < tx.count → RecordAs dev.totalBlocks dev.blocks tx i :=
          fun i hji => hown i (by omega)
        obtain ⟨-, hrecj⟩ := hown j hkj hj
        obtain ⟨htarget, hdata⟩ := Prod.ext_iff.mp hrecj
        rw [harmless_hit_iff hkj hj hcount ha hb hg]
        rcases hb with rfl | rfl
        · -- `q` is the descriptor of record `j`
          have hrec' : recordAt blocks' j = (dTargetLba q, dev.blocks (dataLba j)) := by
            unfold recordAt
            rw [hrecord.1, hrecord.2, Function.update_self,
              Function.update_of_ne (descLba_ne_dataLba j j).symm]
          have hclip' : Bytes.clip blockSize (dev.blocks (dataLba j)) = dev.blocks (dataLba j) := by
            rw [show dev.blocks (dataLba j) = _ from hdata, Bytes.clip_clip]
          rw [ih n' (by omega) hn' hlater hown'' hg' hrec' hclip']
          refine ⟨fun h => Or.inr ⟨rfl, h⟩, ?_⟩
          rintro (⟨he, -⟩ | ⟨-, h⟩)
          · exact absurd he (descLba_ne_dataLba j j)
          · exact h
        · -- `q` is its payload
          have hrec' : recordAt blocks' j = ((tx.recs j).targetLba, q) := by
            unfold recordAt
            rw [hrecord.1, hrecord.2, Function.update_self,
              Function.update_of_ne (descLba_ne_dataLba j j)]
            exact Prod.ext htarget rfl
          rw [ih n' (by omega) hn' hlater hown'' hg' hrec' hclip]
          refine ⟨fun h => Or.inl ⟨rfl, h⟩, ?_⟩
          rintro (⟨-, h⟩ | ⟨he, -⟩)
          · exact h
          · exact absurd he.symm (descLba_ne_dataLba j j)
      · rw [goodRecords, if_neg fun hg' => hg ((goodRecord_congr hrecord).mp hg'), allowedFrom_nil]
        exact iff_of_true (ownWrites_nil _ _) (.refused hkj hj hb hg)
    · have hapart : ∀ j, k < j → j < tx.count → b ≠ descLba j ∧ b ≠ dataLba j := fun j hkj hj =>
        ⟨fun he => hhit ⟨j, hkj, hj, Or.inl he⟩, fun he => hhit ⟨j, hkj, hj, Or.inr he⟩⟩
      rw [ownWrites_apart_iff hn hcount hout hown' ha hapart]
      constructor
      · intro h
        by_cases hb : InJournal b
        · exact .unread hb hapart
        · exact .home hb (h hb)
      · intro h hb
        cases h with
        | cut hcut => exact absurd ha hcut
        | home _ h => exact h
        | unread hin => exact absurd hin hb
        | refused hkj hj hbj => exact absurd ⟨_, hkj, hj, hbj⟩ hhit
        | payload hkj hj hbj => exact absurd ⟨_, hkj, hj, Or.inr hbj⟩ hhit
        | desc hkj hj hbj => exact absurd ⟨_, hkj, hj, Or.inl hbj⟩ hhit
  · rw [allowedFrom_cut ha]
    exact iff_of_true (ownWrites_nil _ _) (.cut ha)

/-! ## Recovery from a journal with a redirected record -/

section

variable {k : Nat} {v : UInt8} (hc : Committed dev tx) (hk : k < tx.count)

include hc hk

/-- A redirected record is good, if the block exists. -/
theorem goodRecord_redirected (hv : validLba dev v.toNat) :
    GoodRecord dev.totalBlocks (damage dev (descLba k) 8 v).blocks k ∧
      recordAt (damage dev (descLba k) 8 v).blocks k = (v.toNat, dev.blocks (dataLba k)) := by
  obtain ⟨hmagic, -, hsum⟩ := (recordAs_of_committed hc hk).1
  have htarget := dTargetLba_damage (v := v) hc hk
  have hdata : (damage dev (descLba k) 8 v).blocks (dataLba k) = dev.blocks (dataLba k) :=
    damage_other (descLba_ne_dataLba k k).symm
  refine ⟨⟨?_, ?_, ?_⟩, Prod.ext htarget hdata⟩
  · rw [damage_block]
    exact (load_update_off (by omega)).trans hmagic
  · rw [htarget]
    exact hv
  · rw [hdata, hsum, damage_block]
    exact (load_update_off (by omega)).symm

/-- With record `k` redirected, recovery keeps to the transaction exactly if that is harmless. -/
theorem recoversOwn_redirected_iff (hstart : validLba dev journalStart)
    (hv : validLba dev v.toNat) (f : Int) :
    RecoversOwn tx (restart (damage dev (descLba k) 8 v) f) ↔
      Harmless tx (restart (damage dev (descLba k) 8 v) f) k v.toNat (dev.blocks (dataLba k)) := by
  set dev' := restart (damage dev (descLba k) 8 v) f with hdev'
  have hcount := hc.count_le
  have hheader : dev'.blocks journalStart = dev.blocks journalStart := by
    refine damage_other ?_
    unfold journalStart descLba journalStart
    omega
  have hhcount : hCount (dev'.blocks journalStart) = tx.count := by
    rw [hheader]
    exact hc.header.count
  have hh : HeaderOk (dev'.blocks journalStart) := by
    rw [HeaderOk, hhcount, hheader]
    exact ⟨hc.header, hcount⟩
  have hdata : ∀ i, i < hCount (dev'.blocks journalStart) → validLba dev' (dataLba i) :=
    fun i hi => (hc.valid i (hhcount ▸ hi)).2
  -- the other records are as the commit has left them
  have hother : ∀ i, i ≠ k → i < tx.count → RecordAs dev'.totalBlocks dev'.blocks tx i :=
    fun i hik hi => (recordAs_congr (sameRecord_update_other dev.blocks _ hik (Or.inl rfl))).mpr
      (recordAs_of_committed hc hi)
  have hout : ∀ i, i < tx.count → ¬InJournal (tx.recs i).targetLba :=
    fun i hi => (hc.targets i hi).2
  obtain ⟨n, hn⟩ : ∃ n, k + (n + 1) = tx.count := ⟨tx.count - k - 1, by omega⟩
  have hbefore : ∀ i, 0 ≤ i → i < 0 + k → RecordAs dev'.totalBlocks dev'.blocks tx i :=
    fun i _ hi => hother i (by omega) (by omega)
  obtain ⟨blocks', hsame, hrest⟩ := goodRecords_append_home (n + 1) (by omega)
    (fun i _ hi => hout i (by omega)) hbefore
  rw [Nat.zero_add] at hrest
  obtain ⟨hgood, hrec⟩ := goodRecord_redirected hc hk hv
  have hrecord := hsame.record (lt_of_lt_of_le hk hcount)
  have hrec' : recordAt blocks' k = (v.toNat, dev.blocks (dataLba k)) := by
    unfold recordAt
    rw [hrecord.1, hrecord.2]
    exact hrec
  have hstart' : validLba dev' journalStart := hstart
  rw [recoversOwn_iff hstart' hh hdata, doneRecords_eq, journalRecords, hhcount, ← hn, hrest,
    ownWrites_append_home (by omega), Nat.zero_add]
  refine ownWrites_redirected_iff hn hcount hout
    (fun i hki hi => hsame.record (lt_of_lt_of_le hi hcount))
    (fun i hki hi => hother i (by omega) hi) ((goodRecord_congr hrecord).mpr hgood) hrec' ?_
  rw [hc.data k hk, Bytes.clip_clip]

end

/-- Recovery from a committed journal with one byte changed keeps to the blocks and payloads of
the transaction: exactly if the change redirects no record, or one that does no harm with its
payload in the block that it now names. -/
theorem journalRecover_damaged_iff {dev dev1 : Blockdev} {tx : Tx} {seq : Nat}
    (hcount : tx.count ≤ journalMaxRecords) (htargets : TargetsOk dev tx)
    (hrun : journalCommit tx seq true dev = (.ok (), dev1)) (lba : Nat) {off : Nat}
    (hoff : off < blockSize) (v : UInt8) (f : Int) :
    RecoversOwn tx (restart (damage dev1 lba off v) f) ↔
      TargetKept dev1 tx lba off v ∨
        ∃ k, k < tx.count ∧ lba = descLba k ∧ off = 8 ∧
          Harmless tx (restart (damage dev1 lba off v) f) k v.toNat
            (dev1.blocks (dataLba k)) := by
  obtain ⟨hc, hv, -⟩ := committed_of_stop hcount htargets hrun
  by_cases hkept : TargetKept dev1 tx lba off v
  · exact iff_of_true (recoversOwn_of_targetKept hc hv hoff hkept f) (Or.inl hkept)
  · -- the low byte of a target in use names another block that exists
    have hsent := hkept
    unfold TargetKept at hsent
    push Not at hsent
    obtain ⟨k, hk, rfl, rfl, -, hvalid⟩ := hsent
    rw [recoversOwn_redirected_iff hc hk hv hvalid f]
    constructor
    · intro h
      exact Or.inr ⟨k, hk, rfl, rfl, h⟩
    · rintro (h | ⟨i, hi, he, -, h⟩)
      · exact absurd h hkept
      · obtain rfl := descLba_inj he
        exact h

/-- One payload for block 30. -/
def oneRecord : Tx := ⟨1, fun _ => ⟨30, Bytes.zero.fill 0 1 7⟩⟩

/-- The device with `oneRecord` committed. -/
def oneCommitted : Blockdev := (journalCommit oneRecord 2 true devInit).2

theorem oneRecord_targets : TargetsOk devInit oneRecord :=
  fun _ _ => ⟨(by decide : validLba devInit 30), (by decide : ¬InJournal 30)⟩

theorem oneRecord_commit : journalCommit oneRecord 2 true devInit = (.ok (), oneCommitted) := by
  refine Prod.ext ?_ rfl
  have hcount : oneRecord.count ≤ journalMaxRecords := by decide
  rw [journalCommit_eq hcount]
  obtain ⟨j, hj⟩ := writeAll_outcome (commitWrites oneRecord 2 true) devInit
  refine hj.ok (commitWrites_valid (by decide) (fun i hi => ?_) oneRecord_targets 2 true)
    (Or.inl (by decide))
  obtain rfl : i = 0 := Nat.lt_one_iff.mp hi
  decide

/-- The device with the target of that record changed to block 31. -/
def redirected : Blockdev :=
  restart (damage oneCommitted (descLba 0) 8 31) (-1)

/-- A changed target takes the payload to a block that the transaction does not name. -/
theorem journalRecover_redirects :
    ¬∀ (dev dev1 : Blockdev) (tx : Tx) (seq lba off : Nat) (v : UInt8) (f : Int),
      tx.count ≤ journalMaxRecords → TargetsOk dev tx →
      journalCommit tx seq true dev = (.ok (), dev1) → InJournal lba → off < blockSize →
      RecoversOwn tx (restart (damage dev1 lba off v) f) := by
  intro h
  obtain ⟨hc, hv, hhome, htotal⟩ :=
    committed_of_stop (by decide) oneRecord_targets oneRecord_commit
  have hown : RecoversOwn oneRecord redirected := h devInit oneCommitted oneRecord 2 (descLba 0)
    8 31 (-1) (by decide) oneRecord_targets oneRecord_commit (by decide) (by decide)
  have hvalid : validLba oneCommitted 31 := (validLba_congr htotal 31).mpr (by decide)
  have hdata := hc.data 0 Nat.zero_lt_one
  have hharmless := (recoversOwn_redirected_iff (v := 31) hc Nat.zero_lt_one hv hvalid (-1)).mp hown
  rw [hdata] at hharmless
  cases hharmless with
  | cut hcut => exact hcut (Or.inl (by decide))
  | home _ hbelongs =>
      rcases hbelongs with ⟨j, hj, hj', -⟩ | hsame | ⟨i, -, htarget, -⟩
      · exact absurd hj' (not_lt.mpr hj)
      · have hzero : redirected.blocks 31 = Bytes.zero := hhome 31 (by decide)
        have hbyte : Bytes.clip blockSize (oneRecord.recs 0).payload 0 = redirected.blocks 31 0 :=
          hsame 0 (le_refl 0) (by decide)
        rw [hzero] at hbyte
        exact absurd hbyte (by decide)
      · exact absurd htarget (by decide : (30 : Nat) ≠ 31)
  | unread hin => exact absurd hin (by decide)
  | refused hj hj' => exact absurd hj' (not_lt.mpr hj)
  | payload hj hj' => exact absurd hj' (not_lt.mpr hj)
  | desc hj hj' => exact absurd hj' (not_lt.mpr hj)

/-- A changed payload goes nowhere, and a record that is sent to an unused block of the journal does
no harm. -/
theorem journalRecover_damaged_payload :
    RecoversOwn oneRecord (restart (damage oneCommitted (dataLba 0) 3 9) (-1)) ∧
      RecoversOwn oneRecord (restart (damage oneCommitted (descLba 0) 8 17) (-1)) := by
  constructor
  · refine (journalRecover_damaged_iff (by decide) oneRecord_targets oneRecord_commit (dataLba 0)
      (by decide) 9 (-1)).mpr (Or.inl fun k _ he _ => ?_)
    exact absurd he.symm (descLba_ne_dataLba k 0)
  · refine (journalRecover_damaged_iff (by decide) oneRecord_targets oneRecord_commit (descLba 0)
      (by decide) 17 (-1)).mpr (Or.inr ⟨0, Nat.zero_lt_one, rfl, rfl, .unread (by decide) ?_⟩)
    exact fun j hj hj' => absurd hj' (not_lt.mpr hj)

end Mcsos.Mcsfs1j
