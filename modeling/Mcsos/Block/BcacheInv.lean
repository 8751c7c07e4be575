import Mcsos.Block.Bcache
import Mcsos.Lib.Overlay

set_option autoImplicit false

/-! # The block cache as a write-back cache

The valid entries are the lines of a write-back cache over the disks: the key of a line is
`(dev, lba)`, its value the block in the data pool. Every operation of the cache keeps lines
and disks together on the same content, failed driver calls included.
-/

namespace Mcsos.Block

open Loop Overlay

variable {D : Type} {hw : Hardware D} {s s' : BcacheState D}
variable {content : D × Nat → List UInt8}

/-- The valid entries. -/
def lines (s : BcacheState D) : Nat → Option (Line (D × Nat) (List UInt8)) := fun i =>
  if i < s.entryCount ∧ (s.entries i).valid = true then
    (s.entries i).dev.map (fun d => ⟨(d, (s.entries i).lba),
      s.pool.slice (s.entries i).data s.blockSize, (s.entries i).dirty⟩)
  else none

/-- The blocks on the disks. -/
def back (s : BcacheState D) : D × Nat → List UInt8 := fun k =>
  (s.disk k.1 k.2).slice 0 s.blockSize

/-- The entries have a block of the pool each; a valid entry has a device of the block size
of the cache. -/
structure CacheWf (hw : Hardware D) (s : BcacheState D) : Prop where
  count_pos : 0 < s.entryCount
  data_eq : ∀ i, i < s.entryCount → (s.entries i).data = i * s.blockSize
  dev_ok : ∀ i, i < s.entryCount → (s.entries i).valid = true →
    ∃ d, (s.entries i).dev = some d ∧ hw.blockSize d = s.blockSize

/-- Cache and disks hold `content`. -/
structure CacheInv (hw : Hardware D) (s : BcacheState D) (content : D × Nat → List UInt8) :
    Prop where
  wf : CacheWf hw s
  overlays : Overlays (lines s) (back s) content

/-! ## Entries and lines -/

theorem slot_disjoint {i j b : Nat} (h : j ≠ i) : j * b + b ≤ i * b ∨ i * b + b ≤ j * b := by
  rcases Nat.lt_or_gt_of_ne h with hlt | hgt
  · left
    calc j * b + b = (j + 1) * b := by ring
      _ ≤ i * b := Nat.mul_le_mul_right b hlt
  · right
    calc i * b + b = (i + 1) * b := by ring
      _ ≤ j * b := Nat.mul_le_mul_right b hgt

theorem lines_of_valid {i : Nat} {e : BcacheEntry D} {d : D} (hi : i < s.entryCount)
    (he : s.entries i = e) (hv : e.valid = true) (hd : e.dev = some d) :
    lines s i = some ⟨(d, e.lba), s.pool.slice e.data s.blockSize, e.dirty⟩ := by
  subst he
  unfold lines
  rw [if_pos ⟨hi, hv⟩, hd]
  rfl

theorem lines_of_invalid {i : Nat} (hv : (s.entries i).valid = false) : lines s i = none := by
  unfold lines
  rw [if_neg (by simp [hv])]

theorem lines_some {i : Nat} {a : Line (D × Nat) (List UInt8)} (h : lines s i = some a) :
    i < s.entryCount ∧ (s.entries i).valid = true ∧ (s.entries i).dev = some a.key.1 ∧
      (s.entries i).lba = a.key.2 ∧ (s.entries i).dirty = a.dirty ∧
      s.pool.slice (s.entries i).data s.blockSize = a.val := by
  unfold lines at h
  split_ifs at h with hv
  obtain ⟨d, hd, rfl⟩ := Option.map_eq_some_iff.mp h
  exact ⟨hv.1, hv.2, hd, rfl, rfl, rfl⟩

/-- A step that works on entry `i` and its block of the pool changes line `i` only. -/
theorem lines_update (hwf : CacheWf hw s) {i : Nat} (hn : s'.entryCount = s.entryCount)
    (hb : s'.blockSize = s.blockSize) (hent : ∀ j, j ≠ i → s'.entries j = s.entries j)
    (hpool : ∀ k, k < i * s.blockSize ∨ i * s.blockSize + s.blockSize ≤ k →
      s'.pool k = s.pool k) :
    lines s' = Function.update (lines s) i (lines s' i) := by
  funext j
  by_cases hj : j = i
  · rw [hj, Function.update_self]
  · rw [Function.update_of_ne hj]
    unfold lines
    rw [hn, hb, hent j hj]
    by_cases hv : j < s.entryCount ∧ (s.entries j).valid = true
    · rw [if_pos hv, if_pos hv]
      have hslice : s'.pool.slice (s.entries j).data s.blockSize =
          s.pool.slice (s.entries j).data s.blockSize := by
        rw [Bytes.slice_eq_iff, hwf.data_eq j hv.1]
        intro k hk
        have hapart := slot_disjoint (b := s.blockSize) hj
        exact hpool _ (by omega)
      rw [hslice]
    · rw [if_neg hv, if_neg hv]

theorem CacheWf.setEntry (hwf : CacheWf hw s) {i : Nat} {e : BcacheEntry D}
    {disk : D → Nat → Bytes} {pool : Bytes} {calls : Nat} (hdata : e.data = i * s.blockSize)
    (hdev : e.valid = true → ∃ d, e.dev = some d ∧ hw.blockSize d = s.blockSize) :
    CacheWf hw ({ s with disk := disk, pool := pool, calls := calls }.setEntry i e) := by
  refine ⟨hwf.count_pos, fun j hj => ?_, fun j hj hv => ?_⟩
  · show (Function.update s.entries i e j).data = j * s.blockSize
    by_cases hji : j = i
    · rw [hji, Function.update_self, hdata]
    · rw [Function.update_of_ne hji, hwf.data_eq j hj]
  · show ∃ d, (Function.update s.entries i e j).dev = some d ∧ hw.blockSize d = s.blockSize
    change (Function.update s.entries i e j).valid = true at hv
    by_cases hji : j = i
    · rw [hji, Function.update_self] at hv ⊢
      exact hdev hv
    · rw [Function.update_of_ne hji] at hv ⊢
      exact hwf.dev_ok j hj hv

@[simp] theorem setEntry_self {i : Nat} {e : BcacheEntry D} : (s.setEntry i e).entries i = e := by
  unfold BcacheState.setEntry
  exact Function.update_self i e s.entries

theorem setEntry_setEntry {i : Nat} {e e' : BcacheEntry D} {pool : Bytes} :
    { s.setEntry i e with pool := pool }.setEntry i e' = { s with pool := pool }.setEntry i e' := by
  unfold BcacheState.setEntry
  simp only [Function.update_idem]

/-- The lines after entry `i` and its block of the pool have been rewritten. -/
theorem lines_setEntry (hwf : CacheWf hw s) {i : Nat} {e : BcacheEntry D} {disk : D → Nat → Bytes}
    {pool : Bytes} {calls : Nat} {x : Option (Line (D × Nat) (List UInt8))}
    (hpool : ∀ k, k < i * s.blockSize ∨ i * s.blockSize + s.blockSize ≤ k → pool k = s.pool k)
    (hself : lines ({ s with disk := disk, pool := pool, calls := calls }.setEntry i e) i = x) :
    lines ({ s with disk := disk, pool := pool, calls := calls }.setEntry i e) =
      Function.update (lines s) i x := by
  rw [← hself]
  refine lines_update hwf rfl rfl (fun j hj => ?_) hpool
  unfold BcacheState.setEntry
  exact Function.update_of_ne hj e s.entries

/-- No step but the filling of a line gives a block a line. -/
structure Steady (s s' : BcacheState D) : Prop where
  count_eq : s'.entryCount = s.entryCount
  size_eq : s'.blockSize = s.blockSize
  keys : ∀ k, (∀ j a, lines s j = some a → a.key ≠ k) → ∀ j a, lines s' j = some a → a.key ≠ k

theorem Steady.refl (s : BcacheState D) : Steady s s := ⟨rfl, rfl, fun _ h => h⟩

theorem Steady.trans {s1 s2 s3 : BcacheState D} (h : Steady s1 s2) (h' : Steady s2 s3) :
    Steady s1 s3 :=
  ⟨h'.count_eq.trans h.count_eq, h'.size_eq.trans h.size_eq, fun k hk => h'.keys k (h.keys k hk)⟩

/-- The clock hand does not matter to the content. -/
theorem CacheInv.setHand (hinv : CacheInv hw s content) (n : Nat) :
    CacheInv hw { s with clockHand := n } content :=
  ⟨⟨hinv.wf.count_pos, hinv.wf.data_eq, hinv.wf.dev_ok⟩, hinv.overlays⟩

/-! ## One entry at a time -/

/-- A hit copies the content of the block out. -/
theorem hit_slice (hinv : CacheInv hw s content) {i : Nat} {dev : D} {lba : Nat} (buffer : Bytes)
    (hi : i < s.entryCount) (hv : (s.entries i).valid = true)
    (hd : (s.entries i).dev = some dev) (hl : (s.entries i).lba = lba) :
    (buffer.copy 0 s.pool (s.entries i).data s.blockSize).slice 0 s.blockSize =
      content (dev, lba) := by
  have h := hinv.overlays.val_eq i _ (lines_of_valid hi rfl hv hd)
  rw [Bytes.slice_copy_same, ← hl]
  exact h

/-- A victim whose device read fails is dropped, whatever the driver left in its buffer. -/
theorem CacheInv.drop (hinv : CacheInv hw s content) {i : Nat} {pool : Bytes} (calls : Nat)
    (hi : i < s.entryCount) (hclean : ∀ a, lines s i = some a → a.dirty = false)
    (hpool : ∀ k, k < i * s.blockSize ∨ i * s.blockSize + s.blockSize ≤ k → pool k = s.pool k) :
    CacheInv hw ({ s with pool := pool, calls := calls }.setEntry i
      { s.entries i with valid := false }) content := by
  refine ⟨hinv.wf.setEntry (hinv.wf.data_eq i hi) (fun h => by cases h), ?_⟩
  rw [lines_setEntry hinv.wf hpool (lines_of_invalid (by rw [setEntry_self]))]
  exact hinv.overlays.evict hclean

/-- A victim takes the block that has been read into it. -/
theorem CacheInv.load (hinv : CacheInv hw s content) {i : Nat} (calls : Nat) {dev : D} {lba : Nat}
    (hi : i < s.entryCount) (hclean : ∀ a, lines s i = some a → a.dirty = false)
    (hkey : ∀ j a, lines s j = some a → a.key ≠ (dev, lba))
    (hbs : hw.blockSize dev = s.blockSize) :
    CacheInv hw ({ s with
      pool := s.pool.copy (s.entries i).data (s.disk dev lba) 0 s.blockSize
      calls := calls }.setEntry i { s.entries i with
        dev := some dev, lba := lba, valid := true, dirty := false }) content := by
  refine ⟨hinv.wf.setEntry (hinv.wf.data_eq i hi) (fun _ => ⟨dev, rfl, hbs⟩), ?_⟩
  have hdata := hinv.wf.data_eq i hi
  rw [lines_setEntry (x := some ⟨(dev, lba), back s (dev, lba), false⟩) hinv.wf]
  · -- the victim goes, the new block comes
    have hnone := hinv.overlays.evict hclean
    have hfill := hnone.fill (Function.update_self i none (lines s)) (k := (dev, lba)) ?_
    · rwa [Function.update_idem] at hfill
    · intro j a hj
      rcases update_eq_some_iff.mp hj with ⟨-, ha⟩ | ⟨-, hj⟩
      · cases ha
      · exact hkey j a hj
  · intro k hk
    rw [Bytes.copy, if_neg (by omega)]
  · rw [lines_of_valid (by exact hi) setEntry_self rfl rfl]
    congr 2
    exact Bytes.slice_copy_same

variable [DecidableEq D]

/-! ## `mcsos_bcache_find` -/

theorem bcacheFind_some {dev : D} {lba i : Nat} (h : bcacheFind dev lba s = some i) :
    i < s.entryCount ∧ (s.entries i).valid = true ∧ (s.entries i).dev = some dev ∧
      (s.entries i).lba = lba := by
  obtain ⟨-, hi, hp, -⟩ := findFrom_some_iff.mp h
  simp only [Bool.and_eq_true, decide_eq_true_eq] at hp
  exact ⟨by omega, hp.1.1, hp.1.2, hp.2⟩

theorem bcacheFind_none {dev : D} {lba : Nat} (h : bcacheFind dev lba s = none) :
    ∀ j a, lines s j = some a → a.key ≠ (dev, lba) := by
  rintro j ⟨⟨d, l⟩, v, dirty⟩ hj hkey
  obtain ⟨hd, hl⟩ := Prod.mk.inj hkey
  obtain ⟨hjn, hv, hdev, hlba, -, -⟩ := lines_some hj
  have hp := findFrom_none_iff.mp h j (Nat.zero_le j) (by omega)
  simp_all

/-! ## `mcsos_bcache_flush_entry` -/

/-- Writing a block of the pool to a disk. -/
theorem back_write {d : D} {lba off : Nat} :
    back { s with
        disk := Function.update s.disk d (Function.update (s.disk d) lba
          ((s.disk d lba).copy 0 s.pool off s.blockSize)) } =
      Function.update (back s) (d, lba) (s.pool.slice off s.blockSize) := by
  funext k
  obtain ⟨d', l⟩ := k
  unfold back
  by_cases hd : d' = d
  · subst hd
    by_cases hl : l = lba
    · subst hl
      simp only [Function.update_self]
      exact Bytes.slice_copy_same
    · have hne : (d', l) ≠ (d', lba) := fun h => hl (Prod.mk.inj h).2
      simp only [Function.update_self, Function.update_of_ne hl, Function.update_of_ne hne]
  · have hne : (d', l) ≠ (d, lba) := fun h => hd (Prod.mk.inj h).1
    simp only [Function.update_of_ne hd, Function.update_of_ne hne]

/-- Writing an entry back keeps the content. A failed write changes nothing; after a
successful one the entry is not dirty. -/
theorem bcacheFlushEntry_spec (hinv : CacheInv hw s content) {i : Nat} (hi : i < s.entryCount) :
    CacheInv hw (bcacheFlushEntry hw i s).2 content ∧ Steady s (bcacheFlushEntry hw i s).2 ∧
      ((bcacheFlushEntry hw i s).1 = .ok →
        ∀ a, lines (bcacheFlushEntry hw i s).2 i = some a → a.dirty = false) := by
  unfold bcacheFlushEntry
  by_cases hskip : (s.entries i).valid = false ∨ (s.entries i).dirty = false
  · simp only [if_pos hskip]
    refine ⟨hinv, Steady.refl s, fun _ a ha => ?_⟩
    obtain ⟨-, hv, -, -, hdirty, -⟩ := lines_some ha
    rcases hskip with hinvalid | hclean
    · rw [hv] at hinvalid
      cases hinvalid
    · rw [← hdirty, hclean]
  · simp only [if_neg hskip]
    rw [not_or, Bool.not_eq_false, Bool.not_eq_false] at hskip
    obtain ⟨d, hd, hbs⟩ := hinv.wf.dev_ok i hi hskip.1
    simp only [hd]
    unfold blkWrite
    by_cases hrange : blkValidateRange hw d (s.entries i).lba 1 ≠ .ok
    · simp only [if_pos hrange]
      exact ⟨hinv, Steady.refl s, fun h => absurd h hrange⟩
    · simp only [if_neg hrange]
      cases hfault : hw.fault s.calls with
      | some f =>
          simp only [if_pos f.status_ne]
          exact ⟨⟨⟨hinv.wf.count_pos, hinv.wf.data_eq, hinv.wf.dev_ok⟩, hinv.overlays⟩,
            ⟨rfl, rfl, fun _ h => h⟩, fun h => absurd h f.status_ne⟩
      | none =>
          -- the block of the store gets the value of the line, which is clean from here on
          simp only [ne_eq, not_true_eq_false, if_false, hbs]
          have hline := lines_of_valid hi rfl hskip.1 hd
          set s1 : BcacheState D := { s with
            disk := Function.update s.disk d (Function.update (s.disk d) (s.entries i).lba
              ((s.disk d (s.entries i).lba).copy 0 s.pool (s.entries i).data s.blockSize))
            calls := s.calls + 1 }.setEntry i { s.entries i with dirty := false, dev := some d } with hs1
          have hwf : CacheWf hw s1 := by
            refine hinv.wf.setEntry ?_ (fun _ => ⟨d, rfl, hbs⟩)
            exact hinv.wf.data_eq i hi
          have hself : lines s1 i = some ⟨(d, (s.entries i).lba),
              s.pool.slice (s.entries i).data s.blockSize, false⟩ :=
            lines_of_valid (s := s1) hi setEntry_self hskip.1 rfl
          have hlines := lines_setEntry hinv.wf (fun _ _ => rfl) hself
          have hback : back s1 = Function.update (back s) (d, (s.entries i).lba)
              (s.pool.slice (s.entries i).data s.blockSize) := back_write
          refine ⟨⟨hwf, ?_⟩, ⟨rfl, rfl, fun k hk j a hj => ?_⟩, fun _ a ha => ?_⟩
          · rw [hlines, hback]
            exact hinv.overlays.writeBack hline
          · rw [hlines] at hj
            rcases update_eq_some_iff.mp hj with ⟨-, ha⟩ | ⟨-, hj⟩
            · have hne := hk i _ hline
              cases ha
              exact hne
            · exact hk j a hj
          · rw [hself] at ha
            cases ha
            rfl

/-! ## `mcsos_bcache_select_victim` -/

/-- A victim is unused or not dirty, and the content is as before, with or without a victim. -/
theorem bcacheSelectVictim_spec {st : BlkStatus} {v : Option Nat}
    (hinv : CacheInv hw s content) (h : bcacheSelectVictim hw s = (st, v, s')) :
    CacheInv hw s' content ∧ Steady s s' ∧ (v = none → st ≠ .ok) ∧
      ∀ i, v = some i → i < s.entryCount ∧ ∀ a, lines s' i = some a → a.dirty = false := by
  have hpos := hinv.wf.count_pos
  unfold bcacheSelectVictim at h
  simp only [if_neg (Nat.pos_iff_ne_zero.mp hpos)] at h
  cases hfind : findFrom (fun pass => !(s.entries
      ((s.clockHand % s.entryCount + pass) % 2 ^ 32 % s.entryCount)).valid) 0 s.entryCount with
  | some pass =>
      -- an entry that is not valid has no line
      rw [hfind] at h
      obtain ⟨rfl, hv⟩ := Prod.mk.inj h
      obtain ⟨rfl, rfl⟩ := Prod.mk.inj hv
      refine ⟨hinv.setHand _, ⟨rfl, rfl, fun _ hk => hk⟩, fun hn => (by cases hn), fun i hi => ?_⟩
      cases hi
      refine ⟨Nat.mod_lt _ hpos, fun a ha => ?_⟩
      have hinvalid := (findFrom_some_iff.mp hfind).2.2.1
      obtain ⟨-, hvalid, -⟩ := lines_some ha
      simp only [Bool.not_eq_true'] at hinvalid
      exact absurd (hvalid.symm.trans hinvalid) (by decide)
  | none =>
      -- the entry under the hand is written back, and is the victim if that went well
      rw [hfind] at h
      have hstart : s.clockHand % s.entryCount < s.entryCount := Nat.mod_lt _ hpos
      obtain ⟨hinv', hsteady, hclean⟩ := bcacheFlushEntry_spec
        (hinv.setHand ((s.clockHand % s.entryCount + 1) % 2 ^ 32)) hstart
      set r := bcacheFlushEntry hw (s.clockHand % s.entryCount)
        { s with clockHand := (s.clockHand % s.entryCount + 1) % 2 ^ 32 } with hr
      have hsteady' : Steady s r.2 := ⟨hsteady.count_eq, hsteady.size_eq, hsteady.keys⟩
      by_cases hok : r.1 = .ok
      · simp only [hok, ne_eq, not_true_eq_false, if_false] at h
        obtain ⟨rfl, hv⟩ := Prod.mk.inj h
        obtain ⟨rfl, rfl⟩ := Prod.mk.inj hv
        refine ⟨hinv', hsteady', fun hn => (by cases hn), fun i hi => ?_⟩
        cases hi
        exact ⟨hstart, hclean hok⟩
      · simp only [ne_eq, hok, not_false_eq_true, if_true] at h
        obtain ⟨rfl, hv⟩ := Prod.mk.inj h
        obtain ⟨rfl, rfl⟩ := Prod.mk.inj hv
        exact ⟨hinv', hsteady', fun _ => hok, fun i hi => by cases hi⟩

/-! ## `mcsos_bcache_flush_all` -/

theorem flushLoop_spec {i n : Nat} (hinv : CacheInv hw s content) (hn : i + n ≤ s.entryCount) :
    CacheInv hw (flushLoop hw i n s).2 content ∧ Steady s (flushLoop hw i n s).2 := by
  induction n generalizing i s with
  | zero => exact ⟨hinv, Steady.refl s⟩
  | succ n ih =>
      obtain ⟨hinv', hsteady, -⟩ := bcacheFlushEntry_spec hinv (by omega : i < s.entryCount)
      unfold flushLoop
      by_cases hok : (bcacheFlushEntry hw i s).1 ≠ .ok
      · simp only [if_pos hok]
        exact ⟨hinv', hsteady⟩
      · simp only [if_neg hok]
        obtain ⟨hinv2, hsteady2⟩ := ih (i := i + 1) hinv' (by rw [hsteady.count_eq]; omega)
        exact ⟨hinv2, hsteady.trans hsteady2⟩

/-- A line, or a victim that gets the key, takes the data of a write. -/
theorem CacheInv.store (hinv : CacheInv hw s content) {i : Nat} {e : BcacheEntry D} {dev : D}
    {lba : Nat} {buffer : Bytes} (hi : i < s.entryCount)
    (hline : (∃ v dirty, lines s i = some ⟨(dev, lba), v, dirty⟩) ∨
      ((∀ a, lines s i = some a → a.dirty = false) ∧
        ∀ j a, lines s j = some a → a.key ≠ (dev, lba)))
    (hbs : hw.blockSize dev = s.blockSize) (hdata : e.data = (s.entries i).data)
    (hdev : e.dev = some dev) (hlba : e.lba = lba) (hv : e.valid = true) (hd : e.dirty = true) :
    CacheInv hw ({ s with pool := s.pool.copy (s.entries i).data buffer 0 s.blockSize }.setEntry i e)
      (Function.update content (dev, lba) (buffer.slice 0 s.blockSize)) := by
  have hslot := hinv.wf.data_eq i hi
  refine ⟨hinv.wf.setEntry (hdata.trans hslot) (fun _ => ⟨dev, hdev, hbs⟩), ?_⟩
  have hpool : ∀ k, k < i * s.blockSize ∨ i * s.blockSize + s.blockSize ≤ k →
      s.pool.copy (s.entries i).data buffer 0 s.blockSize k = s.pool k := by
    intro k hk
    rw [Bytes.copy, if_neg (by omega)]
  have hself : lines ({ s with
      pool := s.pool.copy (s.entries i).data buffer 0 s.blockSize }.setEntry i e) i =
      some ⟨(dev, lba), buffer.slice 0 s.blockSize, true⟩ := by
    rw [lines_of_valid (by exact hi) setEntry_self hv hdev, hlba, hd, hdata]
    congr 2
    exact Bytes.slice_copy_same
  rw [lines_setEntry hinv.wf hpool hself]
  rcases hline with ⟨v, dirty, hline⟩ | ⟨hclean, hkey⟩
  · exact hinv.overlays.overwrite hline _
  · -- the victim goes, the block comes as it is on the disk, and is overwritten
    have hfill := (hinv.overlays.evict hclean).fill (Function.update_self i none (lines s))
      (k := (dev, lba)) ?_
    · have hwrite := hfill.overwrite (Function.update_self i _ _) (buffer.slice 0 s.blockSize)
      rwa [Function.update_idem, Function.update_idem] at hwrite
    · intro j a hj
      rcases update_eq_some_iff.mp hj with ⟨-, ha⟩ | ⟨-, hj⟩
      · cases ha
      · exact hkey j a hj

end Mcsos.Block
