import Mcsos.Mm.Kmem
import Mcsos.Lib.BlockList

set_option autoImplicit false

/-! # The heap in memory and the heap as a block list

`Seg mem p bs q` says that following `next` from header `p` reads the blocks `bs` and ends at
`q`. The functions of the heap are described by what they do to that list: `kmem_alloc` takes
or splits the first fitting block, `kmem_free_checked` marks one block free and merges.
-/

namespace Mcsos.Kmem

open BlockList

/-! ## Segments -/

/-- The header at `b.addr` describes `b`. -/
structure Header (mem : Bytes) (b : Blk) : Prop where
  magic_eq : magic mem b.addr = kmemMagic
  size_eq : size mem b.addr = b.size
  free_iff : isFree mem b.addr ≠ 0 ↔ b.free = true

def Seg (mem : Bytes) : Nat → List Blk → Nat → Prop
  | p, [], q => p = q
  | p, b :: bs, q => b.addr = p ∧ Header mem b ∧ Seg mem (next mem p) bs q

theorem seg_append {mem : Bytes} {p q : Nat} {xs ys : List Blk} :
    Seg mem p (xs ++ ys) q ↔ ∃ m, Seg mem p xs m ∧ Seg mem m ys q := by
  induction xs generalizing p with
  | nil => simp [Seg]
  | cons x xs ih =>
      show x.addr = p ∧ Header mem x ∧ Seg mem (next mem p) (xs ++ ys) q ↔ _
      rw [ih]
      constructor
      · rintro ⟨hx, hh, m, h1, h2⟩
        exact ⟨m, ⟨hx, hh, h1⟩, h2⟩
      · rintro ⟨m, ⟨hx, hh, h1⟩, h2⟩
        exact ⟨hx, hh, m, h1, h2⟩

/-- The fields of a header only depend on its 40 bytes. -/
theorem next_congr {mem mem' : Bytes} {p : Nat} (h : Bytes.AgreeOn mem' mem p (p + headerSize)) :
    next mem' p = next mem p :=
  Bytes.load_congr (h.mono (by omega) (by unfold headerSize; omega))

theorem Header.congr {mem mem' : Bytes} {b : Blk} (hh : Header mem b)
    (h : Bytes.AgreeOn mem' mem b.addr (b.addr + headerSize)) : Header mem' b := by
  unfold headerSize at h
  have hm : magic mem' b.addr = magic mem b.addr :=
    Bytes.load_congr (h.mono (by omega) (by omega))
  have hs : size mem' b.addr = size mem b.addr :=
    Bytes.load_congr (h.mono (by omega) (by omega))
  have hf : isFree mem' b.addr = isFree mem b.addr :=
    Bytes.load_congr (h.mono (by omega) (by omega))
  exact ⟨hm.trans hh.magic_eq, hs.trans hh.size_eq, by rw [hf]; exact hh.free_iff⟩

theorem Seg.congr {mem mem' : Bytes} {p q : Nat} {bs : List Blk} (hs : Seg mem p bs q)
    (h : ∀ b ∈ bs, Bytes.AgreeOn mem' mem b.addr (b.addr + headerSize)) : Seg mem' p bs q := by
  induction bs generalizing p with
  | nil => exact hs
  | cons b bs ih =>
      obtain ⟨hb, hh, hrest⟩ := hs
      have hb' := h b List.mem_cons_self
      refine ⟨hb, hh.congr hb', ?_⟩
      rw [← hb, next_congr hb', hb]
      exact ih hrest (fun c hc => h c (List.mem_cons_of_mem _ hc))

/-- The blocks read by following `next` from `p`. -/
def walk (mem : Bytes) : Nat → Nat → List Blk
  | 0, _ => []
  | fuel + 1, p =>
    if p = 0 then []
    else ⟨p, size mem p, decide (isFree mem p ≠ 0)⟩ :: walk mem fuel (next mem p)

/-- The block list of a heap. -/
def kmemBlocks (s : KmemState) : List Blk := walk s.mem (s.heapBytes + 1) s.heapBase

theorem walk_eq {mem : Bytes} {fuel p : Nat} {bs : List Blk} (hs : Seg mem p bs 0)
    (h0 : ∀ b ∈ bs, b.addr ≠ 0) (hlen : bs.length < fuel) : walk mem fuel p = bs := by
  induction bs generalizing p fuel with
  | nil =>
      obtain ⟨n, rfl⟩ := Nat.exists_eq_succ_of_ne_zero (by omega : fuel ≠ 0)
      rw [walk, if_pos (show p = 0 from hs)]
  | cons b bs ih =>
      obtain ⟨n, rfl⟩ := Nat.exists_eq_succ_of_ne_zero (by omega : fuel ≠ 0)
      obtain ⟨hb, hh, hrest⟩ := hs
      have hp : p ≠ 0 := hb ▸ h0 b List.mem_cons_self
      have hfree : decide (isFree mem p ≠ 0) = b.free := by
        rw [← hb]
        cases hbf : b.free with
        | true => simpa using hh.free_iff.mpr hbf
        | false =>
            have hnot : ¬isFree mem b.addr ≠ 0 := fun hne => by
              have := hh.free_iff.mp hne
              rw [hbf] at this
              cases this
            simpa using hnot
      rw [walk, if_neg hp, ih hrest (fun c hc => h0 c (List.mem_cons_of_mem _ hc))
        (by simpa using hlen), hfree, ← hb, hh.size_eq]

/-! ## Searching -/

theorem allocLoop_eq {mem : Bytes} {n fuel p : Nat} {bs : List Blk} (hs : Seg mem p bs 0)
    (h0 : ∀ b ∈ bs, b.addr ≠ 0) (hlen : bs.length < fuel) :
    allocLoop n fuel p mem =
      match firstFit n bs with
      | none => some (0, mem)
      | some b => some ((b.addr + headerSize) % 2 ^ 64, takeBlock n b.addr mem) := by
  induction bs generalizing p fuel with
  | nil =>
      obtain ⟨k, rfl⟩ := Nat.exists_eq_succ_of_ne_zero (by omega : fuel ≠ 0)
      rw [allocLoop, if_pos (show p = 0 from hs)]
      rfl
  | cons b bs ih =>
      obtain ⟨k, rfl⟩ := Nat.exists_eq_succ_of_ne_zero (by omega : fuel ≠ 0)
      obtain ⟨hb, hh, hrest⟩ := hs
      have hp : p ≠ 0 := hb ▸ h0 b List.mem_cons_self
      rw [allocLoop, if_neg hp, if_neg (by rw [← hb]; exact not_not.mpr hh.magic_eq)]
      by_cases hfit : b.free = true ∧ n ≤ b.size
      · have hfound : firstFit n (b :: bs) = some b := by
          simp [firstFit, hfit.1, hfit.2]
        rw [hfound, if_pos ⟨by rw [← hb]; exact hh.free_iff.mpr hfit.1, by
          rw [← hb, hh.size_eq]; exact hfit.2⟩, ← hb]
      · have hskip : firstFit n (b :: bs) = firstFit n bs := by
          unfold firstFit
          rw [List.find?_cons_of_neg (by simpa using hfit)]
        rw [hskip, if_neg, ih hrest (fun c hc => h0 c (List.mem_cons_of_mem _ hc))
          (by simpa using hlen)]
        rw [← hb, hh.size_eq, hh.free_iff]
        exact hfit

/-! ## Taking a block -/

theorem and_high_mask {y : Nat} (hy : y < 2 ^ 64) : y &&& 0xfffffffffffffff0 = y / 16 * 16 := by
  rw [show (0xfffffffffffffff0 : Nat) = 2 ^ 64 - (15 + 1) by norm_num]
  apply Nat.eq_of_testBit_eq
  intro i
  rw [Nat.testBit_and, Nat.testBit_two_pow_sub_succ (by norm_num),
    show 15 = 2 ^ 4 - 1 by norm_num, Nat.testBit_two_pow_sub_one,
    show (16 : Nat) = 2 ^ 4 by norm_num, Nat.testBit_mul_two_pow, Nat.testBit_div_two_pow]
  by_cases hi : i < 4
  · simp [hi, show ¬4 ≤ i by omega]
  · by_cases hi64 : i < 64
    · simp [hi, hi64, show 4 ≤ i by omega, show i - 4 + 4 = i by omega]
    · have hlt : y < 2 ^ i := lt_of_lt_of_le hy (Nat.pow_le_pow_right (by omega) (by omega))
      simp [hi64, Nat.testBit_lt_two_pow hlt, show i - 4 + 4 = i by omega]

/-- The 32-bit mask also clears everything from bit 32 on. -/
theorem and_align_mask (x : Nat) : x &&& 0xfffffff0 = x % 2 ^ 32 / 16 * 16 := by
  have hmask : (0xfffffff0 : Nat) = (2 ^ 32 - 1) &&& 0xfffffffffffffff0 := by decide
  rw [hmask, ← Nat.and_assoc, Nat.and_two_pow_sub_one_eq_mod, and_high_mask (by omega)]

theorem roundUp_eq (n : Nat) : roundUp n = (n + 15) % 2 ^ 64 % 2 ^ 32 / 16 * 16 := by
  unfold roundUp kmemAlign
  rw [and_align_mask]

theorem neededSpace_eq {n : Nat} (hn : n % 16 = 0) (hn' : n + 64 ≤ 2 ^ 32) :
    neededSpace n = n + 48 := by
  unfold neededSpace headerSize
  rw [roundUp_eq]
  omega

/-- The blocks that a request of `n` bytes turns block `b` into. -/
def take (n : Nat) (b : Blk) : List Blk :=
  if n + 104 ≤ b.size then
    [{ addr := b.addr, size := n + 8, free := false },
     { addr := b.addr + 40 + (n + 8), size := b.size - (n + 8 + 40), free := true }]
  else [{ b with free := false }]

theorem tiles_take {a e n : Nat} {pre post : List Blk} {b : Blk}
    (ht : Tiles 40 a (pre ++ b :: post) e) : Tiles 40 a (pre ++ take n b ++ post) e := by
  unfold take
  split_ifs with hsplit
  · have h := tiles_split (v := false) (w := true) ht (by omega : n + 8 + 40 ≤ b.size)
    rwa [List.append_assoc]
  · rw [List.append_assoc]
    exact tiles_set_free ht

/-- Rewriting one block of a list in place: only bytes of block `b` change, and what they
now hold reads as `bs` up to the old successor of `b`. -/
theorem Seg.replace {mem mem' : Bytes} {p q e : Nat} {pre post bs : List Blk} {b : Blk}
    (hs : Seg mem p (pre ++ b :: post) q) (ht : Tiles 40 p (pre ++ b :: post) e)
    (hframe : ∀ i, i < b.addr ∨ b.addr + 40 + b.size ≤ i → mem' i = mem i)
    (hnew : Seg mem' b.addr bs (next mem b.addr)) : Seg mem' p (pre ++ bs ++ post) q := by
  obtain ⟨m, hpre, hb, -, hpost⟩ := seg_append.mp hs
  obtain ⟨m', tpre, tb, tpost⟩ := tiles_append.mp ht
  have hpre' : Seg mem' p pre b.addr := by
    rw [hb]
    refine hpre.congr (fun c hc i _ hi => hframe i (Or.inl ?_))
    have hmem := (tiles_mem tpre hc).2
    unfold headerSize at hi
    omega
  have hpost' : Seg mem' (next mem b.addr) post q := by
    rw [hb]
    refine hpost.congr (fun c hc i hi _ => hframe i (Or.inr ?_))
    have hmem' := (tiles_mem tpost hc).1
    omega
  rw [List.append_assoc]
  exact seg_append.mpr ⟨b.addr, hpre', seg_append.mpr ⟨_, hnew, hpost'⟩⟩

/-- A large block is split: the stores made in the new header and in the old one. -/
theorem takeBlock_split {mem : Bytes} {n : Nat} {b : Blk} (hh : Header mem b)
    (hb : b.addr + 40 + b.size ≤ 2 ^ 64) (hn : n % 16 = 0) (hn' : n + 64 ≤ 2 ^ 32)
    (hsplit : n + 104 ≤ b.size) :
    takeBlock n b.addr mem =
      (((((((mem.store (b.addr + 40 + (n + 8)) 8 kmemMagic).store
        (b.addr + 40 + (n + 8) + 8) 8 (b.size - (n + 8 + 40))).store
        (b.addr + 40 + (n + 8) + 16) 8 (next mem b.addr)).store
        (b.addr + 40 + (n + 8) + 24) 4 1).store
        (b.addr + 8) 8 (n + 8)).store
        (b.addr + 16) 8 (b.addr + 40 + (n + 8))).store
        (b.addr + 24) 4 0) := by
  have hsize : mem.load (b.addr + 8) 8 = b.size := hh.size_eq
  have hbig : (n + 48 + 40 + kmemAlign) % 2 ^ 64 ≤ size mem b.addr := by
    rw [hh.size_eq]
    unfold kmemAlign
    omega
  unfold takeBlock
  simp only [neededSpace_eq hn hn', headerSize, if_pos hbig]
  unfold setMagic setSize setNext setIsFree size next
  rw [show (b.addr + (n + 48)) % 2 ^ 64 = b.addr + 40 + (n + 8) by omega,
    show (n + 48 + 2 ^ 64 - 40) % 2 ^ 64 = n + 8 by omega]
  -- the two fields read from the old header are not touched by the stores in the new one
  simp (disch := omega) only [Bytes.load_store_ne, hsize]
  rw [show (b.size + 2 ^ 64 - (n + 48)) % 2 ^ 64 = b.size - (n + 8 + 40) by omega]

/-- A small block is handed out whole. -/
theorem takeBlock_whole {mem : Bytes} {n : Nat} {b : Blk} (hh : Header mem b)
    (hn : n % 16 = 0) (hn' : n + 64 ≤ 2 ^ 32) (hsplit : ¬n + 104 ≤ b.size) :
    takeBlock n b.addr mem = mem.store (b.addr + 24) 4 0 := by
  have hsmall : ¬(n + 48 + 40 + kmemAlign) % 2 ^ 64 ≤ size mem b.addr := by
    rw [hh.size_eq]
    unfold kmemAlign
    omega
  unfold takeBlock
  simp only [neededSpace_eq hn hn', headerSize, if_neg hsmall]
  rfl

/-- `takeBlock` touches no byte outside block `b`. -/
theorem takeBlock_frame {mem : Bytes} {n : Nat} {b : Blk} (hh : Header mem b)
    (hb : b.addr + 40 + b.size ≤ 2 ^ 64) (hn : n % 16 = 0) (hn' : n + 64 ≤ 2 ^ 32) (i : Nat)
    (hi : i < b.addr ∨ b.addr + 40 + b.size ≤ i) : takeBlock n b.addr mem i = mem i := by
  by_cases hsplit : n + 104 ≤ b.size
  · rw [takeBlock_split hh hb hn hn' hsplit]
    simp only [Bytes.store]
    repeat rw [if_neg (by omega)]
  · rw [takeBlock_whole hh hn hn' hsplit, Bytes.store, if_neg (by omega)]

/-- After `takeBlock`, the bytes of block `b` read as the blocks it was turned into. -/
theorem takeBlock_new {mem : Bytes} {n : Nat} {b : Blk} (hh : Header mem b)
    (hb : b.addr + 40 + b.size ≤ 2 ^ 64) (hn : n % 16 = 0) (hn' : n + 64 ≤ 2 ^ 32) :
    Seg (takeBlock n b.addr mem) b.addr (take n b) (next mem b.addr) := by
  have hmagic : mem.load b.addr 8 = kmemMagic := hh.magic_eq
  have hsize : mem.load (b.addr + 8) 8 = b.size := hh.size_eq
  have hpow : (256 : Nat) ^ 8 = 2 ^ 64 := by norm_num
  have hpow4 : (256 : Nat) ^ 4 = 2 ^ 32 := by norm_num
  have hkm : kmemMagic < 2 ^ 64 := by decide
  unfold take
  by_cases hsplit : n + 104 ≤ b.size
  · have hlink : next mem b.addr < 256 ^ 8 := Bytes.load_lt _ _ _
    rw [if_pos hsplit, takeBlock_split hh hb hn hn' hsplit]
    generalize next mem b.addr = link at hlink ⊢
    refine ⟨rfl, ⟨?_, ?_, ?_⟩, ?_, ⟨?_, ?_, ?_⟩, ?_⟩ <;>
      simp only [magic, size, next, isFree, Seg] <;>
      simp (disch := omega) only [Bytes.load_store_ne, Bytes.load_store_same, hmagic]
    · simp
    · simp
  · rw [if_neg hsplit, takeBlock_whole hh hn hn' hsplit]
    refine ⟨rfl, ⟨?_, ?_, ?_⟩, ?_⟩ <;>
      simp only [magic, size, next, isFree, Seg] <;>
      simp (disch := omega) only [Bytes.load_store_ne, Bytes.load_store_same, hmagic, hsize]
    · simp

theorem takeBlock_seg {mem : Bytes} {p q e n : Nat} {pre post : List Blk} {b : Blk}
    (hs : Seg mem p (pre ++ b :: post) q) (ht : Tiles 40 p (pre ++ b :: post) e)
    (he : e ≤ 2 ^ 64) (hn : n % 16 = 0) (hn' : n + 64 ≤ 2 ^ 32) :
    Seg (takeBlock n b.addr mem) p (pre ++ take n b ++ post) q := by
  obtain ⟨m, -, -, hh, -⟩ := seg_append.mp hs
  have hend := (tiles_mem ht (List.mem_append_right pre List.mem_cons_self)).2
  exact hs.replace ht (takeBlock_frame hh (by omega) hn hn')
    (takeBlock_new hh (by omega) hn hn')

/-! ## Giving a block back -/

theorem setIsFree_seg {mem : Bytes} {p q e : Nat} {pre post : List Blk} {b : Blk}
    (hs : Seg mem p (pre ++ b :: post) q) (ht : Tiles 40 p (pre ++ b :: post) e) :
    Seg (setIsFree mem b.addr 1) p (pre ++ { b with free := true } :: post) q := by
  obtain ⟨m, -, -, hh, -⟩ := seg_append.mp hs
  have hmagic : mem.load b.addr 8 = kmemMagic := hh.magic_eq
  have hsize : mem.load (b.addr + 8) 8 = b.size := hh.size_eq
  have hnew : Seg (setIsFree mem b.addr 1) b.addr [{ b with free := true }] (next mem b.addr) := by
    refine ⟨rfl, ⟨?_, ?_, ?_⟩, ?_⟩ <;>
      simp only [magic, size, next, isFree, setIsFree, Seg] <;>
      simp (disch := omega) only [Bytes.load_store_ne, Bytes.load_store_same, hmagic, hsize]
    · simp
  have hframe : ∀ i, i < b.addr ∨ b.addr + 40 + b.size ≤ i →
      setIsFree mem b.addr 1 i = mem i := by
    intro i hi
    rw [setIsFree, Bytes.store, if_neg (by omega)]
  have h := hs.replace ht hframe hnew
  rwa [List.append_assoc] at h

/-- The two stores of a merge, which both fall into the left header. -/
theorem absorbNext_eq {mem : Bytes} {p e : Nat} {b c : Blk} {bs : List Blk}
    (hs : Seg mem p (b :: c :: bs) 0) (ht : Tiles 40 p (b :: c :: bs) e) (he : e ≤ 2 ^ 64) :
    absorbNext p mem = (mem.store (p + 8) 8 (b.size + 40 + c.size)).store (p + 16) 8
      (next mem c.addr) := by
  obtain ⟨hb, hh, hc, hhc, -⟩ := hs
  obtain ⟨-, hcp, tpost⟩ := ht
  have hend := tiles_le tpost
  have hlink : mem.load (p + 16) 8 = c.addr := hc.symm
  have hsize : mem.load (p + 8) 8 = b.size := by rw [← hb]; exact hh.size_eq
  have hsizec : mem.load (c.addr + 8) 8 = c.size := hhc.size_eq
  unfold absorbNext setNext setSize size next headerSize
  simp (disch := omega) only [Bytes.load_store_ne, hlink, hsize, hsizec]
  rw [show (b.size + (40 + c.size)) % 2 ^ 64 = b.size + 40 + c.size by omega]

theorem absorbNext_seg {mem : Bytes} {p e : Nat} {b c : Blk} {bs : List Blk}
    (hs : Seg mem p (b :: c :: bs) 0) (ht : Tiles 40 p (b :: c :: bs) e) (he : e ≤ 2 ^ 64) :
    Seg (absorbNext p mem) p (merge 40 b c :: bs) 0 := by
  rw [absorbNext_eq hs ht he]
  obtain ⟨hb, hh, hc, hhc, hrest⟩ := hs
  obtain ⟨-, hcp, tpost⟩ := ht
  have hend := tiles_le tpost
  have hmagic : mem.load p 8 = kmemMagic := by rw [← hb]; exact hh.magic_eq
  have hfree : mem.load (p + 24) 4 ≠ 0 ↔ b.free = true := by rw [← hb]; exact hh.free_iff
  have hpow : (256 : Nat) ^ 8 = 2 ^ 64 := by norm_num
  have hlink : next mem c.addr < 256 ^ 8 := Bytes.load_lt _ _ _
  rw [← hc] at hrest
  generalize next mem c.addr = link at hrest hlink ⊢
  refine ⟨hb, ⟨?_, ?_, ?_⟩, ?_⟩
  · simp only [magic, merge, hb]
    simp (disch := omega) only [Bytes.load_store_ne, hmagic]
  · simp only [size, merge, hb]
    simp (disch := omega) only [Bytes.load_store_ne, Bytes.load_store_same]
  · simp only [isFree, merge, hb]
    simp (disch := omega) only [Bytes.load_store_ne]
    exact hfree
  · simp only [next]
    simp (disch := omega) only [Bytes.load_store_same]
    refine hrest.congr (fun d hd => ?_)
    have hd' := (tiles_mem tpost hd).1
    exact (Bytes.store_agreeOn (by omega)).trans (Bytes.store_agreeOn (by omega))

/-- The inner loop merges the head block with every free block that follows it, up to a
block that will stay. -/
theorem absorbLoop_spec {mem : Bytes} {p e fuel : Nat} {b : Blk} {bs : List Blk}
    (hs : Seg mem p (b :: bs) 0) (ht : Tiles 40 p (b :: bs) e) (he : e ≤ 2 ^ 64) (hp : 0 < p)
    (hlen : bs.length < fuel) :
    ∃ mem' b' bs', absorbLoop fuel p mem = some (.inl mem') ∧ Seg mem' p (b' :: bs') 0 ∧
      Tiles 40 p (b' :: bs') e ∧ bs' <:+ bs ∧
      coalesce 40 (b :: bs) = b' :: coalesce 40 bs' ∧
      ∀ i, i < p ∨ p + 40 ≤ i → mem' i = mem i := by
  induction bs generalizing b mem fuel with
  | nil =>
      obtain ⟨k, rfl⟩ := Nat.exists_eq_succ_of_ne_zero (by omega : fuel ≠ 0)
      have hlast : next mem p = 0 := hs.2.2
      refine ⟨mem, b, [], ?_, hs, ht, List.suffix_refl _, rfl, fun i _ => rfl⟩
      rw [absorbLoop, if_neg (fun h => h.2.1 hlast)]
  | cons c cs ih =>
      obtain ⟨k, rfl⟩ := Nat.exists_eq_succ_of_ne_zero (by omega : fuel ≠ 0)
      have hlink : next mem p = c.addr := hs.2.2.1.symm
      have hc0 : c.addr ≠ 0 := by
        have := ht.2.1
        omega
      have hbfree : isFree mem p ≠ 0 ↔ b.free = true := by
        rw [← hs.1]
        exact hs.2.1.free_iff
      have hcfree : isFree mem c.addr ≠ 0 ↔ c.free = true := hs.2.2.2.1.free_iff
      rw [absorbLoop, hlink]
      by_cases hboth : b.free = true ∧ c.free = true
      · -- the head block takes in the next one, and the loop goes on from it
        rw [if_pos ⟨hbfree.mpr hboth.1, hc0, hcfree.mpr hboth.2⟩,
          if_neg (not_not.mpr hs.2.2.2.1.magic_eq)]
        have ht' : Tiles 40 p (merge 40 b c :: cs) e := by
          have h := tiles_push (b := b) ht.1 ht.2
          rwa [push_cons, if_pos (by simp [hboth])] at h
        obtain ⟨mem', b', bs', hloop, hs', ht'', hsuf, hco, hframe⟩ :=
          ih (absorbNext_seg hs ht he) ht' (by simpa using hlen)
        refine ⟨mem', b', bs', hloop, hs', ht'', hsuf.trans (List.suffix_cons c cs), ?_, ?_⟩
        · rw [coalesce_merge cs hboth.1 hboth.2, hco]
        · intro i hi
          rw [hframe i hi, absorbNext_eq hs ht he, Bytes.store, if_neg (by omega), Bytes.store,
            if_neg (by omega)]
      · refine ⟨mem, b, c :: cs, ?_, hs, ht, List.suffix_refl _, ?_, fun i _ => rfl⟩
        · rw [if_neg]
          rw [hbfree, hcfree]
          exact fun h => hboth ⟨h.1, h.2.2⟩
        · refine coalesce_keep (fun d ds hd => ?_)
          obtain ⟨rfl, -⟩ := List.cons.inj hd
          exact hboth

/-- The two loops of `kmem_free_checked` merge all runs of free blocks, and write nothing but
headers. -/
theorem coalesceLoop_spec {mem : Bytes} {a p e inner fuel : Nat} {bs : List Blk}
    (hs : Seg mem p bs 0) (ht : Tiles 40 a bs e) (he : e ≤ 2 ^ 64)
    (h0 : ∀ b ∈ bs, b.addr ≠ 0) (hinner : bs.length ≤ inner) (hfuel : bs.length < fuel) :
    ∃ mem', coalesceLoop inner fuel p mem = some (0, mem') ∧ Seg mem' p (coalesce 40 bs) 0 ∧
      ∀ i, (∀ b ∈ bs, i < b.addr ∨ b.addr + 40 ≤ i) → mem' i = mem i := by
  -- a turn may use up several blocks, so the induction is on the turns left
  induction fuel generalizing mem a p bs with
  | zero => omega
  | succ fuel ih =>
      rw [coalesceLoop]
      cases bs with
      | nil =>
          have hp : p = 0 := hs
          rw [if_pos hp]
          exact ⟨mem, rfl, hs, fun i _ => rfl⟩
      | cons b bs =>
          have hp : p ≠ 0 := hs.1 ▸ h0 b List.mem_cons_self
          have hap : a = p := ht.1.symm.trans hs.1
          have hm : magic mem p = kmemMagic := by
            rw [← hs.1]
            exact hs.2.1.magic_eq
          subst hap
          obtain ⟨mem1, b', bs', hloop, hs1, ht1, hsuf, hco, hframe1⟩ :=
            absorbLoop_spec hs ht he (by omega) (by simpa using hinner)
          rw [if_neg hp, if_neg (not_not.mpr hm), hloop]
          have hlen := hsuf.length_le
          simp only [List.length_cons] at hinner hfuel
          obtain ⟨hb', hh', hrest⟩ := hs1
          obtain ⟨mem', hrun, hs', hframe⟩ := ih hrest ht1.2
            (fun c hc => h0 c (List.mem_cons_of_mem _ (hsuf.subset hc))) (by omega) (by omega)
          -- the later turns work right of the header at `a`
          have hhead : Bytes.AgreeOn mem' mem1 a (a + headerSize) := by
            intro i hi hi'
            refine hframe i (fun c hc => Or.inl ?_)
            have hmem := (tiles_mem ht1.2 hc).1
            unfold headerSize at hi'
            omega
          refine ⟨mem', hrun, ?_, ?_⟩
          · rw [hco]
            refine ⟨hb', hh'.congr (hb' ▸ hhead), ?_⟩
            rwa [next_congr hhead]
          · intro i hi
            rw [hframe i (fun c hc => hi c (List.mem_cons_of_mem _ (hsuf.subset hc)))]
            refine hframe1 i ?_
            rw [← hs.1]
            exact hi b List.mem_cons_self

/-! ## Statistics -/

/-- What the loop of `kmem_get_stats` adds up over a block list. -/
def statsOf (bs : List Blk) (out : KmemStats) : KmemStats :=
  bs.foldl (fun out b =>
    if b.free then
      { out with
        blockCount := (out.blockCount + 1) % 2 ^ 64
        freeCount := (out.freeCount + 1) % 2 ^ 64
        freeBytes := (out.freeBytes + b.size) % 2 ^ 64
        largestFree := if out.largestFree < b.size then b.size else out.largestFree }
    else
      { out with
        blockCount := (out.blockCount + 1) % 2 ^ 64
        usedBytes := (out.usedBytes + b.size) % 2 ^ 64 }) out

theorem statsLoop_eq {mem : Bytes} {fuel p : Nat} {bs : List Blk} (hs : Seg mem p bs 0)
    (h0 : ∀ b ∈ bs, b.addr ≠ 0) (hlen : bs.length < fuel) (out : KmemStats) :
    statsLoop mem fuel p out = some (statsOf bs out) := by
  induction bs generalizing p fuel out with
  | nil =>
      obtain ⟨k, rfl⟩ := Nat.exists_eq_succ_of_ne_zero (by omega : fuel ≠ 0)
      rw [statsLoop, if_pos (show p = 0 from hs)]
      rfl
  | cons b bs ih =>
      obtain ⟨k, rfl⟩ := Nat.exists_eq_succ_of_ne_zero (by omega : fuel ≠ 0)
      obtain ⟨hb, hh, hrest⟩ := hs
      have hp : p ≠ 0 := hb ▸ h0 b List.mem_cons_self
      rw [statsLoop, if_neg hp, if_neg (by rw [← hb]; exact not_not.mpr hh.magic_eq),
        ih hrest (fun c hc => h0 c (List.mem_cons_of_mem _ hc)) (by simpa using hlen)]
      unfold statsOf KmemStats.add
      rw [List.foldl_cons, ← hb, hh.size_eq]
      simp only [hh.free_iff]

/-- Used bytes, free bytes and headers add up to the length of the list's range. -/
theorem statsOf_sum {bs : List Blk} {a e : Nat} (ht : Tiles 40 a bs e) (out : KmemStats)
    (hout : out.usedBytes + out.freeBytes + 40 * out.blockCount + (e - a) < 2 ^ 64) :
    (statsOf bs out).usedBytes + (statsOf bs out).freeBytes + 40 * (statsOf bs out).blockCount =
      out.usedBytes + out.freeBytes + 40 * out.blockCount + (e - a) ∧
    (statsOf bs out).totalBytes = out.totalBytes := by
  induction bs generalizing a out with
  | nil =>
      have ha : a = e := ht
      subst ha
      simp [statsOf]
  | cons b bs ih =>
      have hle := tiles_le ht.2
      unfold statsOf
      rw [List.foldl_cons]
      by_cases hfree : b.free = true
      · rw [if_pos hfree]
        have h := ih ht.2 { out with
          blockCount := (out.blockCount + 1) % 2 ^ 64
          freeCount := (out.freeCount + 1) % 2 ^ 64
          freeBytes := (out.freeBytes + b.size) % 2 ^ 64
          largestFree := if out.largestFree < b.size then b.size else out.largestFree }
          (by simp only; omega)
        unfold statsOf at h
        refine ⟨h.1.trans ?_, h.2⟩
        simp only
        omega
      · rw [if_neg hfree]
        have h := ih ht.2 { out with
          blockCount := (out.blockCount + 1) % 2 ^ 64
          usedBytes := (out.usedBytes + b.size) % 2 ^ 64 } (by simp only; omega)
        unfold statsOf at h
        refine ⟨h.1.trans ?_, h.2⟩
        simp only
        omega

end Mcsos.Kmem
