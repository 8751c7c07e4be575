import Mcsos.Mm.KmemCoalesced

set_option autoImplicit false

/-! # What `kmem_free_checked` accepts

The call judges a pointer by the 40 bytes below it. A live pointer has its header there; any other
pointer into the heap has stale headers, the data of a client or, in the first 40 bytes of the
heap, memory in front of it. `freeReads` lists the headers the call reads, and `FreeKept` says
which pointers it handles as it should.
-/

namespace Mcsos.Kmem

open BlockList

/-! ## The headers a call reads -/

/-- The headers that the inner loop at `curr` reads. -/
def absorbReads : Nat → Nat → Bytes → List Nat
  | 0, _, _ => []
  | fuel + 1, curr, mem =>
    if isFree mem curr ≠ 0 ∧ next mem curr ≠ 0 then
      if isFree mem (next mem curr) ≠ 0 ∧ magic mem (next mem curr) = kmemMagic then
        curr :: next mem curr :: absorbReads fuel curr (absorbNext curr mem)
      else [curr, next mem curr]
    else [curr]

/-- The memory after the inner loop, if the call goes on behind it. -/
def afterAbsorb (inner curr : Nat) (mem : Bytes) : Option Bytes :=
  (absorbLoop inner curr mem).bind Sum.getLeft?

/-- The headers that the outer loop reads from `curr` on. -/
def coalesceReads (inner : Nat) : Nat → Nat → Bytes → List Nat
  | 0, _, _ => []
  | fuel + 1, curr, mem =>
    if curr = 0 then []
    else if magic mem curr ≠ kmemMagic then [curr]
    else
      curr :: absorbReads inner curr mem ++
        ((afterAbsorb inner curr mem).elim []
          (fun mem => coalesceReads inner fuel (next mem curr) mem))

/-- The headers that `kmem_free_checked` reads. -/
def freeReads (ptr : UInt64) (s : KmemState) : List Nat :=
  if !s.ready ∨ ptr = 0 then []
  else if ptr.toNat ≤ s.heapBase ∨ (s.heapBase + s.heapBytes) % 2 ^ 64 ≤ ptr.toNat then []
  else
    let block := (ptr.toNat + 2 ^ 64 - headerSize) % 2 ^ 64
    if magic s.mem block ≠ kmemMagic ∨ isFree s.mem block ≠ 0 then [block]
    else
      block :: coalesceReads (s.heapBytes + 1) (s.heapBytes + 1) s.heapBase
        (setIsFree s.mem block 1)

/-- The inner loop reads the header at `p` and headers of blocks behind it. -/
theorem absorbReads_mem {mem : Bytes} {p e fuel r : Nat} {b : Blk} {bs : List Blk}
    (hs : Seg mem p (b :: bs) 0) (ht : Tiles 40 p (b :: bs) e) (he : e ≤ 2 ^ 64)
    (hr : r ∈ absorbReads fuel p mem) : ∃ c ∈ b :: bs, c.addr = r := by
  induction bs generalizing b mem fuel with
  | nil =>
      cases fuel with
      | zero => cases hr
      | succ fuel =>
          have hlast : next mem p = 0 := hs.2.2
          rw [absorbReads, if_neg (fun h => h.2 hlast)] at hr
          exact ⟨b, List.mem_cons_self, hs.1.trans (List.mem_singleton.mp hr).symm⟩
  | cons c cs ih =>
      cases fuel with
      | zero => cases hr
      | succ fuel =>
          have hlink : next mem p = c.addr := hs.2.2.1.symm
          have hbfree : isFree mem p ≠ 0 ↔ b.free = true := by
            rw [← hs.1]
            exact hs.2.1.free_iff
          have hcfree : isFree mem c.addr ≠ 0 ↔ c.free = true := hs.2.2.2.1.free_iff
          have hhead : r = p → ∃ d ∈ b :: c :: cs, d.addr = r :=
            fun h => ⟨b, List.mem_cons_self, hs.1.trans h.symm⟩
          have hnext : r = c.addr → ∃ d ∈ b :: c :: cs, d.addr = r :=
            fun h => ⟨c, by simp, h.symm⟩
          rw [absorbReads, hlink] at hr
          split_ifs at hr with hgo hboth
          · rcases List.mem_cons.mp hr with hr | hr
            · exact hhead hr
            rcases List.mem_cons.mp hr with hr | hr
            · exact hnext hr
            · -- the blocks that the merged one is made of are blocks of the list
              have ht' : Tiles 40 p (merge 40 b c :: cs) e := by
                have h := tiles_push (b := b) ht.1 ht.2
                rwa [push_cons, if_pos (by simp [hbfree.mp hgo.1, hcfree.mp hboth.1])] at h
              obtain ⟨d, hd, hdr⟩ := ih (absorbNext_seg hs ht he) ht' hr
              rcases List.mem_cons.mp hd with rfl | hd
              · exact ⟨b, List.mem_cons_self, hdr⟩
              · exact ⟨d, by simp [hd], hdr⟩
          · rcases List.mem_cons.mp hr with hr | hr
            · exact hhead hr
            · exact hnext (List.mem_singleton.mp hr)
          · exact hhead (List.mem_singleton.mp hr)

/-- On a well-formed list the call reads the headers of the list and no others. -/
theorem coalesceReads_mem {mem : Bytes} {a p e inner fuel r : Nat} {bs : List Blk}
    (hs : Seg mem p bs 0) (ht : Tiles 40 a bs e) (he : e ≤ 2 ^ 64)
    (h0 : ∀ b ∈ bs, b.addr ≠ 0) (hinner : bs.length ≤ inner)
    (hr : r ∈ coalesceReads inner fuel p mem) : ∃ b ∈ bs, b.addr = r := by
  induction fuel generalizing mem a p bs with
  | zero => cases hr
  | succ fuel ih =>
      cases bs with
      | nil =>
          have hp : p = 0 := hs
          rw [coalesceReads, if_pos hp] at hr
          cases hr
      | cons b bs =>
          have hp : p ≠ 0 := hs.1 ▸ h0 b List.mem_cons_self
          have hap : a = p := ht.1.symm.trans hs.1
          subst hap
          have hm : magic mem a = kmemMagic := by
            rw [← hs.1]
            exact hs.2.1.magic_eq
          obtain ⟨mem1, b', bs', hloop, hs1, ht1, hsuf, -, -⟩ :=
            absorbLoop_spec hs ht he (by omega) (by simpa using hinner)
          have hafter : afterAbsorb inner a mem = some mem1 := by
            rw [afterAbsorb, hloop]
            rfl
          rw [coalesceReads, if_neg hp, if_neg (not_not.mpr hm), hafter] at hr
          rcases List.mem_append.mp hr with hr | hr
          · rcases List.mem_cons.mp hr with hr | hr
            · exact ⟨b, List.mem_cons_self, hs.1.trans hr.symm⟩
            · exact absorbReads_mem hs ht he hr
          · have hlen := hsuf.length_le
            simp only [List.length_cons] at hinner
            obtain ⟨c, hc, hcr⟩ := ih hs1.2.2 ht1.2
              (fun c hc => h0 c (List.mem_cons_of_mem _ (hsuf.subset hc))) (by omega) hr
            exact ⟨c, List.mem_cons_of_mem _ (hsuf.subset hc), hcr⟩

/-! ## Headers that are not those of a block

The bytes of the magic number are all different from 0, and the lowest one occurs once. So two
headers are at least 8 bytes apart, and a cleared `is_free` word lies on no magic number. -/

def magicByte (k : Nat) : UInt8 := UInt8.ofNat (kmemMagic / 256 ^ k)

theorem magic_byte {mem : Bytes} {p k : Nat} (hm : magic mem p = kmemMagic) (hk : k < 8) :
    mem (p + k) = magicByte k := by
  have hload : mem.load p 8 = (Bytes.zero.store 0 8 kmemMagic).load 0 8 := by
    rw [Bytes.load_store_same (by decide)]
    exact hm
  rw [Bytes.bytes_eq_of_load_eq hload k hk, Bytes.store, if_pos (by omega), Nat.zero_add,
    Nat.sub_zero, magicByte]

theorem magicByte_ne_zero : ∀ k, k < 8 → magicByte k ≠ 0 := by decide

theorem magicByte_first : ∀ k, k < 8 → magicByte k = magicByte 0 → k = 0 := by decide

theorem magic_apart {mem : Bytes} {p q : Nat} (hp : magic mem p = kmemMagic)
    (hq : magic mem q = kmemMagic) (hlt : p < q) : p + 8 ≤ q := by
  by_contra hnear
  obtain ⟨k, rfl⟩ := Nat.exists_eq_add_of_le (Nat.le_of_lt hlt)
  have hk : k < 8 := by omega
  have hfirst := magic_byte hq (show 0 < 8 by omega)
  rw [Nat.add_zero, magic_byte hp hk] at hfirst
  have h0 := magicByte_first k hk hfirst
  omega

theorem byte_of_load_zero {mem : Bytes} {off w i : Nat} (h : mem.load off w = 0) (h1 : off ≤ i)
    (h2 : i < off + w) : mem i = 0 := by
  obtain ⟨k, rfl⟩ := Nat.exists_eq_add_of_le h1
  have hle := Bytes.byte_le_load mem off (show k < w by omega)
  rw [h] at hle
  rcases Nat.mul_eq_zero.mp (Nat.le_zero.mp hle) with hz | hz
  · exact absurd hz (by positivity)
  · exact UInt8.toNat_inj.mp hz

/-- A header at `q` that is nobody's: it has the magic number and is not free. -/
structure Stray (mem : Bytes) (q : Nat) : Prop where
  magic_eq : magic mem q = kmemMagic
  used : isFree mem q = 0

theorem Stray.byte {mem : Bytes} {q i : Nat} (hq : Stray mem q) (h1 : q + 24 ≤ i)
    (h2 : i < q + 28) : mem i = 0 :=
  byte_of_load_zero hq.used h1 (by omega)

/-- The word the call sets does not meet the magic number of another header. -/
theorem Stray.off_magic {mem : Bytes} {q c : Nat} (hq : Stray mem q)
    (hc : magic mem c = kmemMagic) : c + 8 ≤ q + 24 ∨ q + 28 ≤ c := by
  by_contra hmeet
  -- some byte of the magic number would be a byte of the cleared word
  obtain ⟨k, hk, h1, h2⟩ : ∃ k, k < 8 ∧ q + 24 ≤ c + k ∧ c + k < q + 28 := by
    by_cases h : q + 24 ≤ c
    · exact ⟨0, by omega, by omega, by omega⟩
    · exact ⟨q + 24 - c, by omega, by omega, by omega⟩
  have hz := hq.byte h1 h2
  rw [magic_byte hc hk] at hz
  exact magicByte_ne_zero k hk hz

section Poke

variable {mem : Bytes} {q c : Nat}

theorem Stray.magic_poke (hq : Stray mem q) (hc : magic mem c = kmemMagic) :
    magic (setIsFree mem q 1) c = kmemMagic := by
  have hoff := hq.off_magic hc
  rw [← hc]
  exact Bytes.load_store_ne (by omega)

theorem Stray.apart (hq : Stray mem q) (hc : magic mem c = kmemMagic) (hne : q ≠ c) :
    q + 8 ≤ c ∨ c + 8 ≤ q := by
  rcases Nat.lt_or_gt_of_ne hne with hlt | hgt
  · exact Or.inl (magic_apart hq.magic_eq hc hlt)
  · exact Or.inr (magic_apart hc hq.magic_eq hgt)

theorem Stray.isFree_poke (hq : Stray mem q) (hc : magic mem c = kmemMagic) (hne : q ≠ c) :
    isFree (setIsFree mem q 1) c = isFree mem c := by
  have hapart := hq.apart hc hne
  exact Bytes.load_store_ne (by omega)

/-- A link to a block survives; the `NULL` of the last block may become 1. -/
theorem Stray.next_poke (hq : Stray mem q) (hc : magic mem c = kmemMagic) (hne : q ≠ c)
    (hlink : next mem c = 0 ∨ next mem c % 16 = 8) :
    next (setIsFree mem q 1) c = next mem c ∨
      (next mem c = 0 ∧ next (setIsFree mem q 1) c = 1) := by
  have hapart := hq.apart hc hne
  by_cases hmeet : c + 24 ≤ q + 24 ∨ q + 28 ≤ c + 16
  · exact Or.inl (Bytes.load_store_ne hmeet)
  -- the word covers the lowest byte of the link, which is therefore 0
  have hlow : mem (c + 16) = 0 := hq.byte (by omega) (by omega)
  have hzero : next mem c = 0 := by
    rcases hlink with h | h
    · exact h
    · rw [next, Bytes.load_succ, hlow] at h
      change (0 + 256 * _) % 16 = 8 at h
      omega
  have hbytes : ∀ i, c + 16 ≤ i → i < c + 24 → mem i = 0 := fun i h1 h2 =>
    byte_of_load_zero hzero h1 (by omega)
  have hpoked : ∀ i, c + 16 ≤ i → i < c + 24 → i ≠ q + 24 → setIsFree mem q 1 i = 0 := by
    intro i h1 h2 hne'
    rw [setIsFree, Bytes.store]
    split_ifs with hin
    · obtain ⟨k, hk⟩ := Nat.exists_eq_succ_of_ne_zero (show i - (q + 24) ≠ 0 by omega)
      have hlt : 1 < 256 ^ (k + 1) := Nat.one_lt_pow (by omega) (by omega)
      rw [hk, Nat.succ_eq_add_one, Nat.div_eq_of_lt hlt]
      rfl
    · exact hbytes i h1 h2
  by_cases hone : q + 8 = c
  · refine Or.inr ⟨hzero, ?_⟩
    have hfirst : setIsFree mem q 1 (c + 16) = 1 := by
      rw [setIsFree, Bytes.store, if_pos (by omega), show c + 16 - (q + 24) = 0 by omega]
      rfl
    rw [next, Bytes.load_of_high_zero (fun k h0 hk => hpoked _ (by omega) (by omega) (by omega)),
      hfirst]
    rfl
  · refine Or.inl ?_
    rw [hzero]
    exact Bytes.load_eq_zero (fun k hk => hpoked _ (by omega) (by omega) (by omega))

end Poke

/-! ## The loops on a merged list

With nothing to merge the loops look at magic numbers, states and links only, so it does not
matter that the sizes may have been hit. -/

/-- As `Seg`, sizes aside. -/
def Linked (mem : Bytes) : Nat → List Blk → Nat → Prop
  | p, [], q => p = q
  | p, b :: bs, q => b.addr = p ∧ magic mem p = kmemMagic ∧ (isFree mem p ≠ 0 ↔ b.free = true) ∧
      Linked mem (next mem p) bs q

/-- On a merged list the inner loop stops at once. -/
theorem absorbLoop_merged {mem : Bytes} {p q inner : Nat} {b c : Blk} {bs : List Blk}
    (hl : Linked mem p (b :: c :: bs) q) (hm : Merged (b :: c :: bs)) :
    absorbLoop (inner + 1) p mem = some (.inl mem) := by
  obtain ⟨-, -, hb, hc, -, hcf, -⟩ := hl
  have hboth := (merged_cons_cons.mp hm).1
  rw [absorbLoop, if_neg]
  rw [← hc] at hcf ⊢
  rw [hb, hcf]
  exact fun h => hboth ⟨h.1, h.2.2⟩

theorem coalesceLoop_merged {mem : Bytes} {p inner fuel : Nat} {bs : List Blk}
    (hl : Linked mem p bs 0) (hm : Merged bs) (h0 : ∀ b ∈ bs, b.addr ≠ 0)
    (hfuel : bs.length < fuel) : coalesceLoop (inner + 1) fuel p mem = some (0, mem) := by
  induction bs generalizing p fuel with
  | nil =>
      obtain ⟨k, rfl⟩ := Nat.exists_eq_succ_of_ne_zero (by omega : fuel ≠ 0)
      rw [coalesceLoop, if_pos (show p = 0 from hl)]
  | cons b bs ih =>
      obtain ⟨k, rfl⟩ := Nat.exists_eq_succ_of_ne_zero (by omega : fuel ≠ 0)
      have hp : p ≠ 0 := hl.1 ▸ h0 b List.mem_cons_self
      have hstop : absorbLoop (inner + 1) p mem = some (.inl mem) := by
        cases bs with
        | nil =>
            have hlast : next mem p = 0 := hl.2.2.2
            rw [absorbLoop, if_neg (fun h => h.2.1 hlast)]
        | cons c cs => exact absorbLoop_merged hl hm
      rw [coalesceLoop, if_neg hp, if_neg (not_not.mpr hl.2.1), hstop]
      exact ih hl.2.2.2 hm.tail
        (fun c hc => h0 c (List.mem_cons_of_mem _ hc)) (by simpa using hfuel)

/-- A link that leads out of a merged list is followed. -/
theorem coalesceReads_end {mem : Bytes} {p q inner fuel : Nat} {bs : List Blk}
    (hl : Linked mem p bs q) (hm : Merged bs) (h0 : ∀ b ∈ bs, b.addr ≠ 0) (hq : q ≠ 0)
    (hfuel : bs.length < fuel) : q ∈ coalesceReads (inner + 1) fuel p mem := by
  induction bs generalizing p fuel with
  | nil =>
      obtain ⟨k, rfl⟩ := Nat.exists_eq_succ_of_ne_zero (by omega : fuel ≠ 0)
      obtain rfl : p = q := hl
      rw [coalesceReads, if_neg hq]
      split_ifs <;> simp
  | cons b bs ih =>
      obtain ⟨k, rfl⟩ := Nat.exists_eq_succ_of_ne_zero (by omega : fuel ≠ 0)
      have hp : p ≠ 0 := hl.1 ▸ h0 b List.mem_cons_self
      rw [coalesceReads, if_neg hp, if_neg (not_not.mpr hl.2.1)]
      by_cases hread : q ∈ absorbReads (inner + 1) p mem
      · simp [hread]
      have hstop : absorbLoop (inner + 1) p mem = some (.inl mem) := by
        cases bs with
        | nil =>
            -- a free last block would have read the header the link leads to
            have hlast : next mem p = q := hl.2.2.2
            rw [absorbLoop, if_neg]
            rintro ⟨h1, h2, -⟩
            refine hread ?_
            rw [absorbReads, if_pos ⟨h1, h2⟩, hlast]
            split_ifs <;> simp
        | cons c cs => exact absorbLoop_merged hl hm
      have hafter : afterAbsorb (inner + 1) p mem = some mem := by
        rw [afterAbsorb, hstop]
        rfl
      rw [hafter]
      have hrest := ih hl.2.2.2 hm.tail
        (fun c hc => h0 c (List.mem_cons_of_mem _ hc)) (by simpa using hfuel)
      exact List.mem_append_right _ hrest

/-- After the word of a stray header is set, the list still reads as before, sizes aside, and
ends at `NULL` or at 1. -/
theorem Seg.poke {mem : Bytes} {p q : Nat} {bs : List Blk} (hs : Seg mem p bs 0)
    (hq : Stray mem q) (hne : ∀ b ∈ bs, q ≠ b.addr) (haligned : ∀ b ∈ bs, b.addr % 16 = 8) :
    ∃ r, (r = 0 ∨ r = 1) ∧ Linked (setIsFree mem q 1) p bs r := by
  induction bs generalizing p with
  | nil => exact ⟨0, Or.inl rfl, hs⟩
  | cons b bs ih =>
      obtain ⟨rfl, hh, hrest⟩ := hs
      have hb := hne b List.mem_cons_self
      have hmagic := hq.magic_poke hh.magic_eq
      have hfree := hq.isFree_poke hh.magic_eq hb
      have hlink : next mem b.addr = 0 ∨ next mem b.addr % 16 = 8 := by
        cases bs with
        | nil => exact Or.inl hrest
        | cons c cs =>
            rw [← hrest.1]
            exact Or.inr (haligned c (by simp))
      rcases hq.next_poke hh.magic_eq hb hlink with hsame | ⟨hlast, hone⟩
      · obtain ⟨r, hr, hl⟩ := ih hrest (fun c hc => hne c (List.mem_cons_of_mem _ hc))
          (fun c hc => haligned c (List.mem_cons_of_mem _ hc))
        refine ⟨r, hr, rfl, hmagic, ?_, ?_⟩
        · rw [hfree]
          exact hh.free_iff
        · rwa [hsame]
      · -- the link is that of the last block
        cases bs with
        | nil =>
            refine ⟨1, Or.inr rfl, rfl, hmagic, ?_, hone⟩
            rw [hfree]
            exact hh.free_iff
        | cons c cs =>
            have haddr := haligned c (by simp)
            rw [hrest.1, hlast] at haddr
            cases haddr

/-! ## Which pointers are handled -/

variable {base bytes : UInt64} {s s' : KmemState} {live live' : List Nat} {bs : List Blk}

/-- What `kmem_free_checked` promises about a pointer: it reads headers of the heap only, frees
nothing but a live block, and refuses everything else without touching the blocks. -/
structure FreeContract (ptr : UInt64) (s : KmemState) (live : List Nat) : Prop where
  reads : ∀ p ∈ freeReads ptr s,
    s.heapBase ≤ p ∧ p + headerSize ≤ s.heapBase + s.heapBytes
  freed : ptr ≠ 0 → ∀ s', kmemFreeChecked ptr s = some (0, s') → ptr.toNat ∈ live
  refused : ptr ≠ 0 → ptr.toNat ∉ live → ∃ rc s', kmemFreeChecked ptr s = some (rc, s') ∧
    rc < 0 ∧ kmemBlocks s' = kmemBlocks s

/-- The pointer is `NULL`, out of range or live, or it lies at least a header into the heap and
the bytes below it are not those of a used header. -/
def FreeKept (ptr : UInt64) (s : KmemState) (live : List Nat) : Prop :=
  ptr = 0 ∨ OutOfRange ptr s ∨ ptr.toNat ∈ live ∨
    (s.heapBase + headerSize ≤ ptr.toNat ∧ ¬Stray s.mem (ptr.toNat - headerSize))

theorem freeContract_null : FreeContract 0 s live := by
  refine ⟨fun p hp => ?_, fun h => absurd rfl h, fun h => absurd rfl h⟩
  rw [freeReads, if_pos (Or.inr rfl)] at hp
  cases hp

theorem HeapInv.freeContract_outOfRange (hi : HeapInv s bs) {ptr : UInt64} (hp0 : ptr ≠ 0)
    (hout : OutOfRange ptr s) : FreeContract ptr s live := by
  have hcall := hi.kmemFree_outOfRange hp0 hout
  refine ⟨fun p hp => ?_, fun _ s' h => ?_, fun _ _ => ⟨-3, s, hcall, by decide, rfl⟩⟩
  · unfold OutOfRange at hout
    rw [freeReads, if_neg (by simp [hi.ready, hp0]), if_pos hout] at hp
    cases hp
  · rw [hcall] at h
    cases h

section InRange

variable {ptr : UInt64} (hp0 : ptr ≠ 0) (hin : ¬OutOfRange ptr s)
  (hroom : s.heapBase + 40 ≤ ptr.toNat)

include hp0 hin hroom

/-- The call on a pointer that passes the range check, a header into the heap. -/
theorem HeapInv.kmemFree_room (hi : HeapInv s bs) : kmemFreeChecked ptr s =
    if magic s.mem (ptr.toNat - 40) ≠ kmemMagic then some (-4, s)
    else if isFree s.mem (ptr.toNat - 40) ≠ 0 then some (-2, s)
    else (coalesceLoop (s.heapBytes + 1) (s.heapBytes + 1) s.heapBase
      (setIsFree s.mem (ptr.toNat - 40) 1)).map (fun r => (r.1, { s with mem := r.2 })) := by
  have hlt := ptr.toNat_lt
  unfold OutOfRange at hin
  rw [kmemFreeChecked, if_neg (by simp [hi.ready]), if_neg hp0, if_neg hin]
  simp only [headerSize, show (ptr.toNat + 2 ^ 64 - 40) % 2 ^ 64 = ptr.toNat - 40 by omega]

theorem HeapInv.freeReads_room (hi : HeapInv s bs) : freeReads ptr s =
    if magic s.mem (ptr.toNat - 40) ≠ kmemMagic ∨ isFree s.mem (ptr.toNat - 40) ≠ 0 then
      [ptr.toNat - 40]
    else (ptr.toNat - 40) :: coalesceReads (s.heapBytes + 1) (s.heapBytes + 1) s.heapBase
      (setIsFree s.mem (ptr.toNat - 40) 1) := by
  have hlt := ptr.toNat_lt
  unfold OutOfRange at hin
  rw [freeReads, if_neg (by simp [hi.ready, hp0]), if_neg hin]
  simp only [headerSize, show (ptr.toNat + 2 ^ 64 - 40) % 2 ^ 64 = ptr.toNat - 40 by omega]

/-- No used header below the pointer: the call is refused after one look. -/
theorem HeapInv.kmemFree_notStray (hi : HeapInv s bs) (hs : ¬Stray s.mem (ptr.toNat - 40)) :
    (kmemFreeChecked ptr s = some (-4, s) ∨ kmemFreeChecked ptr s = some (-2, s)) ∧
      freeReads ptr s = [ptr.toNat - 40] := by
  have hbad : magic s.mem (ptr.toNat - 40) ≠ kmemMagic ∨ isFree s.mem (ptr.toNat - 40) ≠ 0 := by
    by_contra hgood
    push Not at hgood
    exact hs ⟨hgood.1, hgood.2⟩
  rw [hi.kmemFree_room hp0 hin hroom, hi.freeReads_room hp0 hin hroom, if_pos hbad]
  refine ⟨?_, rfl⟩
  by_cases hmagic : magic s.mem (ptr.toNat - 40) ≠ kmemMagic
  · exact Or.inl (if_pos hmagic)
  · rw [if_neg hmagic, if_pos (hbad.resolve_left hmagic)]
    exact Or.inr rfl

theorem HeapInv.freeContract_notStray (hi : HeapInv s bs)
    (hs : ¬Stray s.mem (ptr.toNat - 40)) : FreeContract ptr s live := by
  have hend : ptr.toNat < s.heapBase + s.heapBytes := by
    have htop := hi.top_le
    unfold OutOfRange at hin
    omega
  obtain ⟨hcall, hreads⟩ := hi.kmemFree_notStray hp0 hin hroom hs
  refine ⟨fun p hp => ?_, fun _ s' h => ?_, fun _ _ => ?_⟩
  · rw [hreads] at hp
    rw [List.mem_singleton.mp hp]
    unfold headerSize
    omega
  · rcases hcall with hcall | hcall <;> (rw [hcall] at h; cases h)
  · rcases hcall with hcall | hcall
    · exact ⟨-4, s, hcall, by decide, rfl⟩
    · exact ⟨-2, s, hcall, by decide, rfl⟩

end InRange

/-- A live pointer is no problem: the loops stay on the list. -/
theorem Good.freeContract_live (hg : Good base bytes s live bs) {ptr : UInt64}
    (hlive : ptr.toNat ∈ live) : FreeContract ptr s live := by
  refine ⟨fun p hp => ?_, fun _ _ _ => hlive, fun _ h => absurd hlive h⟩
  obtain ⟨b, hb, -, heq⟩ := (hg.owned.mem_iff _).mp hlive
  obtain ⟨pre, post, rfl⟩ := List.append_of_mem hb
  have hinside : ∀ c ∈ pre ++ b :: post,
      s.heapBase ≤ c.addr ∧ c.addr + headerSize ≤ s.heapBase + s.heapBytes := by
    intro c hc
    have hin := tiles_mem hg.inv.tiles hc
    unfold headerSize
    omega
  have hp0 : ptr ≠ 0 := by
    rintro rfl
    simp at heq
  by_cases hout : OutOfRange ptr s
  · have hcontract : FreeContract ptr s live := hg.inv.freeContract_outOfRange hp0 hout
    exact hcontract.reads p hp
  have hroom : s.heapBase + 40 ≤ ptr.toNat := by
    have hin := (hinside b hb).1
    omega
  rw [hg.inv.freeReads_room hp0 hout hroom, show ptr.toNat - 40 = b.addr by omega] at hp
  split_ifs at hp with hbad
  · rw [List.mem_singleton.mp hp]
    exact hinside b hb
  rcases List.mem_cons.mp hp with rfl | hp
  · exact hinside b hb
  · have hfree := hg.inv.setFree
    have hlen := hfree.length_le
    obtain ⟨c, hc, rfl⟩ := coalesceReads_mem hfree.seg hfree.tiles hfree.top_le
      hfree.addr_ne_zero (Nat.le_succ_of_le hlen) hp
    -- the freed block is where it was
    rcases List.mem_append.mp hc with hc | hc
    · exact hinside c (by simp [hc])
    rcases List.mem_cons.mp hc with rfl | hc
    · exact hinside b hb
    · exact hinside c (by simp [hc])

/-- A pointer into the first 40 bytes of the heap makes the call read in front of it. -/
theorem Good.not_freeContract_front (hg : Good base bytes s live bs) {ptr : UInt64}
    (hp0 : ptr ≠ 0) (hin : ¬OutOfRange ptr s) (hfront : ptr.toNat < s.heapBase + 40) :
    ¬FreeContract ptr s live := by
  intro hc
  have hread : (ptr.toNat + 2 ^ 64 - headerSize) % 2 ^ 64 ∈ freeReads ptr s := by
    unfold OutOfRange at hin
    rw [freeReads, if_neg (by simp [hg.inv.ready, hp0]), if_neg hin]
    dsimp only
    split_ifs <;> simp
  obtain ⟨h1, h2⟩ := hc.reads _ hread
  have htop := hg.inv.top_le
  have hlt := ptr.toNat_lt
  have hpos : ptr.toNat ≠ 0 := fun h => hp0 (UInt64.toNat_inj.mp h)
  unfold headerSize at h1 h2
  omega

/-- A stray header is taken for a block: the call returns 0, or it reads a header at address 1. -/
theorem Good.not_freeContract_stray (hg : Good base bytes s live bs) (hm : Merged bs)
    {ptr : UInt64} (hp0 : ptr ≠ 0) (hin : ¬OutOfRange ptr s) (hlive : ptr.toNat ∉ live)
    (hroom : s.heapBase + 40 ≤ ptr.toNat) (hs : Stray s.mem (ptr.toNat - 40)) :
    ¬FreeContract ptr s live := by
  intro hc
  have hne : ∀ b ∈ bs, ptr.toNat - 40 ≠ b.addr := by
    intro b hb heq
    have hfree := (hg.inv.header_of_mem hb).free_iff
    rw [← heq] at hfree
    have hu : b.free = false := by
      by_contra hf
      exact hfree.mpr (Bool.not_eq_false _ ▸ hf) hs.used
    exact hlive ((hg.owned.mem_iff _).mpr ⟨b, hb, hu, by omega⟩)
  obtain ⟨r, hr, hl⟩ := hg.inv.seg.poke hs hne (fun b hb => (hg.inv.aligned b hb).1)
  have hlen := hg.inv.length_le
  have hnotbad : ¬(magic s.mem (ptr.toNat - 40) ≠ kmemMagic ∨
      isFree s.mem (ptr.toNat - 40) ≠ 0) := by
    rintro (h | h)
    · exact h hs.magic_eq
    · exact h hs.used
  rcases hr with rfl | rfl
  · -- the loops find nothing wrong
    have hcall := hg.inv.kmemFree_room hp0 hin hroom
    rw [if_neg (not_not.mpr hs.magic_eq), if_neg (not_not.mpr hs.used),
      coalesceLoop_merged hl hm hg.inv.addr_ne_zero (by omega)] at hcall
    exact hlive (hc.freed hp0 _ hcall)
  · -- the link of the last block has become 1
    have hread : 1 ∈ freeReads ptr s := by
      rw [hg.inv.freeReads_room hp0 hin hroom, if_neg hnotbad]
      exact List.mem_cons_of_mem _
        (coalesceReads_end hl hm hg.inv.addr_ne_zero one_ne_zero (by omega))
    have hlow := (hc.reads 1 hread).1
    have hbase := hg.base_eq
    have hpos := hg.inv.base_pos
    omega

/-- Which pointers are handled as they should be. -/
theorem Good.freeContract_iff (hg : Good base bytes s live bs) (hm : Merged bs) (ptr : UInt64) :
    FreeContract ptr s live ↔ FreeKept ptr s live := by
  constructor
  · intro hc
    by_contra hkept
    unfold FreeKept at hkept
    push Not at hkept
    obtain ⟨hp0, hin, hlive, hstray⟩ := hkept
    by_cases hroom : s.heapBase + 40 ≤ ptr.toNat
    · exact hg.not_freeContract_stray hm hp0 hin hlive hroom (hstray hroom) hc
    · exact hg.not_freeContract_front hp0 hin (by omega) hc
  · intro hkept
    by_cases hp0 : ptr = 0
    · rw [hp0]
      exact freeContract_null
    by_cases hin : OutOfRange ptr s
    · exact hg.inv.freeContract_outOfRange hp0 hin
    rcases hkept with h | h | h | ⟨hroom, hs⟩
    · exact absurd h hp0
    · exact absurd h hin
    · exact hg.freeContract_live h
    · exact hg.inv.freeContract_notStray hp0 hin hroom hs

/-! ## Runs -/

/-- Runs of requests that fit, of clients that keep to their blocks, and of frees of any pointer
that is handled as it should be. -/
inductive FreeRun (base bytes : UInt64) : KmemState → List Nat → Prop
  | init {s0 s : KmemState} (hinit : kmemInit base bytes s0 = (0, s)) : FreeRun base bytes s []
  | step {s s' : KmemState} {live live' : List Nat} {op : KmemOp}
      (hrun : FreeRun base bytes s live) (hop : OpFits s op)
      (hstep : KmemStep s live op s' live') : FreeRun base bytes s' live'
  | free {s s' : KmemState} {live : List Nat} {ptr : UInt64} {rc : Int}
      (hrun : FreeRun base bytes s live) (hkept : FreeKept ptr s live)
      (hcall : kmemFreeChecked ptr s = some (rc, s')) :
      FreeRun base bytes s' (if rc = 0 then live.erase ptr.toNat else live)

/-- A pointer that is handled and not live is refused, and nothing at all changes. -/
theorem FreeKept.refused {ptr : UInt64} (hkept : FreeKept ptr s live) (hi : HeapInv s bs)
    (hp0 : ptr ≠ 0) (hlive : ptr.toNat ∉ live) :
    ∃ rc : Int, rc ≠ 0 ∧ kmemFreeChecked ptr s = some (rc, s) := by
  by_cases hin : OutOfRange ptr s
  · exact ⟨-3, by decide, hi.kmemFree_outOfRange hp0 hin⟩
  rcases hkept with h | h | h | ⟨hroom, hs⟩
  · exact absurd h hp0
  · exact absurd h hin
  · exact absurd h hlive
  · rcases (hi.kmemFree_notStray hp0 hin hroom hs).1 with hcall | hcall
    · exact ⟨-4, by decide, hcall⟩
    · exact ⟨-2, by decide, hcall⟩

theorem FreeRun.good_merged (hwrap : base.toNat + bytes.toNat ≤ 2 ^ 64)
    (hrun : FreeRun base bytes s live) : ∃ bs, Good base bytes s live bs ∧ Merged bs := by
  have hnext : ∀ {s s' : KmemState} {live live' : List Nat} {bs : List Blk} {op : KmemOp},
      Good base bytes s live bs → Merged bs → OpFits s op → KmemStep s live op s' live' →
      ∃ bs', Good base bytes s' live' bs' ∧ Merged bs' := by
    intro s s' live live' bs op hg hm hop hstep
    obtain ⟨bs', hg'⟩ := hg.step hop hstep
    have hm' := hg.merged_step hm hop hstep
    rw [hg'.inv.blocks_eq] at hm'
    exact ⟨bs', hg', hm'⟩
  induction hrun with
  | init hinit => exact ⟨_, good_init hwrap hinit, List.isChain_singleton _⟩
  | step hrun hop hstep ih =>
      obtain ⟨bs, hg, hm⟩ := ih
      exact hnext hg hm hop hstep
  | @free s s' live ptr rc hrun hkept hcall ih =>
      obtain ⟨bs, hg, hm⟩ := ih
      by_cases hlive : ptr = 0 ∨ ptr.toNat ∈ live
      · have hop : OpFits s (.free ptr) := trivial
        exact hnext hg hm hop (.free hlive hcall)
      · push Not at hlive
        obtain ⟨rc', hrc, hcall'⟩ := hkept.refused hg.inv hlive.1 hlive.2
        obtain ⟨rfl, rfl⟩ := Prod.mk.inj (Option.some.inj (hcall.symm.trans hcall'))
        rw [if_neg hrc]
        exact ⟨bs, hg, hm⟩

/-- **Which frees are checked**: after any such run and for every pointer, `kmem_free_checked`
keeps its contract exactly when the pointer is `NULL`, out of range or live, or lies at least a
header into the heap without a used header below it. -/
theorem kmemRun_free_iff (hwrap : base.toNat + bytes.toNat ≤ 2 ^ 64)
    (hrun : FreeRun base bytes s live) (ptr : UInt64) :
    FreeContract ptr s live ↔ FreeKept ptr s live := by
  obtain ⟨bs, hg, hm⟩ := hrun.good_merged hwrap
  exact hg.freeContract_iff hm ptr

/-- The plain heap with one block of 120 bytes handed out. -/
theorem plainHeap_alloc : ∃ s, FreeRun 0x1003 0x1000 s [0x1030] ∧
    kmemAlloc 100 plainHeap = some (0x1030, s) := by
  have hptr : (kmemAlloc 100 plainHeap).map (fun r => r.1) = some 0x1030 := by decide +kernel
  obtain ⟨⟨p, s⟩, hcall, rfl⟩ := Option.map_eq_some_iff.mp hptr
  have hstep : KmemStep plainHeap [] (.alloc 100) s [0x1030] := .alloc hcall
  have hfits : OpFits plainHeap (.alloc 100) := fun _ _ _ _ => by decide
  exact ⟨s, .step (.init plainHeap_init) hfits hstep, hcall⟩

/-- A pointer into the middle of a block of zeros is refused. -/
theorem kmemRun_free_plain :
    ∃ s, FreeRun 0x1003 0x1000 s [0x1030] ∧ FreeContract 0x1058 s [0x1030] := by
  obtain ⟨s, hrun, hcall⟩ := plainHeap_alloc
  have hmagic : (kmemAlloc 100 plainHeap).map (fun r =>
      (decide (r.2.heapBase + headerSize ≤ 0x1058), magic r.2.mem 0x1030)) = some (true, 0) := by
    decide +kernel
  rw [hcall] at hmagic
  obtain ⟨hroom, hzero⟩ := Prod.mk.inj (Option.some.inj hmagic)
  refine ⟨s, hrun, (kmemRun_free_iff (by decide) hrun 0x1058).mpr ?_⟩
  refine Or.inr (Or.inr (Or.inr ⟨of_decide_eq_true hroom, fun hs => ?_⟩))
  have hbad : magic s.mem 0x1030 = kmemMagic := hs.magic_eq
  rw [hzero] at hbad
  cases hbad

/-- A client writes the magic number at the start of its block; the pointer 40 bytes into that
block, which was never handed out, is then freed with result 0. -/
theorem kmemFreeChecked_frees_stray :
    ¬∀ (base bytes : UInt64) (s : KmemState) (live : List Nat) (ptr : UInt64),
      base.toNat + bytes.toNat ≤ 2 ^ 64 → FreeRun base bytes s live →
      FreeContract ptr s live := by
  intro hall
  obtain ⟨s, hrun, hcall⟩ := plainHeap_alloc
  have heval : (kmemAlloc 100 plainHeap).map (fun r => (blockSize r.2 0x1030,
      (kmemFreeChecked 0x1058 { r.2 with mem := setMagic r.2.mem 0x1030 kmemMagic }).map
        (fun r => r.1))) = some (120, some 0) := by decide +kernel
  rw [hcall] at heval
  obtain ⟨hsize, hfree⟩ := Prod.mk.inj (Option.some.inj heval)
  obtain ⟨⟨rc, s'⟩, hfree, rfl⟩ := Option.map_eq_some_iff.mp hfree
  have hwrite : KmemStep s [0x1030] (.client (setMagic s.mem 0x1030 kmemMagic))
      { s with mem := setMagic s.mem 0x1030 kmemMagic } [0x1030] := by
    refine .client (fun i hi => Or.inl ⟨0x1030, List.mem_singleton_self _, ?_⟩)
    rw [show blockSize s 0x1030 = 120 from hsize]
    by_contra hout
    refine hi ?_
    rw [setMagic, Bytes.store, if_neg (by omega)]
  have hfits : OpFits s (.client (setMagic s.mem 0x1030 kmemMagic)) := trivial
  have hcontract := hall _ _ _ _ 0x1058 (by decide) (.step hrun hfits hwrite)
  have hlive := hcontract.freed (by decide) s' hfree
  exact absurd (List.mem_singleton.mp hlive) (by decide)

end Mcsos.Kmem
