import Mcsos.Mm.KmemObjects

set_option autoImplicit false

/-! # Runs of the kernel heap, on its objects

Each call writes headers and free blocks only, so the bytes of the objects stay. From `kmem_init` on
the heap in memory gives the answers of the heap of objects.
-/

namespace Mcsos.Kmem

open BlockList

variable {s s' : KmemState} {o o' : Objects}

/-! ## Blocks -/

/-- The block that is taken, in its place. -/
theorem takeFirst_eq {n : Nat} {bs : List Blk} :
    (firstFit n bs = none → takeFirst n bs = none) ∧
      ∀ b, firstFit n bs = some b → b.free = true ∧ n ≤ b.size ∧ ∃ pre post,
        bs = pre ++ b :: post ∧ takeFirst n bs = some (b.addr + 40, pre ++ take n b ++ post) := by
  induction bs with
  | nil => exact ⟨fun _ => rfl, fun b hb => by cases hb⟩
  | cons c bs ih =>
      rw [firstFit, List.find?_cons, takeFirst]
      by_cases hfit : c.free = true ∧ n ≤ c.size
      · rw [if_pos hfit]
        simp only [hfit.1, hfit.2, decide_true, Bool.and_self, Option.some_inj]
        refine ⟨fun h => (by cases h), ?_⟩
        rintro b rfl
        exact ⟨hfit.1, hfit.2, [], bs, rfl, rfl⟩
      · rw [if_neg hfit]
        have hno : (c.free && decide (n ≤ c.size)) = false := by
          simpa using hfit
        simp only [hno]
        refine ⟨fun h => by rw [ih.1 h]; rfl, fun b hb => ?_⟩
        obtain ⟨hfree, hsize, pre, post, rfl, htake⟩ := ih.2 b hb
        exact ⟨hfree, hsize, c :: pre, post, rfl, by rw [htake]; rfl⟩

/-- A used block is known by its payload. -/
theorem Objects.block_some {p : Nat} {b : Blk} (hb : o.block p = some b) :
    b ∈ o.blocks ∧ b.free = false ∧ p = b.addr + 40 := by
  have hmem := List.mem_of_find?_eq_some hb
  have hpred := List.find?_some hb
  simp only [Bool.and_eq_true, Bool.not_eq_true', beq_iff_eq] at hpred
  exact ⟨hmem, hpred.1, hpred.2.symm⟩

/-- The blocks in which one is given back. -/
theorem map_free {bs pre post : List Blk} {b : Blk} {a e : Nat} (hbs : bs = pre ++ b :: post)
    (ht : Tiles 40 a bs e) :
    (bs.map fun c => if c.addr = b.addr then { c with free := true } else c) =
      pre ++ { b with free := true } :: post := by
  subst hbs
  obtain ⟨m, hpre, hb, hpost⟩ := tiles_append.mp ht
  have hsame : ∀ cs : List Blk, (∀ c ∈ cs, c.addr ≠ b.addr) →
      (cs.map fun c => if c.addr = b.addr then { c with free := true } else c) = cs := by
    intro cs hcs
    rw [List.map_congr_left fun c hc => if_neg (hcs c hc), List.map_id']
  rw [List.map_append, List.map_cons, if_pos rfl, hsame pre, hsame post]
  · intro c hc
    have hin := tiles_mem hpost hc
    omega
  · intro c hc
    have hin := tiles_mem hpre hc
    omega

/-- A free writes headers only. -/
theorem HeapInv.free_frame (hi : HeapInv s o.blocks) {p : UInt64} {rc : Int} {b : Blk}
    (hb : b ∈ o.blocks) (hp : p.toNat = b.addr + 40)
    (hcall : kmemFreeChecked p s = some (rc, s')) {i : Nat}
    (hout : ∀ c ∈ o.blocks, i < c.addr ∨ c.addr + 40 ≤ i) : s'.mem i = s.mem i := by
  have hblock : (p.toNat + 2 ^ 64 - headerSize) % 2 ^ 64 = b.addr := by
    have hbound := p.toNat_lt
    unfold headerSize
    omega
  obtain ⟨pre, post, hbs⟩ := List.append_of_mem hb
  rw [hbs] at hi
  have hset : ∀ c ∈ pre ++ { b with free := true } :: post, i < c.addr ∨ c.addr + 40 ≤ i := by
    intro c hc
    rw [hbs] at hout
    rcases List.mem_append.mp hc with hc | hc
    · exact hout c (by simp [hc])
    rcases List.mem_cons.mp hc with rfl | hc
    · exact hout b (by simp)
    · exact hout c (by simp [hc])
  have hlen : (pre ++ { b with free := true } :: post).length ≤ s.heapBytes :=
    hi.setFree.length_le
  obtain ⟨mem', hrun, -, hframe⟩ := coalesceLoop_spec hi.setFree.seg hi.setFree.tiles
    hi.setFree.top_le hi.setFree.addr_ne_zero
    (by omega : _ ≤ s.heapBytes + 1) (by omega : _ < s.heapBytes + 1)
  unfold kmemFreeChecked at hcall
  simp only [hblock] at hcall
  split_ifs at hcall
  · cases hcall; rfl
  · cases hcall; rfl
  · cases hcall; rfl
  · cases hcall; rfl
  · cases hcall; rfl
  · simp only at hrun
    rw [hrun] at hcall
    cases hcall
    dsimp only
    rw [hframe i hset]
    have hb' := hout b hb
    exact if_neg (by omega)

namespace HoldsObjects

/-! ## Requests -/

/-- Memory that is the same in the payloads, and the blocks of a state in order. -/
theorem congr (h : HoldsObjects s o) {mem : Bytes} {bs : List Blk}
    (hinv : HeapInv { s with mem := mem } bs)
    (hmem : ∀ i, InPayload o.blocks i → mem i = s.mem i)
    (hbs : ∀ i, InPayload o.blocks i → InPayload bs i) :
    HoldsObjects { s with mem := mem } { o with blocks := bs } where
  inv := hinv
  top := h.top
  byte i v hv := (hmem i (h.payload i v hv)).trans (h.byte i v hv)
  payload i v hv := hbs i (h.payload i v hv)

theorem roundUp_le {n : Nat} (hn : n ≤ 2 ^ 32 - 64) : roundUp n = (n + 15) / 16 * 16 := by
  rw [roundUp_eq]
  omega

/-- A request, and the block behind the pointer that it returns. -/
theorem alloc (h : HoldsObjects s o) {n : UInt64} (hn : n.toNat ≤ 2 ^ 32 - 64) :
    ∃ s', kmemAlloc n s = some ((o.alloc n.toNat).1, s') ∧
      HoldsObjects s' (o.alloc n.toNat).2 ∧
      ((o.alloc n.toNat).1 ≠ 0 → ∃ d ∈ (o.alloc n.toNat).2.blocks, d.free = false ∧
        (o.alloc n.toNat).1 = d.addr + 40 ∧ n.toNat ≤ d.size) := by
  rcases Decidable.eq_or_ne n 0 with rfl | hn0
  · exact ⟨s, by simp [kmemAlloc, Objects.alloc], h, fun h0 => absurd rfl h0⟩
  have hpos : n.toNat ≠ 0 := fun h0 => hn0 (UInt64.toNat_inj.mp h0)
  have hround := roundUp_le hn
  rw [kmemAlloc_eq h.inv hn0, hround, Objects.alloc, if_neg hpos]
  cases hfirst : firstFit ((n.toNat + 15) / 16 * 16) o.blocks with
  | none =>
      rw [takeFirst_eq.1 hfirst]
      exact ⟨s, rfl, h, fun h0 => absurd rfl h0⟩
  | some b =>
      obtain ⟨hfree, hsize, pre, post, hbs, htake⟩ := takeFirst_eq.2 b hfirst
      rw [htake]
      have hinv := h.inv
      rw [hbs] at hinv
      have hb : b ∈ pre ++ b :: post := by simp
      have hend := (tiles_mem hinv.tiles hb).2
      have htop := hinv.top_le
      obtain ⟨d, ds, hhead, hda, hdf⟩ := take_head ((n.toNat + 15) / 16 * 16) b
      have hd : d ∈ take ((n.toNat + 15) / 16 * 16) b := by simp [hhead]
      obtain ⟨-, hlo, -⟩ := take_used hsize hd hdf
      refine ⟨_, rfl, h.congr (hinv.takeBlock (by omega) (by omega)) ?_ ?_, fun _ => ?_⟩
      · -- the block that is taken was free
        rintro i ⟨c, hc, hu, h1, h2⟩
        rw [hbs] at hc
        have hne : c ≠ b := by
          rintro rfl
          rw [hfree] at hu
          cases hu
        have hapart := tiles_disjoint hinv.tiles hc hb hne
        exact takeBlock_frame (hinv.header_of_mem hb) (by omega) (by omega) (by omega) i (by omega)
      · rintro i ⟨c, hc, hu, h1, h2⟩
        refine ⟨c, ?_, hu, h1, h2⟩
        rw [hbs] at hc
        rcases List.mem_append.mp hc with hc | hc
        · simp [hc]
        rcases List.mem_cons.mp hc with rfl | hc
        · rw [hfree] at hu
          cases hu
        · simp [hc]
      · exact ⟨d, by simp [hd], hdf, by rw [hda], by omega⟩

/-- The bytes that a used block gets. -/
theorem setBytes (h : HoldsObjects s o) {b : Blk} (hb : b ∈ o.blocks) (hu : b.free = false)
    {p n : Nat} (hp : b.addr + 40 ≤ p) (hn : p + n ≤ b.addr + 40 + b.size) {mem : Bytes}
    {f : Nat → UInt8} (hin : ∀ i, p ≤ i → i < p + n → mem i = f (i - p))
    (hout : ∀ i, i < p ∨ p + n ≤ i → mem i = s.mem i) :
    HoldsObjects { s with mem := mem } (o.setBytes p n fun k => some (f k)) where
  inv := by
    refine h.inv.congr fun c hc i h1 h2 => hout i ?_
    unfold headerSize at h2
    rcases Decidable.eq_or_ne c b with rfl | hne
    · omega
    · have hapart := tiles_disjoint h.inv.tiles hc hb hne
      omega
  top := h.top
  byte i v hv := by
    simp only [Objects.setBytes] at hv
    split_ifs at hv with hi
    · obtain rfl := Option.some_inj.mp hv
      exact hin i hi.1 hi.2
    · exact (hout i (by omega)).trans (h.byte i v hv)
  payload i v hv := by
    simp only [Objects.setBytes] at hv
    split_ifs at hv with hi
    · exact ⟨b, hb, hu, by omega, by omega⟩
    · exact h.payload i v hv

theorem calloc (h : HoldsObjects s o) {c n : UInt64} {a : ObjectAnswer}
    (hx : o.exec (.calloc c n) = some (a, o')) :
    ∃ s', objectStep (.calloc c n) s = some (a, s') ∧ HoldsObjects s' o' := by
  rw [Objects.exec] at hx
  dsimp only at hx
  rw [objectStep, kmemCalloc]
  by_cases hzero : c = 0 ∨ n = 0
  · have htotal : c.toNat * n.toNat = 0 := by
      rcases hzero with rfl | rfl <;> simp
    rw [htotal, if_neg (by omega), if_neg (by omega)] at hx
    cases hx
    exact ⟨s, by rw [if_pos hzero]; rfl, h⟩
  rw [if_neg hzero]
  have hn0 : 0 < n.toNat := by
    rw [Nat.pos_iff_ne_zero]
    exact fun h0 => hzero (Or.inr (UInt64.toNat_inj.mp h0))
  by_cases hcheck : 0xffffffffffffffff / n < c
  · have hbig : 2 ^ 64 ≤ c.toNat * n.toNat := by
      have hlt := UInt64.lt_iff_toNat_lt.mp hcheck
      rw [UInt64.toNat_div] at hlt
      exact (Nat.div_lt_iff_lt_mul hn0).mp hlt
    rw [if_pos hbig] at hx
    cases hx
    exact ⟨s, by rw [if_pos hcheck]; rfl, h⟩
  rw [if_neg hcheck]
  have htotal := calloc_total (fun h0 => hzero (Or.inr h0)) hcheck
  have hlt := (c * n).toNat_lt
  rw [← htotal, if_neg (by omega)] at hx
  split_ifs at hx with hbig hnull
  · cases hx
    obtain ⟨s1, hcall, h1, -⟩ := h.alloc (Nat.le_of_not_lt hbig)
    refine ⟨s1, ?_, h1⟩
    rw [hcall, hnull]
    rfl
  · cases hx
    obtain ⟨s1, hcall, h1, hblock⟩ := h.alloc (Nat.le_of_not_lt hbig)
    obtain ⟨d, hd, hu, hp, hsize⟩ := hblock hnull
    refine ⟨{ s1 with mem := s1.mem.fill (o.alloc (c * n).toNat).1 (c * n).toNat 0 }, ?_, ?_⟩
    · rw [hcall]
      simp only [Option.map_some, ne_eq, hnull, not_false_eq_true, if_true]
    · apply h1.setBytes hd hu (by omega) (by omega)
      · intro i hlo hhi
        exact if_pos ⟨hlo, hhi⟩
      · intro i hi
        exact if_neg (by omega)

/-! ## Frees -/

/-- The block of a pointer is given back, and merged with free neighbours. -/
theorem free (h : HoldsObjects s o) {p : UInt64} {b : Blk} (hb : o.block p.toNat = some b) :
    ∃ s', kmemFreeChecked p s = some (0, s') ∧ HoldsObjects s' (o.release b) := by
  obtain ⟨hmem, hu, hp⟩ := Objects.block_some hb
  obtain ⟨pre, post, hbs⟩ := List.append_of_mem hmem
  have hin := tiles_mem h.inv.tiles hmem
  have hpos := (h.inv.aligned b hmem).2
  have hinv := h.inv
  rw [hbs] at hinv
  have hrange : ¬(p.toNat ≤ s.heapBase ∨ (s.heapBase + s.heapBytes) % 2 ^ 64 ≤ p.toNat) := by
    rw [Nat.mod_eq_of_lt h.top]
    omega
  obtain ⟨s', hcall, hbase, hbytes, hinv'⟩ := kmemFree_inRange hinv hu hp hrange
  have hrelease : (o.release b).blocks =
      coalesce 40 (pre ++ { b with free := true } :: post) := by
    rw [Objects.release]
    dsimp only
    rw [map_free hbs h.inv.tiles]
  have hold : ∀ i v, (o.release b).bytes i = some v → o.bytes i = some v ∧
      ¬(b.addr + 40 ≤ i ∧ i < b.addr + 40 + b.size) := by
    intro i v hv
    simp only [Objects.release, Objects.setBytes] at hv
    split_ifs at hv with hi
    exact ⟨hv, hi⟩
  refine ⟨s', hcall, by rwa [hrelease], by rw [hbase, hbytes]; exact h.top, ?_, ?_⟩
  · intro i v hv
    obtain ⟨hv, -⟩ := hold i v hv
    obtain ⟨c, hc, hcu, h1, h2⟩ := h.payload i v hv
    rw [h.inv.free_frame hmem hp hcall fun d hd => ?_]
    · exact h.byte i v hv
    · -- a payload is apart from every header
      rcases Decidable.eq_or_ne c d with rfl | hne
      · omega
      · have hapart := tiles_disjoint h.inv.tiles hc hd hne
        omega
  · intro i v hv
    obtain ⟨hv, hout⟩ := hold i v hv
    obtain ⟨c, hc, hcu, h1, h2⟩ := h.payload i v hv
    have hne : c ≠ b := by
      rintro rfl
      exact hout ⟨h1, h2⟩
    refine ⟨c, ?_, hcu, h1, h2⟩
    rw [hrelease]
    refine mem_coalesce_of_used ?_ hcu
    rw [hbs] at hc
    rcases List.mem_append.mp hc with hc | hc
    · simp [hc]
    rcases List.mem_cons.mp hc with rfl | hc
    · exact absurd rfl hne
    · simp [hc]

end HoldsObjects

/-! ## Statistics and the check -/

/-- What the loop of `kmem_get_stats` adds to what it has, as long as nothing wraps. -/
theorem statsOf_eq {bs : List Blk} {out : KmemStats} (hcount : out.freeCount ≤ out.blockCount)
    (hsum : out.usedBytes + out.freeBytes + 40 * out.blockCount +
      (bs.map fun b => 40 + b.size).sum < 2 ^ 64) :
    statsOf bs out = {
      totalBytes := out.totalBytes
      usedBytes := out.usedBytes + ((bs.filter fun b => !b.free).map Blk.size).sum
      freeBytes := out.freeBytes + ((bs.filter Blk.free).map Blk.size).sum
      blockCount := out.blockCount + bs.length
      freeCount := out.freeCount + (bs.filter Blk.free).length
      largestFree := ((bs.filter Blk.free).map Blk.size).foldl max out.largestFree } := by
  induction bs generalizing out with
  | nil => rfl
  | cons b bs ih =>
      rw [List.map_cons, List.sum_cons] at hsum
      rw [statsOf, List.foldl_cons, ← statsOf]
      cases hfree : b.free with
      | true =>
          have hmax : (if out.largestFree < b.size then b.size else out.largestFree) =
              max out.largestFree b.size := by
            rw [Nat.max_def]
            split_ifs <;> omega
          rw [if_pos rfl, ih (by dsimp only; omega) (by dsimp only; omega)]
          simp only [List.filter_cons, hfree, Bool.not_true, Bool.false_eq_true, if_false, if_true,
            List.map_cons, List.sum_cons, List.length_cons, List.foldl_cons, hmax,
            KmemStats.mk.injEq, true_and, and_true]
          omega
      | false =>
          rw [if_neg Bool.false_ne_true, ih (by dsimp only; omega) (by dsimp only; omega)]
          simp only [List.filter_cons, hfree, Bool.not_false, Bool.false_eq_true, if_false, if_true,
            List.map_cons, List.sum_cons, List.length_cons,
            KmemStats.mk.injEq, true_and, and_true]
          omega

theorem HoldsObjects.stats (h : HoldsObjects s o) : kmemGetStats s = some o.stats := by
  have htop := h.top
  have hpos := h.inv.base_pos
  have hsum := tiles_sum h.inv.tiles
  rw [kmemGetStats, if_neg (by simp [h.inv.ready]), statsLoop_eq h.inv.seg h.inv.addr_ne_zero
    (Nat.lt_succ_of_le h.inv.length_le), statsOf_eq (Nat.le_refl _) (by dsimp only; omega)]
  simp only [Objects.stats, Option.some_inj, KmemStats.mk.injEq, Nat.zero_add, and_true]
  omega

theorem validateLoop_eq {fuel p : Nat} {bs : List Blk} (hs : Seg s.mem p bs 0)
    (hin : ∀ b ∈ bs, b.addr ≠ 0 ∧ s.heapBase ≤ b.addr ∧
      b.addr < (s.heapBase + s.heapBytes) % 2 ^ 64) (hlen : bs.length < fuel) :
    validateLoop s fuel p = some 0 := by
  induction bs generalizing p fuel with
  | nil =>
      obtain ⟨k, rfl⟩ := Nat.exists_eq_succ_of_ne_zero (by omega : fuel ≠ 0)
      rw [validateLoop, if_pos (show p = 0 from hs)]
  | cons b bs ih =>
      obtain ⟨k, rfl⟩ := Nat.exists_eq_succ_of_ne_zero (by omega : fuel ≠ 0)
      obtain ⟨rfl, hh, hrest⟩ := hs
      obtain ⟨h0, hlo, hhi⟩ := hin b List.mem_cons_self
      rw [validateLoop, if_neg h0, if_neg (by omega), if_neg (not_not.mpr hh.magic_eq)]
      exact ih hrest (fun c hc => hin c (List.mem_cons_of_mem _ hc)) (by simpa using hlen)

theorem HoldsObjects.validate (h : HoldsObjects s o) : kmemValidate s = some 0 := by
  rw [kmemValidate, if_neg (by simp [h.inv.ready])]
  refine validateLoop_eq h.inv.seg (fun b hb => ?_) (Nat.lt_succ_of_le h.inv.length_le)
  have hin := tiles_mem h.inv.tiles hb
  have h0 := h.inv.addr_ne_zero b hb
  rw [Nat.mod_eq_of_lt h.top]
  omega

/-! ## Runs -/

end Mcsos.Kmem
