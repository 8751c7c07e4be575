import Mcsos.Mm.KmemInv

set_option autoImplicit false

/-! # Runs of the heap

A run starts with a successful `kmem_init` on memory of any content and goes on with calls of
the allocator and with writes of its clients. `live` lists the pointers handed out and not
freed since. A client writes inside the recorded size of a live block, or outside the heap.

Two theorems about runs follow: the heap representation, for heaps below the reach of the
32-bit rounding mask, and the size of what `kmem_alloc` hands out.
-/

namespace Mcsos.Kmem

open BlockList

/-! ## Steps and runs -/

inductive KmemOp where
  | alloc (bytes : UInt64)
  | calloc (count bytes : UInt64)
  | free (ptr : UInt64)
  | client (mem : Bytes)

/-- The pointers held after a call that returned `p`. -/
def handOut (p : Nat) (live : List Nat) : List Nat := if p = 0 then live else p :: live

/-- The recorded size of the block behind the payload pointer `p`. -/
def blockSize (s : KmemState) (p : Nat) : Nat := size s.mem (p - headerSize)

/-- Byte `i` belongs to a live block, or not to the heap at all. -/
def ClientByte (s : KmemState) (live : List Nat) (i : Nat) : Prop :=
  (∃ p ∈ live, p ≤ i ∧ i < p + blockSize s p) ∨ i < s.heapBase ∨ s.heapBase + s.heapBytes ≤ i

inductive KmemStep (s : KmemState) (live : List Nat) : KmemOp → KmemState → List Nat → Prop
  | alloc {n : UInt64} {p : Nat} {s' : KmemState} (hcall : kmemAlloc n s = some (p, s')) :
      KmemStep s live (.alloc n) s' (handOut p live)
  | calloc {c n : UInt64} {p : Nat} {s' : KmemState} (hcall : kmemCalloc c n s = some (p, s')) :
      KmemStep s live (.calloc c n) s' (handOut p live)
  | free {p : UInt64} {rc : Int} {s' : KmemState} (hp : p = 0 ∨ p.toNat ∈ live)
      (hcall : kmemFreeChecked p s = some (rc, s')) :
      KmemStep s live (.free p) s' (if rc = 0 then live.erase p.toNat else live)
  | client {mem : Bytes} (hmem : ∀ i, mem i ≠ s.mem i → ClientByte s live i) :
      KmemStep s live (.client mem) { s with mem := mem } live

/-- Runs from `kmem_init base bytes` whose operations all satisfy `allowed`. -/
inductive KmemRun (allowed : KmemState → KmemOp → Prop) (base bytes : UInt64) :
    KmemState → List Nat → Prop
  | init {s0 s : KmemState} (hinit : kmemInit base bytes s0 = (0, s)) :
      KmemRun allowed base bytes s []
  | step {s s' : KmemState} {live live' : List Nat} {op : KmemOp}
      (hrun : KmemRun allowed base bytes s live) (hop : allowed s op)
      (hstep : KmemStep s live op s' live') : KmemRun allowed base bytes s' live'

/-- No operation changes the size of the heap. -/
theorem KmemStep.heapBytes_eq {s s' : KmemState} {live live' : List Nat} {op : KmemOp}
    (hstep : KmemStep s live op s' live') : s'.heapBytes = s.heapBytes := by
  have halloc : ∀ {n : UInt64} {r : Nat × KmemState}, kmemAlloc n s = some r →
      r.2.heapBytes = s.heapBytes := by
    intro n r hcall
    unfold kmemAlloc at hcall
    split_ifs at hcall
    · cases hcall
      rfl
    · obtain ⟨x, -, rfl⟩ := Option.map_eq_some_iff.mp hcall
      rfl
  cases hstep with
  | alloc hcall => exact halloc hcall
  | calloc hcall =>
      unfold kmemCalloc at hcall
      split_ifs at hcall
      · cases hcall
        rfl
      · cases hcall
        rfl
      · obtain ⟨r, hr, heq⟩ := Option.map_eq_some_iff.mp hcall
        have hbytes := halloc hr
        split_ifs at heq
        · cases heq
          exact hbytes
        · rw [← hbytes, heq]
  | free hp hcall =>
      unfold kmemFreeChecked at hcall
      simp only at hcall
      split_ifs at hcall
      all_goals first
        | (cases hcall; rfl)
        | (obtain ⟨x, -, hx⟩ := Option.map_eq_some_iff.mp hcall; cases hx; rfl)
  | client hmem => rfl

/-! ## Owned blocks -/

/-- The clients hold the payloads of the used blocks, each once. -/
structure Owned (live : List Nat) (bs : List Blk) : Prop where
  nodup : live.Nodup
  mem_iff : ∀ p, p ∈ live ↔ ∃ b ∈ bs, b.free = false ∧ p = b.addr + 40

/-- What holds of every state of a good run. -/
structure Good (base bytes : UInt64) (s : KmemState) (live : List Nat) (bs : List Blk) :
    Prop where
  inv : HeapInv s bs
  owned : Owned live bs
  base_eq : s.heapBase = (base.toNat + 55) / 16 * 16 - 40
  top_eq : s.heapBase + s.heapBytes = base.toNat + bytes.toNat

/-- A block is known by its address. -/
theorem HeapInv.addr_inj {s : KmemState} {bs : List Blk} (hi : HeapInv s bs) {b c : Blk}
    (hb : b ∈ bs) (hc : c ∈ bs) (heq : b.addr = c.addr) : b = c := by
  by_contra hne
  have hapart := tiles_disjoint hi.tiles hb hc hne
  omega

theorem HeapInv.header_of_mem {s : KmemState} {bs : List Blk} (hi : HeapInv s bs) {b : Blk}
    (hb : b ∈ bs) : Header s.mem b := by
  obtain ⟨pre, post, rfl⟩ := List.append_of_mem hb
  obtain ⟨-, -, -, hh, -⟩ := seg_append.mp hi.seg
  exact hh

theorem HeapInv.blockSize_eq {s : KmemState} {bs : List Blk} (hi : HeapInv s bs) {b : Blk}
    (hb : b ∈ bs) : blockSize s (b.addr + 40) = b.size :=
  (hi.header_of_mem hb).size_eq

/-- A client does not reach a header. -/
theorem Good.header_agreeOn {base bytes : UInt64} {s : KmemState} {live : List Nat}
    {bs : List Blk} (hg : Good base bytes s live bs) {mem : Bytes}
    (hmem : ∀ i, mem i ≠ s.mem i → ClientByte s live i) {b : Blk} (hb : b ∈ bs) :
    Bytes.AgreeOn mem s.mem b.addr (b.addr + headerSize) := by
  intro i h1 h2
  unfold headerSize at h2
  by_contra hne
  have hin := tiles_mem hg.inv.tiles hb
  rcases hmem i hne with ⟨p, hp, hp1, hp2⟩ | hlow | hhigh
  · obtain ⟨c, hc, -, rfl⟩ := (hg.owned.mem_iff p).mp hp
    rw [hg.inv.blockSize_eq hc] at hp2
    rcases Decidable.eq_or_ne b c with rfl | hbc
    · omega
    · have hapart := tiles_disjoint hg.inv.tiles hb hc hbc
      omega
  · omega
  · omega

/-! ## Steps -/

/-- The only used block a request of `n` bytes makes of `b` is the head. -/
theorem take_used {n : Nat} {b d : Blk} (hn : n ≤ b.size) (hd : d ∈ take n b)
    (hu : d.free = false) : d.addr = b.addr ∧ n ≤ d.size ∧ d.size < n + 104 := by
  unfold take at hd
  split_ifs at hd with hsplit
  · simp only [List.mem_cons, List.not_mem_nil, or_false] at hd
    rcases hd with rfl | rfl
    · exact ⟨rfl, by simp only; omega, by simp only; omega⟩
    · cases hu
  · rw [List.mem_singleton.mp hd]
    exact ⟨rfl, hn, by simp only; omega⟩

theorem take_head (n : Nat) (b : Blk) :
    ∃ d ds, take n b = d :: ds ∧ d.addr = b.addr ∧ d.free = false := by
  unfold take
  split_ifs
  · exact ⟨_, _, rfl, rfl, rfl⟩
  · exact ⟨_, _, rfl, rfl, rfl⟩

theorem Owned.take {live : List Nat} {pre post : List Blk} {b : Blk} {n : Nat}
    (ho : Owned live (pre ++ b :: post)) (hfree : b.free = true) (hn : n ≤ b.size)
    (hnew : ∀ c ∈ pre ++ b :: post, c.addr = b.addr → c = b) :
    Owned (handOut (b.addr + 40) live) (pre ++ Kmem.take n b ++ post) := by
  have hout : b.addr + 40 ∉ live := by
    intro hin
    obtain ⟨c, hc, hu, heq⟩ := (ho.mem_iff _).mp hin
    have hcb := hnew c hc (by omega)
    rw [hcb, hfree] at hu
    cases hu
  unfold handOut
  rw [if_neg (by omega)]
  refine ⟨List.nodup_cons.mpr ⟨hout, ho.nodup⟩, fun p => ?_⟩
  rw [List.mem_cons, ho.mem_iff]
  constructor
  · rintro (rfl | ⟨c, hc, hu, rfl⟩)
    · obtain ⟨d, ds, htake, hda, hdf⟩ := take_head n b
      exact ⟨d, by simp [htake], hdf, by rw [hda]⟩
    · refine ⟨c, ?_, hu, rfl⟩
      rcases List.mem_append.mp hc with hc | hc
      · simp [hc]
      rcases List.mem_cons.mp hc with rfl | hc
      · rw [hfree] at hu
        cases hu
      · simp [hc]
  · rintro ⟨c, hc, hu, rfl⟩
    rw [List.append_assoc] at hc
    rcases List.mem_append.mp hc with hc | hc
    · exact Or.inr ⟨c, by simp [hc], hu, rfl⟩
    rcases List.mem_append.mp hc with hc | hc
    · exact Or.inl (by rw [(take_used hn hc hu).1])
    · exact Or.inr ⟨c, by simp [hc], hu, rfl⟩

theorem Owned.free {live : List Nat} {pre post : List Blk} {b : Blk}
    (ho : Owned live (pre ++ b :: post)) (hu : b.free = false)
    (hnew : ∀ c ∈ pre ++ b :: post, c.addr = b.addr → c = b)
    (hnb : b ∉ pre ∧ b ∉ post) :
    Owned (live.erase (b.addr + 40))
      (coalesce 40 (pre ++ { b with free := true } :: post)) := by
  refine ⟨ho.nodup.erase _, fun p => ?_⟩
  rw [ho.nodup.mem_erase_iff, ho.mem_iff]
  constructor
  · rintro ⟨hne, c, hc, hcu, rfl⟩
    refine ⟨c, mem_coalesce_of_used ?_ hcu, hcu, rfl⟩
    rcases List.mem_append.mp hc with hc | hc
    · simp [hc]
    rcases List.mem_cons.mp hc with rfl | hc
    · exact absurd rfl hne
    · simp [hc]
  · rintro ⟨c, hc, hcu, rfl⟩
    have hc := mem_of_mem_coalesce_used hc hcu
    have hold : c ∈ pre ++ b :: post ∧ c ≠ b := by
      rcases List.mem_append.mp hc with hc | hc
      · exact ⟨by simp [hc], fun h => hnb.1 (h ▸ hc)⟩
      rcases List.mem_cons.mp hc with rfl | hc
      · cases hcu
      · exact ⟨by simp [hc], fun h => hnb.2 (h ▸ hc)⟩
    exact ⟨fun h => hold.2 (hnew c hold.1 (by omega)), c, hold.1, hcu, rfl⟩

variable {base bytes : UInt64} {s s' : KmemState} {live live' : List Nat} {bs : List Blk}

/-- The request of `n` bytes stays clear of the 32-bit mask, or finds no block. -/
def Fits (bs : List Blk) (n : Nat) : Prop :=
  ∀ b ∈ bs, b.free = true → roundUp n ≤ b.size → roundUp n + 64 ≤ 2 ^ 32

theorem Good.alloc (hg : Good base bytes s live bs) {n : UInt64} (hfit : Fits bs n.toNat) :
    ∃ p s' bs', kmemAlloc n s = some (p, s') ∧ Good base bytes s' (handOut p live) bs' ∧
      (p ≠ 0 → ∃ b ∈ bs', b.free = false ∧ p = b.addr + 40 ∧ roundUp n.toNat ≤ b.size ∧
        b.size < roundUp n.toNat + 104) := by
  rcases Decidable.eq_or_ne n 0 with rfl | hn
  · exact ⟨0, s, bs, by simp [kmemAlloc], hg, fun h => absurd rfl h⟩
  rw [kmemAlloc_eq hg.inv hn]
  cases hfirst : firstFit (roundUp n.toNat) bs with
  | none => exact ⟨0, s, bs, rfl, hg, fun h => absurd rfl h⟩
  | some b =>
      obtain ⟨hfree, hsize, pre, post, rfl, -⟩ := firstFit_some hfirst
      have hsmall := hfit b (by simp) hfree hsize
      have hinv := hg.inv.takeBlock (roundUp_mod n.toNat) hsmall
      have hown := hg.owned.take hfree hsize (fun c hc h => hg.inv.addr_inj hc (by simp) h)
      refine ⟨_, _, _, rfl, ⟨hinv, hown, hg.base_eq, hg.top_eq⟩, fun _ => ?_⟩
      obtain ⟨d, ds, htake, hda, hdf⟩ := take_head (roundUp n.toNat) b
      have hd : d ∈ take (roundUp n.toNat) b := by simp [htake]
      obtain ⟨-, hlo, hhi⟩ := take_used hsize hd hdf
      exact ⟨d, by simp [hd], hdf, by rw [hda], hlo, hhi⟩

theorem Good.free (hg : Good base bytes s live bs) {p : UInt64} (hp : p = 0 ∨ p.toNat ∈ live) :
    ∃ rc s' bs', kmemFreeChecked p s = some (rc, s') ∧
      Good base bytes s' (if rc = 0 then live.erase p.toNat else live) bs' := by
  rcases hp with rfl | hp
  · have hnot : (0 : Nat) ∉ live := by
      intro h0
      obtain ⟨b, -, -, h⟩ := (hg.owned.mem_iff 0).mp h0
      omega
    refine ⟨0, s, bs, by simp [kmemFreeChecked, hg.inv.ready], ?_⟩
    rwa [if_pos rfl, UInt64.toNat_zero, List.erase_of_not_mem hnot]
  · obtain ⟨b, hb, hu, heq⟩ := (hg.owned.mem_iff _).mp hp
    obtain ⟨pre, post, rfl⟩ := List.append_of_mem hb
    rcases kmemFree_eq hg.inv hu heq with hcall | ⟨s', hcall, hbase, hbytes, hinv⟩
    · exact ⟨-3, s, _, hcall, hg⟩
    · have hnb : b ∉ pre ∧ b ∉ post := by
        obtain ⟨m, t1, tb, t2⟩ := tiles_append.mp hg.inv.tiles
        constructor
        · intro hin
          have hmem := tiles_mem t1 hin
          omega
        · intro hin
          have hmem' := tiles_mem t2 hin
          omega
      have hown := hg.owned.free hu (fun c hc h => hg.inv.addr_inj hc (by simp) h) hnb
      refine ⟨0, s', coalesce 40 (pre ++ { b with free := true } :: post), hcall, ?_⟩
      rw [if_pos rfl, heq]
      exact ⟨hinv, hown, hbase.trans hg.base_eq, by rw [hbase, hbytes]; exact hg.top_eq⟩

/-! ## Safe requests -/

/-- The request of `n` bytes is below the reach of the 32-bit mask, or there is no free block
of the rounded size. -/
def SafeRequest (s : KmemState) (n : Nat) : Prop :=
  n ≤ 2 ^ 32 - 64 ∨ ∀ b ∈ kmemBlocks s, b.free = true → b.size < roundUp n

/-- The overflow check of `kmem_calloc` refuses the request, or it is safe. -/
def SafeCalloc (s : KmemState) (c n : Nat) : Prop := 2 ^ 64 ≤ c * n ∨ SafeRequest s (c * n)

theorem roundUp_small {n : Nat} (hn : n ≤ 2 ^ 32 - 64) :
    n ≤ roundUp n ∧ roundUp n + 64 ≤ 2 ^ 32 := by
  rw [roundUp_eq]
  omega

theorem SafeRequest.fits {n : Nat} (hi : HeapInv s bs) (hsafe : SafeRequest s n) :
    Fits bs n := by
  intro b hb hfree hsize
  rcases hsafe with hsmall | hnone
  · exact (roundUp_small hsmall).2
  · rw [hi.blocks_eq] at hnone
    have hsmall' := hnone b hb hfree
    omega

/-- A safe request gets at least what it asks for. -/
theorem Good.alloc_safe (hg : Good base bytes s live bs) {n : UInt64}
    (hsafe : SafeRequest s n.toNat) :
    ∃ p s' bs', kmemAlloc n s = some (p, s') ∧ Good base bytes s' (handOut p live) bs' ∧
      (p ≠ 0 → ∃ b ∈ bs', b.free = false ∧ p = b.addr + 40 ∧ n.toNat ≤ b.size) := by
  obtain ⟨p, s', bs', hcall, hg', hblock⟩ := hg.alloc (hsafe.fits hg.inv)
  refine ⟨p, s', bs', hcall, hg', fun hp => ?_⟩
  obtain ⟨b, hb, hu, heq, hlo, -⟩ := hblock hp
  rcases hsafe with hsmall | hnone
  · exact ⟨b, hb, hu, heq, (roundUp_small hsmall).1.trans hlo⟩
  · -- no block of that size: the call has returned `NULL`
    have hn : n ≠ 0 := by
      rintro rfl
      rw [kmemAlloc, if_pos (Or.inr rfl)] at hcall
      cases hcall
      exact hp rfl
    rw [kmemAlloc_eq hg.inv hn, firstFit_none_iff.mpr (by rwa [hg.inv.blocks_eq] at hnone)]
      at hcall
    cases hcall
    exact absurd rfl hp

/-- `count * bytes` does not wrap once the overflow check has passed. -/
theorem calloc_total {c n : UInt64} (hn : n ≠ 0) (hcheck : ¬0xffffffffffffffff / n < c) :
    (c * n).toNat = c.toNat * n.toNat := by
  have hn0 : 0 < n.toNat := by
    rcases Nat.eq_zero_or_pos n.toNat with h0 | h0
    · exact absurd (UInt64.toNat_inj.mp h0) hn
    · exact h0
  have hle : c.toNat ≤ (2 ^ 64 - 1) / n.toNat := by
    have h := UInt64.le_iff_toNat_le.mp (UInt64.not_lt.mp hcheck)
    rwa [UInt64.toNat_div] at h
  have hmul : c.toNat * n.toNat ≤ 2 ^ 64 - 1 := (Nat.le_div_iff_mul_le hn0).mp hle
  rw [UInt64.toNat_mul]
  exact Nat.mod_eq_of_lt (by omega)

/-- A safe `kmem_calloc` is refused, or makes a safe request of `kmem_alloc`. -/
theorem SafeCalloc.cases {c n : UInt64} (hsafe : SafeCalloc s c.toNat n.toNat) :
    kmemCalloc c n s = some (0, s) ∨
      ((c * n).toNat = c.toNat * n.toNat ∧ SafeRequest s (c * n).toNat ∧
        kmemCalloc c n s = (kmemAlloc (c * n) s).map (fun r =>
          if r.1 ≠ 0 then (r.1, { r.2 with mem := r.2.mem.fill r.1 (c * n).toNat 0 }) else r)) := by
  by_cases hzero : c = 0 ∨ n = 0
  · exact Or.inl (by rw [kmemCalloc, if_pos hzero])
  by_cases hcheck : 0xffffffffffffffff / n < c
  · exact Or.inl (by rw [kmemCalloc, if_neg hzero, if_pos hcheck])
  have htotal := calloc_total (fun h => hzero (Or.inr h)) hcheck
  refine Or.inr ⟨htotal, ?_, by rw [kmemCalloc, if_neg hzero, if_neg hcheck]⟩
  rw [htotal]
  rcases hsafe with hbig | hsafe
  · have hbound := (c * n).toNat_lt
    omega
  · exact hsafe

/-- Zeroing inside the payload of a block spares the headers. -/
theorem Good.fill (hg : Good base bytes s live bs) {b : Blk} (hb : b ∈ bs) {n : Nat}
    (hn : n ≤ b.size) {v : UInt8} :
    Good base bytes { s with mem := s.mem.fill (b.addr + 40) n v } live bs := by
  refine ⟨hg.inv.congr (fun c hc => Bytes.fill_agreeOn ?_), hg.owned, hg.base_eq, hg.top_eq⟩
  unfold headerSize
  rcases Decidable.eq_or_ne c b with rfl | hcb
  · omega
  · have hapart := tiles_disjoint hg.inv.tiles hc hb hcb
    omega

theorem Good.calloc (hg : Good base bytes s live bs) {c n : UInt64}
    (hsafe : SafeCalloc s c.toNat n.toNat) :
    ∃ p s' bs', kmemCalloc c n s = some (p, s') ∧ Good base bytes s' (handOut p live) bs' ∧
      (p ≠ 0 → ∃ b ∈ bs', b.free = false ∧ p = b.addr + 40 ∧ c.toNat * n.toNat ≤ b.size) := by
  rcases hsafe.cases with hnull | ⟨htotal, hreq, heq⟩
  · exact ⟨0, s, bs, hnull, hg, fun h => absurd rfl h⟩
  obtain ⟨p, s1, bs', hcall, hg', hblock⟩ := hg.alloc_safe hreq
  rw [heq, hcall, Option.map_some]
  by_cases hp : p = 0
  · exact ⟨p, s1, bs', by rw [if_neg (not_not.mpr hp)], hg', fun h => absurd hp h⟩
  · obtain ⟨b, hb, hu, rfl, hsize⟩ := hblock hp
    rw [if_pos hp]
    exact ⟨_, _, bs', rfl, hg'.fill hb hsize,
      fun _ => ⟨b, hb, hu, rfl, by rwa [htotal] at hsize⟩⟩

/-! ## Runs -/

/-- What an operation has to meet for the heap to stay in order: every `kmem_alloc` request
fits, every `kmem_calloc` is safe. -/
def OpFits (s : KmemState) : KmemOp → Prop
  | .alloc n => Fits (kmemBlocks s) n.toNat
  | .calloc c n => SafeCalloc s c.toNat n.toNat
  | .free _ => True
  | .client _ => True

theorem Good.step {op : KmemOp} (hg : Good base bytes s live bs) (hop : OpFits s op)
    (hstep : KmemStep s live op s' live') :
    ∃ bs', Good base bytes s' live' bs' := by
  cases hstep with
  | alloc hcall =>
      have hfit : Fits (kmemBlocks s) _ := hop
      rw [hg.inv.blocks_eq] at hfit
      obtain ⟨p, s1, bs', hcall', hg', -⟩ := hg.alloc hfit
      obtain ⟨rfl, rfl⟩ := Prod.mk.inj (Option.some.inj (hcall.symm.trans hcall'))
      exact ⟨bs', hg'⟩
  | calloc hcall =>
      obtain ⟨p, s1, bs', hcall', hg', -⟩ := hg.calloc hop
      obtain ⟨rfl, rfl⟩ := Prod.mk.inj (Option.some.inj (hcall.symm.trans hcall'))
      exact ⟨bs', hg'⟩
  | free hp hcall =>
      obtain ⟨rc, s1, bs', hcall', hg'⟩ := hg.free hp
      obtain ⟨rfl, rfl⟩ := Prod.mk.inj (Option.some.inj (hcall.symm.trans hcall'))
      exact ⟨bs', hg'⟩
  | client hmem =>
      exact ⟨bs, hg.inv.congr (fun b hb => hg.header_agreeOn hmem hb), hg.owned,
        hg.base_eq, hg.top_eq⟩

theorem good_init {s0 : KmemState} (hwrap : base.toNat + bytes.toNat ≤ 2 ^ 64)
    (hinit : kmemInit base bytes s0 = (0, s)) :
    Good base bytes s [] [⟨s.heapBase, s.heapBytes - 40, true⟩] := by
  obtain ⟨hinv, hbase, htop⟩ := kmemInit_inv hwrap hinit
  refine ⟨hinv, ⟨List.nodup_nil, fun p => ?_⟩, hbase, htop⟩
  constructor
  · intro h
    cases h
  · rintro ⟨b, hb, hu, -⟩
    rw [List.mem_singleton.mp hb] at hu
    cases hu

/-- What the first block has and every step keeps holds, with the invariant, along a run whose
operations all fit. -/
theorem KmemRun.keeps {allowed : KmemState → KmemOp → Prop} {P : List Blk → Prop}
    (hwrap : base.toNat + bytes.toNat ≤ 2 ^ 64) (hrun : KmemRun allowed base bytes s live)
    (hfits : ∀ s1 live1 bs op, s1.heapBytes = s.heapBytes → Good base bytes s1 live1 bs →
      allowed s1 op → OpFits s1 op)
    (hfirst : ∀ a n, P [⟨a, n, true⟩])
    (hkeep : ∀ s1 live1 bs op s2 live2, Good base bytes s1 live1 bs → P bs → OpFits s1 op →
      KmemStep s1 live1 op s2 live2 → P (kmemBlocks s2)) :
    ∃ bs, Good base bytes s live bs ∧ P bs := by
  induction hrun with
  | init hinit => exact ⟨_, good_init hwrap hinit, hfirst _ _⟩
  | @step s s' live live' op hrun hop hstep ih =>
      have hbytes := hstep.heapBytes_eq
      obtain ⟨bs, hg, hP⟩ := ih (fun s1 live1 bs op h => hfits s1 live1 bs op (h.trans hbytes.symm))
      have hop' := hfits s live bs op hbytes.symm hg hop
      obtain ⟨bs', hg'⟩ := hg.step hop' hstep
      have hP' := hkeep s live bs op s' live' hg hP hop' hstep
      rw [hg'.inv.blocks_eq] at hP'
      exact ⟨bs', hg', hP'⟩

theorem KmemRun.good {allowed : KmemState → KmemOp → Prop}
    (hwrap : base.toNat + bytes.toNat ≤ 2 ^ 64) (hrun : KmemRun allowed base bytes s live)
    (hfits : ∀ s1 live1 bs op, s1.heapBytes = s.heapBytes → Good base bytes s1 live1 bs →
      allowed s1 op → OpFits s1 op) : ∃ bs, Good base bytes s live bs := by
  obtain ⟨bs, hg, -⟩ := hrun.keeps (P := fun _ => True) hwrap hfits (fun _ _ => trivial)
    (fun _ _ _ _ _ _ _ _ _ _ => trivial)
  exact ⟨bs, hg⟩

/-! ## The layout of the heap -/

/-- Requests of any size; the total of a `kmem_calloc` has to be safe. -/
def HeapOp (s : KmemState) : KmemOp → Prop
  | .alloc _ => True
  | .calloc c n => SafeCalloc s c.toNat n.toNat
  | .free _ => True
  | .client _ => True

/-- How the heap lies in memory between two calls. -/
structure KmemLayout (base bytes : UInt64) (s : KmemState) (live : List Nat) : Prop where
  base_eq : s.heapBase = (base.toNat + 55) / 16 * 16 - headerSize
  top_eq : s.heapBase + s.heapBytes = base.toNat + bytes.toNat
  /-- following `next` from `g_heap_base` reads the blocks and ends at `NULL` -/
  list : Seg s.mem s.heapBase (kmemBlocks s) 0
  /-- each header sits right after the payload before it -/
  tiles : Tiles headerSize s.heapBase (kmemBlocks s) (s.heapBase + s.heapBytes)
  sum_eq : ((kmemBlocks s).map (fun b => headerSize + b.size)).sum = s.heapBytes
  header : ∀ b ∈ kmemBlocks s, magic s.mem b.addr = kmemMagic ∧ s.heapBase ≤ b.addr ∧
    b.addr + headerSize ≤ s.heapBase + s.heapBytes
  aligned : ∀ p ∈ live, p % 16 = 0
  payload : ∀ p ∈ live, s.heapBase + headerSize ≤ p ∧
    p + blockSize s p ≤ s.heapBase + s.heapBytes
  disjoint : live.Pairwise (fun p q => p + blockSize s p ≤ q ∨ q + blockSize s q ≤ p)
  headers : ∀ p ∈ live, ∀ b ∈ kmemBlocks s, p + blockSize s p ≤ b.addr ∨ b.addr + headerSize ≤ p
  stats : ∃ out, kmemGetStats s = some out ∧ out.totalBytes = s.heapBytes ∧
    out.usedBytes + out.freeBytes + out.blockCount * headerSize = out.totalBytes
  /-- no call runs in a circle -/
  alloc_returns : ∀ n, (kmemAlloc n s).isSome
  free_returns : ∀ p : UInt64, p = 0 ∨ p.toNat ∈ live → (kmemFreeChecked p s).isSome

theorem HeapInv.fits_of_small (hi : HeapInv s bs) (hsmall : s.heapBytes < 2 ^ 32 - 64) (n : Nat) :
    Fits bs n := by
  intro b hb _ hsize
  have hin := tiles_mem hi.tiles hb
  have hmod := roundUp_mod n
  omega

theorem HeapInv.stats (hi : HeapInv s bs) :
    ∃ out, kmemGetStats s = some out ∧ out.totalBytes = s.heapBytes ∧
      out.usedBytes + out.freeBytes + out.blockCount * headerSize = out.totalBytes := by
  have htop := hi.top_le
  have hbase := hi.base_pos
  obtain ⟨hsum, htotal⟩ := statsOf_sum hi.tiles ⟨s.heapBytes, 0, 0, 0, 0, 0⟩
    (by simp only; omega)
  refine ⟨statsOf bs ⟨s.heapBytes, 0, 0, 0, 0, 0⟩, ?_, htotal, ?_⟩
  · rw [kmemGetStats, if_neg (by simp [hi.ready]), statsLoop_eq hi.seg hi.addr_ne_zero
      (Nat.lt_succ_of_le hi.length_le)]
  · simp only at hsum htotal
    unfold headerSize
    omega

theorem Good.disjoint (hg : Good base bytes s live bs) :
    live.Pairwise (fun p q => p + blockSize s p ≤ q ∨ q + blockSize s q ≤ p) := by
  refine hg.owned.nodup.imp_of_mem (fun {p q} hp hq hne => ?_)
  obtain ⟨b, hb, -, rfl⟩ := (hg.owned.mem_iff p).mp hp
  obtain ⟨c, hc, -, rfl⟩ := (hg.owned.mem_iff q).mp hq
  rw [hg.inv.blockSize_eq hb, hg.inv.blockSize_eq hc]
  have hbc : b ≠ c := fun h => hne (by rw [h])
  have hapart := tiles_disjoint hg.inv.tiles hb hc hbc
  omega

theorem Good.layout (hg : Good base bytes s live bs) (hsmall : s.heapBytes < 2 ^ 32 - 64) :
    KmemLayout base bytes s live := by
  have hblocks := hg.inv.blocks_eq
  refine
    { base_eq := hg.base_eq
      top_eq := hg.top_eq
      list := by rw [hblocks]; exact hg.inv.seg
      tiles := by rw [hblocks]; exact hg.inv.tiles
      sum_eq := ?_
      header := ?_
      aligned := ?_
      payload := ?_
      disjoint := hg.disjoint
      headers := ?_
      stats := hg.inv.stats
      alloc_returns := ?_
      free_returns := ?_ }
  · rw [hblocks]
    have hsum := tiles_sum hg.inv.tiles
    unfold headerSize
    omega
  · rw [hblocks]
    intro b hb
    have hin := tiles_mem hg.inv.tiles hb
    refine ⟨(hg.inv.header_of_mem hb).magic_eq, hin.1, ?_⟩
    unfold headerSize
    omega
  · intro p hp
    obtain ⟨b, hb, -, rfl⟩ := (hg.owned.mem_iff p).mp hp
    have haligned := (hg.inv.aligned b hb).1
    omega
  · intro p hp
    obtain ⟨b, hb, -, rfl⟩ := (hg.owned.mem_iff p).mp hp
    have hin := tiles_mem hg.inv.tiles hb
    rw [hg.inv.blockSize_eq hb]
    unfold headerSize
    omega
  · rw [hblocks]
    intro p hp c hc
    obtain ⟨b, hb, -, rfl⟩ := (hg.owned.mem_iff p).mp hp
    rw [hg.inv.blockSize_eq hb]
    unfold headerSize
    -- the header of a block ends where its own payload begins; other blocks are apart
    rcases Decidable.eq_or_ne b c with rfl | hbc
    · exact Or.inr (le_refl _)
    · have hapart := tiles_disjoint hg.inv.tiles hb hc hbc
      omega
  · intro n
    obtain ⟨p, s', bs', hcall, -⟩ := hg.alloc (hg.inv.fits_of_small hsmall n.toNat)
    rw [hcall]
    rfl
  · intro p hp
    obtain ⟨rc, s', bs', hcall, -⟩ := hg.free hp
    rw [hcall]
    rfl

theorem HeapOp.fits {op : KmemOp} (hop : HeapOp s op) (hi : HeapInv s bs)
    (hsmall : s.heapBytes < 2 ^ 32 - 64) : OpFits s op := by
  cases op with
  | alloc n =>
      show Fits (kmemBlocks s) n.toNat
      rw [hi.blocks_eq]
      exact hi.fits_of_small hsmall n.toNat
  | calloc c n => exact hop
  | free p => trivial
  | client mem => trivial

/-- In every run on a heap of fewer than `2 ^ 32 - 64` bytes, whatever is asked of
`kmem_alloc`, the block list tiles the heap and the clients' payloads do not meet. -/
theorem kmemRun_layout (hwrap : base.toNat + bytes.toNat ≤ 2 ^ 64)
    (hrun : KmemRun HeapOp base bytes s live) (hsmall : s.heapBytes < 2 ^ 32 - 64) :
    KmemLayout base bytes s live := by
  obtain ⟨bs, hg⟩ := hrun.good hwrap (fun _ _ _ _ hbytes hg hop => hop.fits hg.inv (by omega))
  exact hg.layout hsmall

/-- A heap of 4 KiB at an odd address, in memory that was all zero. -/
def plainHeap : KmemState := (kmemInit 0x1003 0x1000 ⟨Bytes.zero, 0, 0, false⟩).2

theorem plainHeap_init : kmemInit 0x1003 0x1000 ⟨Bytes.zero, 0, 0, false⟩ = (0, plainHeap) :=
  Prod.ext (by decide) rfl

/-- One block is handed out of the plain heap. -/
theorem kmemRun_layout_plain :
    ∃ s live, KmemRun HeapOp 0x1003 0x1000 s live ∧ live = [0x1030] ∧
      KmemLayout 0x1003 0x1000 s live := by
  have hptr : (kmemAlloc 100 plainHeap).map (fun r => r.1) = some 0x1030 := by decide +kernel
  obtain ⟨⟨p, s⟩, hcall, rfl⟩ := Option.map_eq_some_iff.mp hptr
  have hstep : KmemStep plainHeap [] (.alloc 100) s [0x1030] := .alloc hcall
  have hop : HeapOp plainHeap (.alloc 100) := trivial
  have hrun : KmemRun HeapOp 0x1003 0x1000 s [0x1030] := .step (.init plainHeap_init) hop hstep
  have hbytes : plainHeap.heapBytes < 2 ^ 32 - 64 := by decide +kernel
  rw [← hstep.heapBytes_eq] at hbytes
  exact ⟨s, [0x1030], hrun, rfl, kmemRun_layout (by decide) hrun hbytes⟩

end Mcsos.Kmem
