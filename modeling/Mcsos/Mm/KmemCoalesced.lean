import Mcsos.Mm.KmemRuns

set_option autoImplicit false

/-! # The heap is always merged

`kmem_alloc` puts a used block in front of the free rest it splits off, and a successful
`kmem_free_checked` merges the whole list, so no two neighbouring blocks are ever both free. It
follows that the order of the frees does not matter, and that a free undoes the allocation right
before it.
-/

namespace Mcsos.Kmem

open BlockList

variable {base bytes : UInt64} {s s' : KmemState} {live live' : List Nat} {bs : List Blk}

/-! ## Taking a block and giving it back -/

theorem merged_take {n : Nat} {pre post : List Blk} {b : Blk} (hm : Merged (pre ++ b :: post))
    (hfree : b.free = true) : Merged (pre ++ take n b ++ post) := by
  have hright : Merged (b :: post) := hm.right
  unfold take
  split_ifs with hsplit
  · rw [List.append_assoc]
    exact merged_append_used rfl hm.left (hright.congr_head hfree.symm)
  · rw [List.append_assoc]
    exact merged_append_used rfl hm.left hright.tail

/-- Freeing what was just taken and merging gives the block back as it was. -/
theorem coalesce_take {n : Nat} {pre post ds : List Blk} {b d : Blk}
    (hm : Merged (pre ++ b :: post)) (hfree : b.free = true) (htake : take n b = d :: ds) :
    coalesce 40 (pre ++ { d with free := true } :: (ds ++ post)) = pre ++ b :: post := by
  have hback : coalesce 40 ({ d with free := true } :: (ds ++ post)) =
      coalesce 40 (b :: post) := by
    unfold take at htake
    split_ifs at htake with hsplit
    · -- the head takes its rest back, and the sizes add up
      obtain ⟨rfl, rfl⟩ := List.cons.inj htake
      rw [List.singleton_append, coalesce_merge post rfl rfl]
      have hsize : n + 8 + 40 + (b.size - (n + 8 + 40)) = b.size := by omega
      rw [merge]
      simp only [hsize, ← hfree]
    · obtain ⟨rfl, rfl⟩ := List.cons.inj htake
      rw [List.nil_append, ← hfree]
  rw [coalesce_append, hback, ← coalesce_append, coalesce_of_merged hm]

/-- Something is asked for, and a free block has room for it. -/
def HandsOut (n : UInt64) (bs : List Blk) : Prop :=
  n ≠ 0 ∧ ∃ b ∈ bs, b.free = true ∧ roundUp n.toNat ≤ b.size

/-- The call in terms of the block list: nothing happens, or a free block is taken. -/
theorem HeapInv.alloc_cases (hi : HeapInv s bs) {n : UInt64} (hfit : Fits bs n.toNat) :
    ¬HandsOut n bs ∧ kmemAlloc n s = some (0, s) ∨
    HandsOut n bs ∧ ∃ pre b post s', bs = pre ++ b :: post ∧ b.free = true ∧
      kmemAlloc n s = some (b.addr + 40, s') ∧ s'.heapBase = s.heapBase ∧
      s'.heapBytes = s.heapBytes ∧ HeapInv s' (pre ++ take (roundUp n.toNat) b ++ post) := by
  rcases Decidable.eq_or_ne n 0 with rfl | hn
  · exact Or.inl ⟨fun hout => hout.1 rfl, by simp [kmemAlloc]⟩
  rw [kmemAlloc_eq hi hn]
  cases hfirst : firstFit (roundUp n.toNat) bs with
  | none =>
      refine Or.inl ⟨fun hout => ?_, rfl⟩
      obtain ⟨-, b, hb, hfree, hroom⟩ := hout
      have hless := firstFit_none_iff.mp hfirst b hb hfree
      omega
  | some b =>
      obtain ⟨hfree, hsize, pre, post, rfl, -⟩ := firstFit_some hfirst
      have hsmall := hfit b (by simp) hfree hsize
      exact Or.inr ⟨⟨hn, b, by simp, hfree, hsize⟩, pre, b, post, _, rfl, hfree, rfl, rfl, rfl,
        hi.takeBlock (roundUp_mod n.toNat) hsmall⟩

/-! ## Runs -/

theorem Good.merged_alloc (hg : Good base bytes s live bs) (hm : Merged bs) {n : UInt64} {p : Nat}
    (hfit : Fits bs n.toNat) (hcall : kmemAlloc n s = some (p, s')) : Merged (kmemBlocks s') := by
  rcases hg.inv.alloc_cases hfit with
    ⟨-, hnull⟩ | ⟨-, pre, b, post, s1, rfl, hfree, htook, -, -, hinv⟩
  · obtain ⟨-, rfl⟩ := Prod.mk.inj (Option.some.inj (hcall.symm.trans hnull))
    rwa [hg.inv.blocks_eq]
  · obtain ⟨-, rfl⟩ := Prod.mk.inj (Option.some.inj (hcall.symm.trans htook))
    rw [hinv.blocks_eq]
    exact merged_take hm hfree

/-- A `kmem_calloc` leaves the block list of the `kmem_alloc` it makes. -/
theorem Good.calloc_blocks (hg : Good base bytes s live bs) {c n : UInt64} {p : Nat}
    (hsafe : SafeCalloc s c.toNat n.toNat) (hcall : kmemCalloc c n s = some (p, s')) :
    kmemBlocks s' = bs ∨ ∃ s1, SafeRequest s (c * n).toNat ∧
      kmemAlloc (c * n) s = some (p, s1) ∧ kmemBlocks s' = kmemBlocks s1 := by
  rcases hsafe.cases with hnull | ⟨-, hreq, heq⟩
  · obtain ⟨-, rfl⟩ := Prod.mk.inj (Option.some.inj (hcall.symm.trans hnull))
    exact Or.inl hg.inv.blocks_eq
  right
  obtain ⟨q, s1, bs', hcall', hg', hblock⟩ := hg.alloc_safe hreq
  rw [heq, hcall', Option.map_some] at hcall
  by_cases hq : q = 0
  · rw [if_neg (not_not.mpr hq)] at hcall
    obtain ⟨rfl, rfl⟩ := Prod.mk.inj (Option.some.inj hcall)
    exact ⟨_, hreq, hcall', rfl⟩
  · obtain ⟨b, hb, -, rfl, hsize⟩ := hblock hq
    rw [if_pos hq] at hcall
    obtain ⟨rfl, rfl⟩ := Prod.mk.inj (Option.some.inj hcall)
    refine ⟨_, hreq, hcall', ?_⟩
    rw [(hg'.fill hb hsize).inv.blocks_eq, hg'.inv.blocks_eq]

theorem Good.merged_free (hg : Good base bytes s live bs) (hm : Merged bs) {p : UInt64} {rc : Int}
    (hp : p = 0 ∨ p.toNat ∈ live) (hcall : kmemFreeChecked p s = some (rc, s')) :
    Merged (kmemBlocks s') := by
  rcases hp with rfl | hp
  · rw [kmemFreeChecked, if_neg (by simp [hg.inv.ready]), if_pos rfl] at hcall
    obtain ⟨-, rfl⟩ := Prod.mk.inj (Option.some.inj hcall)
    rwa [hg.inv.blocks_eq]
  · obtain ⟨b, hb, hu, heq⟩ := (hg.owned.mem_iff _).mp hp
    obtain ⟨pre, post, rfl⟩ := List.append_of_mem hb
    rcases kmemFree_eq hg.inv hu heq with hcall' | ⟨s1, hcall', -, -, hinv⟩
    · obtain ⟨-, rfl⟩ := Prod.mk.inj (Option.some.inj (hcall.symm.trans hcall'))
      rwa [hg.inv.blocks_eq]
    · obtain ⟨-, rfl⟩ := Prod.mk.inj (Option.some.inj (hcall.symm.trans hcall'))
      rw [hinv.blocks_eq]
      exact merged_coalesce _

/-- One step keeps the block list merged. -/
theorem Good.merged_step {op : KmemOp} (hg : Good base bytes s live bs) (hm : Merged bs)
    (hop : OpFits s op) (hstep : KmemStep s live op s' live') : Merged (kmemBlocks s') := by
  cases hstep with
  | alloc hcall =>
      have hfit : Fits (kmemBlocks s) _ := hop
      rw [hg.inv.blocks_eq] at hfit
      exact hg.merged_alloc hm hfit hcall
  | calloc hcall =>
      rcases hg.calloc_blocks hop hcall with hsame | ⟨s1, hreq, halloc, hsame⟩
      · rwa [hsame]
      · rw [hsame]
        exact hg.merged_alloc hm (hreq.fits hg.inv) halloc
  | free hp hcall => exact hg.merged_free hm hp hcall
  | client hmem =>
      have hinv := hg.inv.congr (fun b hb => hg.header_agreeOn hmem hb)
      rwa [hinv.blocks_eq]

theorem KmemRun.good_merged {allowed : KmemState → KmemOp → Prop}
    (hwrap : base.toNat + bytes.toNat ≤ 2 ^ 64) (hrun : KmemRun allowed base bytes s live)
    (hfits : ∀ s1 live1 bs op, s1.heapBytes = s.heapBytes → Good base bytes s1 live1 bs →
      allowed s1 op → OpFits s1 op) : ∃ bs, Good base bytes s live bs ∧ Merged bs :=
  hrun.keeps hwrap hfits (fun _ _ => List.isChain_singleton _)
    (fun _ _ _ _ _ _ hg hm hop hstep => hg.merged_step hm hop hstep)

/-! ## Freeing everything -/

/-- Free the pointers in turn; `none` if a call does not return 0. -/
def freeAll : List UInt64 → KmemState → Option KmemState
  | [], s => some s
  | p :: ps, s =>
    (kmemFreeChecked p s).bind (fun r => if r.1 = 0 then freeAll ps r.2 else none)

/-- A live pointer is taken back, and the heap goes on in order. -/
theorem Good.free_live (hg : Good base bytes s live bs) {p : UInt64} (hp : p.toNat ∈ live)
    (htop : s.heapBase + s.heapBytes < 2 ^ 64) :
    ∃ s' bs', kmemFreeChecked p s = some (0, s') ∧ s'.heapBase = s.heapBase ∧
      s'.heapBytes = s.heapBytes ∧ Good base bytes s' (live.erase p.toNat) bs' ∧ Merged bs' := by
  obtain ⟨b, hb, hu, heq⟩ := (hg.owned.mem_iff _).mp hp
  obtain ⟨pre, post, rfl⟩ := List.append_of_mem hb
  have hin := tiles_mem hg.inv.tiles hb
  have hpos := (hg.inv.aligned b hb).2
  have hrange : ¬OutOfRange p s := by
    rw [OutOfRange, Nat.mod_eq_of_lt htop]
    omega
  obtain ⟨s', hcall, hbase, hbytes, hinv⟩ := kmemFree_inRange hg.inv hu heq hrange
  obtain ⟨rc, s1, bs', hcall', hg'⟩ := hg.free (Or.inr hp)
  obtain ⟨rfl, rfl⟩ := Prod.mk.inj (Option.some.inj (hcall.symm.trans hcall'))
  rw [if_pos rfl] at hg'
  refine ⟨s', bs', hcall, hbase, hbytes, hg', ?_⟩
  rw [← hg'.inv.blocks_eq, hinv.blocks_eq]
  exact merged_coalesce _

/-- Freeing all live pointers works in any order. -/
theorem Good.freeAll_isSome (hg : Good base bytes s live bs) {ps : List UInt64}
    (hps : (ps.map UInt64.toNat).Perm live) (htop : s.heapBase + s.heapBytes < 2 ^ 64) :
    (freeAll ps s).isSome = true := by
  induction ps generalizing s live bs with
  | nil => rfl
  | cons p ps ih =>
      have hp : p.toNat ∈ live := hps.subset List.mem_cons_self
      obtain ⟨s1, bs1, hcall, hbase, hbytes, hg1, -⟩ := hg.free_live hp htop
      have hrest : (ps.map UInt64.toNat).Perm (live.erase p.toNat) :=
        (List.cons_perm_iff_perm_erase.mp hps).2
      rw [freeAll, hcall, Option.bind_some, if_pos rfl]
      exact ih hg1 hrest (by rw [hbase, hbytes]; exact htop)

/-- When all of them are freed, the heap is in order and nothing is live. -/
theorem Good.freeAll (hg : Good base bytes s live bs) (hm : Merged bs) {ps : List UInt64}
    (hps : (ps.map UInt64.toNat).Perm live) (hrun : freeAll ps s = some s') :
    ∃ bs', Good base bytes s' [] bs' ∧ Merged bs' := by
  induction ps generalizing s live bs with
  | nil =>
      cases hrun
      rw [List.nil_perm.mp hps] at hg
      exact ⟨bs, hg, hm⟩
  | cons p ps ih =>
      have hp : p.toNat ∈ live := hps.subset List.mem_cons_self
      have hrest : (ps.map UInt64.toNat).Perm (live.erase p.toNat) :=
        (List.cons_perm_iff_perm_erase.mp hps).2
      obtain ⟨rc, s1, bs1, hcall, hg1⟩ := hg.free (Or.inr hp)
      rw [Kmem.freeAll, hcall, Option.bind_some] at hrun
      split_ifs at hrun with hrc
      have hrc0 : rc = 0 := hrc
      rw [if_pos hrc0] at hg1
      have hm1 := hg.merged_free hm (Or.inr hp) hcall
      rw [hg1.inv.blocks_eq] at hm1
      exact ih hg1 hm1 hrest hrun

theorem HeapInv.ne_nil (hi : HeapInv s bs) : bs ≠ [] := by
  rintro rfl
  have hbase : s.heapBase = 0 := hi.seg
  have hpos := hi.base_pos
  omega

/-- A heap in which nothing is live is one free block. -/
theorem Good.single (hg : Good base bytes s [] bs) (hm : Merged bs) :
    bs = [⟨s.heapBase, s.heapBytes - 40, true⟩] := by
  have hfree : ∀ b ∈ bs, b.free = true := by
    intro b hb
    by_contra hu
    have hlive := (hg.owned.mem_iff _).mpr ⟨b, hb, Bool.eq_false_iff.mpr hu, rfl⟩
    cases hlive
  rw [merged_all_free hm hg.inv.tiles hg.inv.ne_nil hfree,
    show s.heapBase + s.heapBytes - (s.heapBase + 40) = s.heapBytes - 40 by omega]

/-- **The heap is always merged**: in every run on a heap of fewer than `2 ^ 32 - 64` bytes no two
neighbouring blocks are both free, and freeing all live pointers in any order leaves one free
block. A heap that ends at the last address of all is refused every free. -/
theorem kmemRun_coalesced (hwrap : base.toNat + bytes.toNat ≤ 2 ^ 64)
    (hrun : KmemRun HeapOp base bytes s live) (hsmall : s.heapBytes < 2 ^ 32 - 64) :
    Merged (kmemBlocks s) ∧
    ∀ ps : List UInt64, (ps.map UInt64.toNat).Perm live →
      (base.toNat + bytes.toNat < 2 ^ 64 → (freeAll ps s).isSome) ∧
      ∀ s', freeAll ps s = some s' →
        kmemBlocks s' = [⟨s.heapBase, s.heapBytes - headerSize, true⟩] := by
  obtain ⟨bs, hg, hm⟩ := hrun.good_merged hwrap
    (fun _ _ _ _ hbytes hg hop => hop.fits hg.inv (by omega))
  refine ⟨by rwa [hg.inv.blocks_eq], fun ps hps => ⟨fun htop => ?_, fun s' hfree => ?_⟩⟩
  · exact hg.freeAll_isSome hps (by rw [hg.top_eq]; exact htop)
  · obtain ⟨bs', hg', hm'⟩ := hg.freeAll hm hps hfree
    have hbase := hg'.base_eq.trans hg.base_eq.symm
    have htop := hg'.top_eq.trans hg.top_eq.symm
    rw [hg'.inv.blocks_eq, hg'.single hm', hbase]
    rw [hbase] at htop
    rw [show s'.heapBytes = s.heapBytes by omega]
    rfl

/-- Two blocks are handed out of the plain heap and given back in the order of their addresses. -/
theorem kmemRun_coalesced_plain :
    ∃ s live, KmemRun HeapOp 0x1003 0x1000 s live ∧ live = [0x10d0, 0x1030] ∧
      Merged (kmemBlocks s) ∧ (freeAll [0x1030, 0x10d0] s).isSome := by
  have hptr : (kmemAlloc 100 plainHeap).bind (fun r =>
      (kmemAlloc 50 r.2).map (fun r' => (r.1, r'.1))) = some (0x1030, 0x10d0) := by decide +kernel
  obtain ⟨⟨p, s1⟩, hcall1, hptr⟩ := Option.bind_eq_some_iff.mp hptr
  obtain ⟨⟨q, s2⟩, hcall2, heq⟩ := Option.map_eq_some_iff.mp hptr
  obtain ⟨rfl, rfl⟩ := Prod.mk.inj heq
  have hstep1 : KmemStep plainHeap [] (.alloc 100) s1 [0x1030] := .alloc hcall1
  have hstep2 : KmemStep s1 [0x1030] (.alloc 50) s2 [0x10d0, 0x1030] := .alloc hcall2
  have hop1 : HeapOp plainHeap (.alloc 100) := trivial
  have hop2 : HeapOp s1 (.alloc 50) := trivial
  have hrun : KmemRun HeapOp 0x1003 0x1000 s2 [0x10d0, 0x1030] :=
    .step (.step (.init plainHeap_init) hop1 hstep1) hop2 hstep2
  have hbytes : plainHeap.heapBytes < 2 ^ 32 - 64 := by decide +kernel
  rw [← hstep1.heapBytes_eq, ← hstep2.heapBytes_eq] at hbytes
  obtain ⟨hm, hall⟩ := kmemRun_coalesced (by decide) hrun hbytes
  exact ⟨s2, _, hrun, rfl, hm, (hall [0x1030, 0x10d0] (List.Perm.swap _ _ _)).1 (by decide)⟩

/-! ## Allocating and freeing undo each other -/

/-- `kmem_free_checked` takes back what `kmem_alloc` returns right before, and the blocks are those
from before the two calls. -/
def AllocUndone (n : UInt64) (s : KmemState) : Prop :=
  ∃ (p : UInt64) (s' s'' : KmemState), kmemAlloc n s = some (p.toNat, s') ∧
    kmemFreeChecked p s' = some (0, s'') ∧ kmemBlocks s'' = kmemBlocks s

/-- Nothing is handed out, and `NULL` is taken back. -/
theorem HeapInv.allocUndone_null (hi : HeapInv s bs) {n : UInt64}
    (hnull : kmemAlloc n s = some (0, s)) : AllocUndone n s := by
  refine ⟨0, s, s, hnull, ?_, rfl⟩
  rw [kmemFreeChecked, if_neg (by simp [hi.ready]), if_pos rfl]

/-- A block that is handed out is taken back exactly when the end of the heap is an address. -/
theorem Good.allocUndone_iff (hg : Good base bytes s live bs) (hm : Merged bs) {n : UInt64}
    (hfit : Fits bs n.toNat) :
    AllocUndone n s ↔ s.heapBase + s.heapBytes < 2 ^ 64 ∨ ¬HandsOut n bs := by
  rcases hg.inv.alloc_cases hfit with
    ⟨hnone, hnull⟩ | ⟨hout, pre, b, post, s', rfl, hfree, htook, hbase, hbytes, hinv⟩
  · exact ⟨fun _ => Or.inr hnone, fun _ => hg.inv.allocUndone_null hnull⟩
  obtain ⟨d, ds, htake, haddr, hused⟩ := take_head (roundUp n.toNat) b
  have hin := tiles_mem hg.inv.tiles (List.mem_append_right pre List.mem_cons_self)
  have hpos := (hg.inv.aligned b (by simp)).2
  have htop := hg.inv.top_le
  have hp : (UInt64.ofNat (b.addr + 40)).toNat = b.addr + 40 :=
    UInt64.toNat_ofNat_of_lt' (by unfold UInt64.size; omega)
  have hp0 : UInt64.ofNat (b.addr + 40) ≠ 0 := by
    intro h0
    rw [h0, UInt64.toNat_zero] at hp
    omega
  constructor
  · rintro ⟨p, s1, s2, hcall, htaken, -⟩
    obtain ⟨heq, rfl⟩ := Prod.mk.inj (Option.some.inj (hcall.symm.trans htook))
    left
    by_contra hend
    -- the end wraps to 0, and no pointer is below it
    have hrefused : OutOfRange (UInt64.ofNat (b.addr + 40)) s1 := by
      right
      rw [hbase, hbytes, show s.heapBase + s.heapBytes = 2 ^ 64 by omega, Nat.mod_self]
      exact Nat.zero_le _
    rw [← hp] at heq
    obtain rfl := UInt64.toNat_inj.mp heq
    rw [hinv.kmemFree_outOfRange hp0 hrefused] at htaken
    cases htaken
  · rintro (hend | hnone)
    · -- the free merges the block with what was split off it, and with nothing else
      rw [htake, List.append_assoc, List.cons_append] at hinv
      have hrange : ¬OutOfRange (UInt64.ofNat (b.addr + 40)) s' := by
        rw [OutOfRange, hp, hbase, hbytes, Nat.mod_eq_of_lt hend]
        omega
      obtain ⟨s'', hcall, -, -, hinv'⟩ := kmemFree_inRange hinv hused (by rw [hp, haddr]) hrange
      refine ⟨UInt64.ofNat (b.addr + 40), s', s'', by rw [hp]; exact htook, hcall, ?_⟩
      rw [hinv'.blocks_eq, coalesce_take hm hfree htake, hg.inv.blocks_eq]
    · exact absurd hout hnone

theorem KmemRun.heap_end {allowed : KmemState → KmemOp → Prop}
    (hwrap : base.toNat + bytes.toNat ≤ 2 ^ 64) (hrun : KmemRun allowed base bytes s live) :
    (base.toNat + 55) / 16 * 16 - 40 + s.heapBytes = base.toNat + bytes.toNat := by
  induction hrun with
  | init hinit =>
      have hg := good_init hwrap hinit
      rw [← hg.base_eq, hg.top_eq]
  | step hrun hop hstep ih => rw [hstep.heapBytes_eq, ih]

/-- A heap that ends at the top of the address space has room for one byte when it is new. -/
theorem Good.handsOut_one (hg : Good base bytes s [] [⟨s.heapBase, s.heapBytes - 40, true⟩])
    (hend : s.heapBase + s.heapBytes = 2 ^ 64) :
    HandsOut 1 [⟨s.heapBase, s.heapBytes - 40, true⟩] := by
  have halign := hg.inv.aligned _ List.mem_cons_self
  refine ⟨by decide, _, List.mem_cons_self, rfl, ?_⟩
  show roundUp 1 ≤ s.heapBytes - 40
  have hround : roundUp 1 = 16 := by decide
  simp only at halign
  omega

/-- **When allocating and freeing undo each other**: on a heap of fewer than `2 ^ 32 - 64` bytes,
after every run and for every request, exactly when the end of the heap is itself an address. On
the heap that ends at `2 ^ 64` a free right after an allocation undoes it only where nothing was
handed out. -/
theorem kmemRun_alloc_free_iff {s0 : KmemState} (hwrap : base.toNat + bytes.toNat ≤ 2 ^ 64)
    (hinit : kmemInit base bytes s0 = (0, s)) (hsmall : s.heapBytes < 2 ^ 32 - 64) :
    ((∀ s' live n, KmemRun HeapOp base bytes s' live → AllocUndone n s') ↔
      base.toNat + bytes.toNat < 2 ^ 64) ∧
    ∀ s' live n, KmemRun HeapOp base bytes s' live →
      (AllocUndone n s' ↔
        base.toNat + bytes.toNat < 2 ^ 64 ∨ ¬HandsOut n (kmemBlocks s')) := by
  have heach : ∀ s' live n, KmemRun HeapOp base bytes s' live →
      (AllocUndone n s' ↔
        base.toNat + bytes.toNat < 2 ^ 64 ∨ ¬HandsOut n (kmemBlocks s')) := by
    intro s' live n hrun
    have hfirst : KmemRun HeapOp base bytes s [] := .init hinit
    have hbytes : s'.heapBytes = s.heapBytes := by
      have h1 := hrun.heap_end hwrap
      have h2 := hfirst.heap_end hwrap
      omega
    obtain ⟨bs, hg, hm⟩ := hrun.good_merged hwrap
      (fun _ _ _ _ hb hg hop => hop.fits hg.inv (by omega))
    rw [hg.inv.blocks_eq, ← hg.top_eq]
    exact hg.allocUndone_iff hm (hg.inv.fits_of_small (by omega) n.toNat)
  refine ⟨⟨fun hall => ?_, fun hend s' live n hrun => (heach s' live n hrun).mpr (Or.inl hend)⟩,
    heach⟩
  -- one byte from the new heap is enough to tell
  by_contra hend
  have hg := good_init hwrap hinit
  rcases (heach s [] 1 (.init hinit)).mp (hall s [] 1 (.init hinit)) with hlt | hnone
  · exact hend hlt
  · rw [hg.inv.blocks_eq] at hnone
    exact hnone (hg.handsOut_one (by rw [hg.top_eq]; omega))

/-- On the plain heap, with one block handed out, a second one is taken and given back. -/
theorem kmemRun_alloc_free_plain :
    ∃ s live, KmemRun HeapOp 0x1003 0x1000 s live ∧ live = [0x1030] ∧ AllocUndone 50 s := by
  have hptr : (kmemAlloc 100 plainHeap).map (fun r => r.1) = some 0x1030 := by decide +kernel
  obtain ⟨⟨p, s⟩, hcall, rfl⟩ := Option.map_eq_some_iff.mp hptr
  have hstep : KmemStep plainHeap [] (.alloc 100) s [0x1030] := .alloc hcall
  have hop : HeapOp plainHeap (.alloc 100) := trivial
  have hrun : KmemRun HeapOp 0x1003 0x1000 s [0x1030] := .step (.init plainHeap_init) hop hstep
  have hundone := (kmemRun_alloc_free_iff (by decide) plainHeap_init (by decide +kernel)).1
  exact ⟨s, _, hrun, rfl, hundone.mpr (by decide) s _ 50 hrun⟩

/-- A heap of one page that ends at the top of the address space. -/
def topHeap : KmemState := (kmemInit 0xfffffffffffff000 0x1000 ⟨Bytes.zero, 0, 0, false⟩).2

/-- The free of the block that was just handed out of the heap at the top answers `-3`. -/
theorem kmemAlloc_not_undone :
    ¬∀ (base bytes : UInt64) (s : KmemState) (live : List Nat) (n : UInt64),
      base.toNat + bytes.toNat ≤ 2 ^ 64 → KmemRun HeapOp base bytes s live →
      s.heapBytes < 2 ^ 32 - 64 → AllocUndone n s := by
  intro hall
  have hinit : kmemInit 0xfffffffffffff000 0x1000 ⟨Bytes.zero, 0, 0, false⟩ = (0, topHeap) :=
    Prod.ext (by decide) rfl
  obtain ⟨p, s', s'', hcall, hfree, -⟩ :=
    hall _ _ topHeap [] 100 (by decide) (.init hinit) (by decide +kernel)
  have heval : (kmemAlloc 100 topHeap).bind (fun r =>
      (kmemFreeChecked (UInt64.ofNat r.1) r.2).map (fun r' => r'.1)) = some (-3) := by
    decide +kernel
  rw [hcall, Option.bind_some, UInt64.ofNat_toNat, hfree] at heval
  cases heval

end Mcsos.Kmem
