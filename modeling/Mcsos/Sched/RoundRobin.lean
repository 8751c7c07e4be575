import Mathlib.Data.List.Rotate
import Mcsos.Sched.Validate

set_option autoImplicit false

/-! # Round robin (`kernel/mcsos_thread.c`)

A yield takes the first thread of the queue and puts the current one behind the last. The queue and
the current thread, read as one list, are then rotated by one place: that is all a yield does to
them, and `k` yields rotate by `k` places.
-/

namespace Mcsos.Sched

variable {T : Type} [DecidableEq T] {s : State T} {q : List T} {t c : T}

/-- The current thread `c` runs, the threads of the queue `q` are ready, and none of them is the
idle thread. -/
structure RoundRobin (s : State T) (q : List T) (c : T) : Prop where
  initialized : s.sched.initialized = true
  current : s.sched.current = some c
  ready : ReadyQueue s q
  magic : ∀ t, t = c ∨ t ∈ q → (s.threads t).magic = threadMagic
  queued : ∀ t ∈ q, s.states t = .ready
  running : s.states c = .running
  current_not_queued : c ∉ q
  not_idle : ∀ t, t = c ∨ t ∈ q → s.sched.idle ≠ some t

namespace RoundRobin

omit [DecidableEq T] in
theorem valid (h : RoundRobin s q c) (ht : t = c ∨ t ∈ q) :
    validThreadObject s (some t) = true := by
  simp [validThreadObject, h.magic t ht]

theorem validate (h : RoundRobin s q c) : schedValidate s = schedOk := by
  refine schedValidate_iff.mpr ⟨h.initialized, ?_, q, h.ready.wellFormed fun t ht => ⟨?_, ?_, ?_⟩⟩
  · rw [h.current]
    exact h.valid (Or.inl rfl)
  · exact h.valid (Or.inr ht)
  · exact h.queued t ht
  · rw [h.current]
    intro he
    exact h.current_not_queued (Option.some.inj he ▸ ht)

theorem of_validate (hv : schedValidate s = schedOk)
    (hq : Linked (fun u => (s.threads u).next) s.sched.readyHead q)
    (hc : s.sched.current = some c) (hrun : s.states c = .running)
    (hidle : ∀ t, t = c ∨ t ∈ q → s.sched.idle ≠ some t) : RoundRobin s q c := by
  obtain ⟨hi, hcv, q', h⟩ := schedValidate_iff.mp hv
  obtain rfl := hq.unique h.linked
  refine ⟨hi, hc, h.readyQueue, ?_, fun t ht => (h.nodes t ht).2.1, hrun, ?_, hidle⟩
  · rintro t (rfl | ht)
    · simpa [hc, validThreadObject] using hcv
    · simpa [validThreadObject] using (h.nodes t ht).1
  · intro hmem
    exact (h.nodes c hmem).2.2 hc.symm

/-- The first of the queue becomes current, and the current thread the last of the queue. -/
theorem yield (h : RoundRobin s (t :: q) c) :
    ∃ s', schedYield s = (s', schedOk) ∧ s'.sched.idle = s.sched.idle ∧
      RoundRobin s' (q ++ [c]) t := by
  obtain ⟨s₁, n, q₁, hpick, hq₁, hframe, hstates, hnext⟩ := schedPickNext_spec h.initialized h.ready
  obtain ⟨rfl, htq, rfl⟩ : q₁ = q ∧ t ∉ q ∧ n = some t := by
    rcases hnext with ⟨he, -, -⟩ | ⟨u, he, hu, rfl⟩
    · cases he
    · obtain ⟨rfl, rfl⟩ := List.cons.inj he
      exact ⟨rfl, hu, rfl⟩
  have hct : c ≠ t ∧ c ∉ q₁ := by
    have hnot := h.current_not_queued
    rwa [List.mem_cons, not_or] at hnot
  have hstep := schedYield_picked h.initialized h.current (h.valid (Or.inl rfl)) hpick
    (by simp [validThreadObject, hframe.magic, h.magic t (Or.inr (by simp))])
  have hback : (s₁.threads c).state = .running ∧ some c ≠ s₁.sched.idle := by
    constructor
    · exact (congrFun hstates c).trans h.running
    · rw [hframe.idle]
      exact (h.not_idle c (Or.inl rfl)).symm
  obtain ⟨s₂, henq, hq₂, hframe₂, hstates₂⟩ := schedEnqueue_spec
    (s := s₁.modify c fun th => { th with state := .ready }) (t := c) (q := q₁)
    (hframe.initialized.trans h.initialized)
    (by rw [modify_keeps Thread.magic (fun _ => by rfl), hframe.magic, h.magic c (Or.inl rfl)])
    (Or.inr (Or.inl (by rw [modify_states (fun _ => by rfl), Function.update_self])))
    (hq₁.modify fun _ _ => by rfl) hct.2
  rw [if_neg (Ne.symm hct.1), if_pos hback, henq] at hstep
  have hidle : s₂.sched.idle = s.sched.idle := hframe₂.idle.trans hframe.idle
  refine ⟨switchTo s₂ c t, by simpa using hstep, hidle, ?_⟩
  have hmem : ∀ u, u = t ∨ u ∈ q₁ ++ [c] → u = c ∨ u ∈ t :: q₁ := by
    intro u hu
    simp only [List.mem_append, List.mem_cons] at hu ⊢
    tauto
  have hafter : ∀ u, u ≠ t →
      (switchTo s₂ c t).states u = if u = c then .ready else s.states u := by
    intro u hu
    rw [switchTo_states, Function.update_of_ne hu, hstates₂, modify_states (fun _ => by rfl),
      hstates, Function.update_idem]
    by_cases huc : u = c
    · rw [huc, Function.update_self, if_pos rfl]
    · rw [Function.update_of_ne huc, if_neg huc]
  refine ⟨hframe₂.initialized.trans (hframe.initialized.trans h.initialized), rfl,
    switchTo_queue hq₂ c t, fun u hu => ?_, fun u hu => ?_, ?_, ?_, fun u hu => ?_⟩
  · rw [switchTo_magic, hframe₂.magic, modify_keeps Thread.magic (fun _ => by rfl), hframe.magic,
      h.magic u (hmem u hu)]
  · have hut : u ≠ t := by
      rintro rfl
      simp only [List.mem_append, List.mem_singleton] at hu
      exact hu.elim htq fun he => hct.1 he.symm
    rw [hafter u hut]
    split_ifs with huc
    · rfl
    · simp only [List.mem_append, List.mem_singleton] at hu
      exact h.queued u (List.mem_cons_of_mem t (hu.resolve_right huc))
  · rw [switchTo_states, Function.update_self]
  · simp [htq, Ne.symm hct.1]
  · exact fun he => h.not_idle u (hmem u hu) (hidle.symm.trans he)

end RoundRobin

/-! ## Many yields -/

/-- The state behind `k` yields. -/
def afterYields (s : State T) : Nat → State T
  | 0 => s
  | k + 1 => (schedYield (afterYields s k)).1

theorem RoundRobin.afterYields (h : RoundRobin s q c) (hq : q ≠ []) (k : Nat) :
    (Sched.afterYields s k).sched.idle = s.sched.idle ∧
    ∃ q' c', RoundRobin (Sched.afterYields s k) q' c' ∧ q' ++ [c'] = (q ++ [c]).rotate k ∧
      q'.length = q.length := by
  induction k with
  | zero => exact ⟨rfl, q, c, h, by simp, rfl⟩
  | succ k ih =>
      obtain ⟨hidle, q', c', h', hrot, hlen⟩ := ih
      cases q' with
      | nil => exact absurd (List.length_eq_zero_iff.mp hlen.symm) hq
      | cons t q' =>
          obtain ⟨s', hcall, hidle', h''⟩ := h'.yield
          have hs' : Sched.afterYields s (k + 1) = s' := congrArg Prod.fst hcall
          rw [hs']
          refine ⟨hidle'.trans hidle, q' ++ [c'], t, h'', ?_, by simpa using hlen⟩
          calc q' ++ [c'] ++ [t] = (t :: q' ++ [c']).rotate 1 := by simp
            _ = ((q ++ [c]).rotate k).rotate 1 := by rw [hrot]
            _ = (q ++ [c]).rotate (k + 1) := List.rotate_rotate _ _ _

theorem RoundRobin.current_at (h : RoundRobin s q c) (hq : q ≠ []) (k : Nat) :
    (Sched.afterYields s (k + 1)).sched.current = (q ++ [c])[k % (q.length + 1)]? := by
  obtain ⟨-, q', c', h', hrot, hlen⟩ := h.afterYields hq (k + 1)
  have hlast : (q' ++ [c'])[q'.length]? = some c' := by simp
  have hlength : (q ++ [c]).length = q.length + 1 := by simp
  have hindex : (q'.length + (k + 1)) % (q ++ [c]).length = k % (q.length + 1) := by
    rw [hlen, hlength, show q.length + (k + 1) = q.length + 1 + k by omega, Nat.add_mod_left]
  rw [h'.current, ← hlast, hrot, List.getElem?_rotate (by omega), hindex]

/-- With `n` threads in the queue, `k` yields rotate the queue and the current thread by `k` places:
the threads run one after the other, and `n + 1` yields bring everything back. -/
theorem schedYield_rotates (hv : schedValidate s = schedOk)
    (hq : Linked (fun u => (s.threads u).next) s.sched.readyHead q) (hne : q ≠ [])
    (hc : s.sched.current = some c) (hrun : s.states c = .running)
    (hidle : ∀ t, t = c ∨ t ∈ q → s.sched.idle ≠ some t) :
    (∀ k, (schedYield (afterYields s k)).2 = schedOk ∧
      (afterYields s k).sched.current ≠ s.sched.idle ∧
      ∃ q' c', ReadyQueue (afterYields s k) q' ∧ (afterYields s k).sched.current = some c' ∧
        q' ++ [c'] = (q ++ [c]).rotate k) ∧
    (∀ k, (afterYields s (k + 1)).sched.current = (q ++ [c])[k % (q.length + 1)]?) ∧
    (afterYields s (q.length + 1)).sched.current = some c ∧
    ReadyQueue (afterYields s (q.length + 1)) q ∧
    (q ++ [c]).Nodup ∧
    (List.range (q.length + 1)).map (fun k => (afterYields s (k + 1)).sched.current) =
      (q ++ [c]).map some := by
  have h : RoundRobin s q c := RoundRobin.of_validate hv hq hc hrun hidle
  have hlength : (q ++ [c]).length = q.length + 1 := by simp
  refine ⟨fun k => ?_, h.current_at hne, ?_⟩
  · obtain ⟨hsame, q', c', h', hrot, hlen⟩ := h.afterYields hne k
    refine ⟨?_, ?_, q', c', h'.ready, h'.current, hrot⟩
    · cases q' with
      | nil => exact absurd (List.length_eq_zero_iff.mp hlen.symm) hne
      | cons t q' =>
          obtain ⟨s', hcall, -⟩ := h'.yield
          rw [hcall]
    · rw [h'.current, ← hsame]
      exact (h'.not_idle c' (Or.inl rfl)).symm
  · obtain ⟨-, q', c', h', hrot, -⟩ := h.afterYields hne (q.length + 1)
    rw [← hlength, List.rotate_length] at hrot
    obtain ⟨rfl, hlast⟩ := List.append_inj' hrot rfl
    obtain rfl : c' = c := by simpa using hlast
    refine ⟨h'.current, h'.ready, ?_, ?_⟩
    · rw [List.nodup_append]
      refine ⟨h.ready.queue.nodup, List.nodup_singleton _, ?_⟩
      intro a ha b hb hab
      obtain rfl : b = c' := by simpa using hb
      exact h.current_not_queued (hab ▸ ha)
    · apply List.ext_getElem?
      intro k
      by_cases hk : k < q'.length + 1
      · rw [List.getElem?_map, List.getElem?_map, List.getElem?_range hk, Option.map_some,
          h.current_at hne, Nat.mod_eq_of_lt hk,
          List.getElem?_eq_getElem (by rw [hlength]; exact hk)]
        rfl
      · rw [List.getElem?_eq_none (by simpa using hk), List.getElem?_eq_none (by simpa using hk)]

/-- The thread that runs is 1, and 2 is ready; 0 is the idle thread. -/
def twoThreadState : State Nat where
  sched := ⟨some 1, some 0, some 2, some 2, 3, 1, 0, 0, true⟩
  threads := fun t =>
    ⟨threadMagic, 0, 0, if t = 2 then .ready else .running, zeroContext, 0, 0, 0, 0, none, 0, 0, 0⟩

theorem schedYield_rotates_two : (afterYields twoThreadState 2).sched.current = some 1 := by
  have hlinked : Linked (fun u => (twoThreadState.threads u).next) (some 2) [2] := ⟨rfl, rfl⟩
  have hvalid : schedValidate twoThreadState = schedOk :=
    schedValidate_iff.mpr ⟨rfl, rfl, [2], hlinked, rfl, by simp, by
      intro t ht
      obtain rfl : t = 2 := by simpa using ht
      exact ⟨rfl, rfl, by decide⟩, rfl⟩
  exact (schedYield_rotates (q := [2]) hvalid hlinked (by simp) rfl rfl (by
    rintro t (rfl | ht)
    · decide
    · obtain rfl : t = 2 := by simpa using ht
      decide)).2.2.1

end Mcsos.Sched
