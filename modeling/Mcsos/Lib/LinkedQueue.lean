import Mathlib.Tactic

set_option autoImplicit false

/-! # A queue linked through its members

The members of the queue are nodes, and each has one link, to the node behind it. `Linked` reads a
list off the links, and `LinkedTo` the part of one before some node; a `Queue` is such a list with no
node in it twice, and with its last node known. A node that is not in the queue may have any link.
-/

namespace Mcsos

variable {T : Type}

/-- From `head` on, the links run through `q` and end there. -/
def Linked (next : T → Option T) : Option T → List T → Prop
  | head, [] => head = none
  | head, t :: q => head = some t ∧ Linked next (next t) q

/-- From `head` on, the links run through `p` and lead to `tail`. -/
def LinkedTo (next : T → Option T) : Option T → List T → Option T → Prop
  | head, [], tail => head = tail
  | head, t :: p, tail => head = some t ∧ LinkedTo next (next t) p tail

namespace LinkedTo

variable {next next' : T → Option T} {head tail : Option T}

theorem congr {p : List T} (h : LinkedTo next head p tail) (hn : ∀ t ∈ p, next' t = next t) :
    LinkedTo next' head p tail := by
  induction p generalizing head with
  | nil => exact h
  | cons t p ih =>
      refine ⟨h.1, ?_⟩
      rw [hn t (by simp)]
      exact ih h.2 fun u hu => hn u (List.mem_cons_of_mem _ hu)

theorem exists_none {u : T} {P : List T → Prop} {n : Nat} :
    ¬∃ p, LinkedTo next none p (some u) ∧ p.length = n ∧ P p := by
  rintro ⟨p, hp, -, -⟩
  cases p with
  | nil => cases hp
  | cons t p => cases hp.1

theorem exists_some {t : T} {P : List T → Prop} {n : Nat} :
    (∃ p, LinkedTo next (some t) p tail ∧ p.length = n + 1 ∧ P p) ↔
      ∃ p, LinkedTo next (next t) p tail ∧ p.length = n ∧ P (t :: p) := by
  constructor
  · rintro ⟨p, hp, hlen, hP⟩
    cases p with
    | nil => cases hlen
    | cons u p =>
        obtain rfl : t = u := Option.some.inj hp.1
        exact ⟨p, hp.2, by simpa using hlen, hP⟩
  · rintro ⟨p, hp, hlen, hP⟩
    exact ⟨t :: p, ⟨rfl, hp⟩, by simp [hlen], hP⟩

end LinkedTo

namespace Linked

variable {next next' : T → Option T} {head : Option T}

theorem congr {q : List T} (h : Linked next head q) (hn : ∀ t ∈ q, next' t = next t) :
    Linked next' head q := by
  induction q generalizing head with
  | nil => exact h
  | cons t q ih =>
      refine ⟨h.1, ?_⟩
      rw [hn t (by simp)]
      exact ih h.2 fun u hu => hn u (List.mem_cons_of_mem _ hu)

theorem head_eq {q : List T} (h : Linked next head q) : head = q.head? := by
  cases q with
  | nil => exact h
  | cons t q => exact h.1

/-- The links determine the list. -/
theorem unique {q q' : List T} (h : Linked next head q) (h' : Linked next head q') : q = q' := by
  induction q generalizing head q' with
  | nil =>
      cases q' with
      | nil => rfl
      | cons t q' => exact absurd (h.symm.trans h'.1) (by simp)
  | cons t q ih =>
      cases q' with
      | nil => exact absurd (h'.symm.trans h.1) (by simp)
      | cons t' q' =>
          obtain rfl : t = t' := Option.some.inj (h.1.symm.trans h'.1)
          rw [ih h.2 h'.2]

/-- The list from no node is empty; the list from a node is that node and the list behind it. -/
theorem exists_none {P : List T → Prop} : (∃ q, Linked next none q ∧ P q) ↔ P [] := by
  constructor
  · rintro ⟨q, hq, hP⟩
    cases q with
    | nil => exact hP
    | cons t q => exact absurd hq.1 (by simp)
  · intro hP
    exact ⟨[], rfl, hP⟩

theorem exists_some {P : List T → Prop} {t : T} :
    (∃ q, Linked next (some t) q ∧ P q) ↔ ∃ q, Linked next (next t) q ∧ P (t :: q) := by
  constructor
  · rintro ⟨q, hq, hP⟩
    cases q with
    | nil => exact absurd hq (by simp [Linked])
    | cons u q =>
        obtain rfl : t = u := Option.some.inj hq.1
        exact ⟨q, hq.2, hP⟩
  · rintro ⟨q, hq, hP⟩
    exact ⟨t :: q, ⟨rfl, hq⟩, hP⟩

/-- A list is cut in front of one of its nodes. -/
theorem append_iff {p q : List T} {t : T} : Linked next head (p ++ t :: q) ↔
    LinkedTo next head p (some t) ∧ Linked next (some t) (t :: q) := by
  induction p generalizing head with
  | nil =>
      constructor
      · rintro ⟨rfl, h⟩
        exact ⟨rfl, rfl, h⟩
      · rintro ⟨rfl, h⟩
        exact h
  | cons u p ih =>
      rw [List.cons_append, Linked, LinkedTo, ih, and_assoc]

/-- No node is twice on a list that ends: behind it the links would run the same way again. -/
theorem nodup {q : List T} (h : Linked next head q) : q.Nodup := by
  induction q generalizing head with
  | nil => exact List.nodup_nil
  | cons t q ih =>
      apply List.nodup_cons.mpr
      refine ⟨?_, ih h.2⟩
      intro hmem
      obtain ⟨p, r, rfl⟩ := List.append_of_mem hmem
      have hrest : p ++ t :: r = r := h.2.unique (append_iff.mp h.2).2.2
      have hlen := congrArg List.length hrest
      simp at hlen
      omega

/-- One more node behind the last one. -/
theorem snoc {q : List T} {last t : T} (h : Linked next head (q ++ [last]))
    (hn : ∀ u ∈ q, next' u = next u) (hl : next' last = some t) (ht : next' t = none) :
    Linked next' head (q ++ [last] ++ [t]) := by
  rw [List.append_assoc, List.singleton_append, append_iff]
  exact ⟨(append_iff.mp h).1.congr hn, rfl, hl, ht⟩

end Linked

/-- A list of different nodes, its first and its last. -/
structure Queue (next : T → Option T) (head tail : Option T) (q : List T) : Prop where
  linked : Linked next head q
  last : tail = q.getLast?
  nodup : q.Nodup

namespace Queue

variable {next next' : T → Option T} {head tail : Option T} {q : List T}

theorem empty : Queue next none none [] := ⟨rfl, rfl, List.nodup_nil⟩

theorem congr (h : Queue next head tail q) (hn : ∀ t ∈ q, next' t = next t) :
    Queue next' head tail q := ⟨h.linked.congr hn, h.last, h.nodup⟩

theorem eq_nil (h : Queue next head none q) : q = [] := List.getLast?_eq_none_iff.mp h.last.symm

theorem eq_nil_of_head (h : Queue next none tail q) : q = [] := by
  cases q with
  | nil => rfl
  | cons t q => exact absurd h.linked.1 (by simp)

/-- The first node of a queue that has none is its last too. -/
theorem push_first {t : T} (hn : next t = none) : Queue next (some t) (some t) [t] :=
  ⟨⟨rfl, hn⟩, rfl, List.nodup_singleton t⟩

/-- The last node is linked to a new one. -/
theorem push {last t : T} (h : Queue next head (some last) q) (ht : t ∉ q)
    (hn : ∀ u ∈ q, u ≠ last → next' u = next u) (hl : next' last = some t)
    (hnt : next' t = none) : Queue next' head (some t) (q ++ [t]) := by
  obtain ⟨p, rfl⟩ : ∃ p, q = p ++ [last] := List.getLast?_eq_some_iff.mp h.last.symm
  have hp : last ∉ p := by
    have hnd := h.nodup
    rw [List.nodup_append] at hnd
    exact fun hm => hnd.2.2 last hm last (by simp) rfl
  refine ⟨h.linked.snoc (fun u hu => ?_) hl hnt, by simp, ?_⟩
  · exact hn u (List.mem_append_left _ hu) fun he => hp (he ▸ hu)
  · rw [List.nodup_append]
    refine ⟨h.nodup, List.nodup_singleton t, ?_⟩
    intro a ha b hb hab
    obtain rfl : b = t := by simpa using hb
    exact ht (hab ▸ ha)

/-- The first node goes; the last one is unchanged, or there is none any more. -/
theorem pop {t : T} (h : Queue next (some t) tail q) :
    ∃ q', q = t :: q' ∧ t ∉ q' ∧
      Queue next (next t) (if next t = none then none else tail) q' := by
  cases q with
  | nil => exact absurd h.linked (by simp [Linked])
  | cons u q =>
      obtain rfl : t = u := Option.some.inj h.linked.1
      have hnd := List.nodup_cons.mp h.nodup
      refine ⟨q, rfl, hnd.1, h.linked.2, ?_, hnd.2⟩
      have hhead : next t = q.head? := h.linked.2.head_eq
      cases q with
      | nil =>
          rw [if_pos (by rw [hhead]; rfl)]
          rfl
      | cons v q =>
          rw [if_neg (by rw [hhead]; simp), h.last, List.getLast?_cons_cons]

end Queue

end Mcsos
