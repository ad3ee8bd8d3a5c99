import PointerChannels.Visit
import Mathlib.Data.Fintype.Card
import Mathlib.Data.List.Nodup
import Mathlib.Data.List.TakeWhile
import Mathlib.Logic.Relation

/-!
# A visit finds what can be reached

`visit` lists exactly the indices that its start leads to, whenever the bound lies above all of
them.  Every step either ends the visit or adds an index that was not listed, so a visit that
uses up its bound has listed every index below it.
-/

namespace PointerChannels

/-- One index leads to another in one step. -/
abbrev StepsTo (next : Nat → List Nat) (x y : Nat) : Prop := y ∈ next x

/-- One index leads to another in any number of steps. -/
abbrev LeadsTo (next : Nat → List Nat) : Nat → Nat → Prop :=
  Relation.ReflTransGen (StepsTo next)

variable {next : Nat → List Nat}

/-- What a visit has done so far: what it has listed came from the start, and what a listed
index steps to is listed or waits. -/
structure VisitState (next : Nat → List Nat) (bound : Nat) (start : List Nat) (steps : Nat)
    (seen queue : List Nat) : Prop where
  nodup : seen.Nodup
  steps_add : steps + seen.length = bound
  lt_bound : ∀ x, x ∈ seen ∨ x ∈ queue → x < bound
  reached : ∀ x, x ∈ seen ∨ x ∈ queue → ∃ s ∈ start, LeadsTo next s x
  start_mem : ∀ x ∈ start, x ∈ seen ∨ x ∈ queue
  closed : ∀ x ∈ seen, ∀ y ∈ next x, y ∈ seen ∨ y ∈ queue

namespace VisitState

variable {bound steps x : Nat} {start seen queue rest : List Nat}

/-- What is listed already may be dropped from the front of the queue. -/
theorem dropWhile (h : VisitState next bound start steps seen queue) :
    VisitState next bound start steps seen (queue.dropWhile (seen.contains ·)) := by
  have hmem : ∀ y, y ∈ queue → y ∈ seen ∨ y ∈ queue.dropWhile (seen.contains ·) := by
    intro y hy
    rw [← List.takeWhile_append_dropWhile (p := (seen.contains ·)) (l := queue),
      List.mem_append] at hy
    rcases hy with hy | hy
    · exact .inl (by simpa using List.mem_takeWhile_imp hy)
    · exact .inr hy
  have hsub : ∀ y, y ∈ queue.dropWhile (seen.contains ·) → y ∈ queue :=
    fun y hy => (List.dropWhile_sublist _).subset hy
  refine ⟨h.nodup, h.steps_add, fun y hy => h.lt_bound y (hy.imp_right (hsub y)),
    fun y hy => h.reached y (hy.imp_right (hsub y)), fun y hy => ?_, fun z hz y hy => ?_⟩
  · exact (h.start_mem y hy).elim .inl (hmem y)
  · exact (h.closed z hz y hy).elim .inl (hmem y)

/-- Listing the first waiting index, which is new, and letting what it steps to wait. -/
theorem list (hnext : ∀ x y, y ∈ next x → y < bound) (hx : x ∉ seen)
    (h : VisitState next bound start (steps + 1) seen (x :: rest)) :
    VisitState next bound start steps (seen ++ [x]) (rest ++ next x) := by
  have hreached := h.reached x (.inr (by simp))
  refine ⟨?_, ?_, fun y hy => ?_, fun y hy => ?_, fun y hy => ?_, fun z hz y hy => ?_⟩
  · exact List.nodup_append.2 ⟨h.nodup, by simp, by
      intro y hy z hz e
      rw [List.mem_singleton] at hz
      exact hx (hz ▸ e ▸ hy)⟩
  · have := h.steps_add
    simp only [List.length_append, List.length_singleton]
    omega
  · simp only [List.mem_append, List.mem_singleton] at hy
    rcases hy with (hy | rfl) | hy | hy
    · exact h.lt_bound y (.inl hy)
    · exact h.lt_bound y (.inr (by simp))
    · exact h.lt_bound y (.inr (by simp [hy]))
    · exact hnext x y hy
  · simp only [List.mem_append, List.mem_singleton] at hy
    rcases hy with (hy | rfl) | hy | hy
    · exact h.reached y (.inl hy)
    · exact hreached
    · exact h.reached y (.inr (by simp [hy]))
    · obtain ⟨s, hs, hpath⟩ := hreached
      exact ⟨s, hs, hpath.tail hy⟩
  · have := h.start_mem y hy
    simp only [List.mem_cons, List.mem_append] at this ⊢
    tauto
  · simp only [List.mem_append, List.mem_singleton] at hz
    rcases hz with hz | rfl
    · have := h.closed z hz y hy
      simp only [List.mem_cons, List.mem_append] at this ⊢
      tauto
    · exact .inr (List.mem_append.2 (.inr hy))

/-- A visit that has used up its bound has listed every index below it. -/
theorem mem_of_steps_eq_zero (h : VisitState next bound start 0 seen queue) (hx : x < bound) :
    x ∈ seen := by
  have hcard : seen.length = bound := by have := h.steps_add; omega
  have hsub : seen.toFinset ⊆ Finset.range bound := by
    intro y hy
    exact Finset.mem_range.2 (h.lt_bound y (.inl (List.mem_toFinset.1 hy)))
  have heq : seen.toFinset = Finset.range bound := by
    refine Finset.eq_of_subset_of_card_le hsub ?_
    rw [Finset.card_range, List.toFinset_card_of_nodup h.nodup, hcard]
  rw [← List.mem_toFinset, heq]
  exact Finset.mem_range.2 hx

/-- At its end a visit has listed each index once, all of them reached from the start, and
is closed under steps. -/
theorem visitFrom (hnext : ∀ x y, y ∈ next x → y < bound) :
    ∀ steps seen queue, VisitState next bound start steps seen queue →
      ∃ rest, VisitState next bound start rest (visitFrom next steps seen queue) [] := by
  intro steps
  induction steps with
  | zero =>
      intro seen queue h
      refine ⟨0, h.nodup, h.steps_add, fun x hx => h.lt_bound x (hx.imp_right (by simp)),
        fun x hx => h.reached x (hx.imp_right (by simp)), fun x hx => .inl ?_,
        fun z hz y hy => .inl (h.mem_of_steps_eq_zero (hnext z y hy))⟩
      exact h.mem_of_steps_eq_zero (h.lt_bound x (h.start_mem x hx))
  | succ steps ih =>
      intro seen queue h
      have hdrop := h.dropWhile
      rw [PointerChannels.visitFrom]
      split
      · rename_i hnil
        rw [hnil] at hdrop
        exact ⟨_, hdrop⟩
      · rename_i x rest hcons
        have hx : x ∉ seen := by
          have hhead := List.head?_dropWhile_not (seen.contains ·) queue
          rw [hcons, List.head?_cons] at hhead
          simpa using hhead
        rw [hcons] at hdrop
        exact ih _ _ (hdrop.list hnext hx)

end VisitState

section

variable {bound : Nat} {start : List Nat}

theorem exists_visitState (hstart : ∀ x ∈ start, x < bound)
    (hnext : ∀ x y, y ∈ next x → y < bound) :
    ∃ rest, VisitState next bound start rest (visit next bound start) [] := by
  refine VisitState.visitFrom hnext bound [] start ⟨by simp, by simp, fun x hx => ?_,
    fun x hx => ?_, fun x hx => .inr hx, by simp⟩
  · exact hstart x (by simpa using hx)
  · exact ⟨x, by simpa using hx, .refl⟩

/-- **A visit lists exactly what its start leads to.** -/
theorem mem_visit_iff (hstart : ∀ x ∈ start, x < bound)
    (hnext : ∀ x y, y ∈ next x → y < bound) {y : Nat} :
    y ∈ visit next bound start ↔ ∃ x ∈ start, LeadsTo next x y := by
  obtain ⟨rest, h⟩ := exists_visitState hstart hnext
  constructor
  · exact fun hy => h.reached y (.inl hy)
  · rintro ⟨x, hx, hpath⟩
    induction hpath with
    | refl => simpa using h.start_mem x hx
    | tail _ hstep ih => simpa using h.closed _ ih _ hstep

end

end PointerChannels
