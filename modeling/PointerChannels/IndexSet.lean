/-!
# Finite sets of indices

Points-to sets, edge sets and channel sets are all finite sets of natural numbers.  They are
kept as strictly ascending lists, so that two sets with the same members are the same value
(`IndexSet.ext_mem`) and every listing of a set is in ascending order.

The view of a set is membership; each operation comes with the equation that says what it does
to the view.
-/

namespace PointerChannels

/-- A finite set of indices, listed in strictly ascending order. -/
structure IndexSet where
  /-- The members, smallest first. -/
  toList : List Nat
  /-- No member is repeated and none stands out of order. -/
  ascending : toList.Pairwise (· < ·)
deriving DecidableEq, Repr

namespace IndexSet

/-! ## Insertion into an ascending list -/

/-- Put `x` at its place in an ascending list, once. -/
def insertInto (x : Nat) : List Nat → List Nat
  | [] => [x]
  | y :: ys => if x < y then x :: y :: ys else if x = y then y :: ys else y :: insertInto x ys

theorem mem_insertInto {x a : Nat} {l : List Nat} : a ∈ insertInto x l ↔ a = x ∨ a ∈ l := by
  induction l with
  | nil => simp [insertInto]
  | cons y ys ih =>
    rw [insertInto]
    split
    · simp
    · split <;> grind

theorem pairwise_insertInto {x : Nat} {l : List Nat} (h : l.Pairwise (· < ·)) :
    (insertInto x l).Pairwise (· < ·) := by
  induction l with
  | nil => simp [insertInto]
  | cons y ys ih =>
    have hy := List.pairwise_cons.1 h
    rw [insertInto]
    split
    · exact List.pairwise_cons.2 ⟨by grind, h⟩
    · split
      · exact h
      · refine List.pairwise_cons.2 ⟨fun a ha => ?_, ih hy.2⟩
        rcases mem_insertInto.1 ha with rfl | ha
        · omega
        · exact hy.1 a ha

/-! ## Operations -/

/-- The set without members. -/
def empty : IndexSet := ⟨[], List.Pairwise.nil⟩

instance : EmptyCollection IndexSet := ⟨empty⟩
instance : Inhabited IndexSet := ⟨empty⟩

instance : Membership Nat IndexSet := ⟨fun s x => x ∈ s.toList⟩

instance (x : Nat) (s : IndexSet) : Decidable (x ∈ s) :=
  inferInstanceAs (Decidable (x ∈ s.toList))

/-- Whether `x` is a member. -/
def contains (s : IndexSet) (x : Nat) : Bool := decide (x ∈ s)

/-- The number of members. -/
def size (s : IndexSet) : Nat := s.toList.length

/-- Whether there is no member. -/
def isEmpty (s : IndexSet) : Bool := s.toList.isEmpty

/-- The set with `x` added. -/
def insert (s : IndexSet) (x : Nat) : IndexSet :=
  ⟨insertInto x s.toList, pairwise_insertInto s.ascending⟩

/-- The members that satisfy `p`. -/
def filter (p : Nat → Bool) (s : IndexSet) : IndexSet :=
  ⟨s.toList.filter p, s.ascending.filter _⟩

/-- The set with `x` taken out. -/
def erase (s : IndexSet) (x : Nat) : IndexSet := s.filter (· != x)

/-- The set with every element of `xs` added. -/
def insertAll (s : IndexSet) (xs : List Nat) : IndexSet := xs.foldl insert s

/-- The set of the elements of `xs`. -/
def ofList (xs : List Nat) : IndexSet := empty.insertAll xs

/-- The set with the one member `x`. -/
def singleton (x : Nat) : IndexSet := ⟨[x], List.pairwise_singleton _ _⟩

/-- The members of either set. -/
def union (s t : IndexSet) : IndexSet := s.insertAll t.toList

/-- Whether every member of `s` is one of `t`. -/
def subset (s t : IndexSet) : Bool := s.toList.all t.contains

/-- Whether no member of `s` is one of `t`. -/
def disjoint (s t : IndexSet) : Bool := s.toList.all (!t.contains ·)

/-! ## What the operations do to membership -/

@[simp] theorem mem_toList {s : IndexSet} {x : Nat} : x ∈ s.toList ↔ x ∈ s := Iff.rfl

/-- Sets with the same members are equal. -/
theorem ext_mem {s t : IndexSet} (h : ∀ x, x ∈ s ↔ x ∈ t) : s = t := by
  have hs : ∀ {l m : List Nat}, l.Pairwise (· < ·) → m.Pairwise (· < ·) →
      (∀ x, x ∈ l ↔ x ∈ m) → l = m := by
    intro l
    induction l with
    | nil =>
      intro m _ _ hm
      exact (List.eq_nil_iff_forall_not_mem.2 fun a ha => by simpa using (hm a).2 ha).symm
    | cons a l ih =>
      intro m hl hm' hm
      cases m with
      | nil => simpa using (hm a).1 (by simp)
      | cons b m =>
        have ha := List.pairwise_cons.1 hl
        have hb := List.pairwise_cons.1 hm'
        have hab : a = b := by
          rcases List.mem_cons.1 ((hm a).1 (by simp)) with h1 | h1
          · exact h1
          · rcases List.mem_cons.1 ((hm b).2 (by simp)) with h2 | h2
            · exact h2.symm
            · have := hb.1 a h1
              have := ha.1 b h2
              omega
        subst hab
        refine congrArg (a :: ·) (ih ha.2 hb.2 fun x => ?_)
        have hx := hm x
        simp only [List.mem_cons] at hx
        constructor
        · intro hxl
          have := ha.1 x hxl
          rcases hx.1 (Or.inr hxl) with h1 | h1
          · omega
          · exact h1
        · intro hxm
          have := hb.1 x hxm
          rcases hx.2 (Or.inr hxm) with h1 | h1
          · omega
          · exact h1
  obtain ⟨l, hl⟩ := s
  obtain ⟨m, hm⟩ := t
  have : l = m := hs hl hm h
  subst this
  rfl

@[simp] theorem contains_iff {s : IndexSet} {x : Nat} : s.contains x = true ↔ x ∈ s := by
  simp [contains]

@[simp] theorem not_mem_empty (x : Nat) : ¬ x ∈ empty := List.not_mem_nil

@[simp] theorem mem_insert {s : IndexSet} {x a : Nat} : a ∈ s.insert x ↔ a = x ∨ a ∈ s :=
  mem_insertInto

@[simp] theorem mem_filter {s : IndexSet} {p : Nat → Bool} {a : Nat} :
    a ∈ s.filter p ↔ a ∈ s ∧ p a = true :=
  List.mem_filter

@[simp] theorem mem_erase {s : IndexSet} {x a : Nat} : a ∈ s.erase x ↔ a ∈ s ∧ a ≠ x := by
  simp [erase]

@[simp] theorem mem_insertAll {s : IndexSet} {xs : List Nat} {a : Nat} :
    a ∈ s.insertAll xs ↔ a ∈ s ∨ a ∈ xs := by
  induction xs generalizing s with
  | nil => simp [insertAll]
  | cons x xs ih =>
    have h : s.insertAll (x :: xs) = (s.insert x).insertAll xs := rfl
    rw [h, ih]
    grind [mem_insert]

@[simp] theorem mem_ofList {xs : List Nat} {a : Nat} : a ∈ ofList xs ↔ a ∈ xs := by
  simp [ofList]

@[simp] theorem mem_singleton {x a : Nat} : a ∈ singleton x ↔ a = x :=
  List.mem_singleton

@[simp] theorem mem_union {s t : IndexSet} {a : Nat} : a ∈ s.union t ↔ a ∈ s ∨ a ∈ t := by
  simp [union]

theorem subset_iff {s t : IndexSet} : s.subset t = true ↔ ∀ x, x ∈ s → x ∈ t := by
  simp [subset, List.all_eq_true]

theorem disjoint_iff {s t : IndexSet} : s.disjoint t = true ↔ ∀ x, x ∈ s → ¬ x ∈ t := by
  simp [disjoint, List.all_eq_true, contains]

theorem isEmpty_iff {s : IndexSet} : s.isEmpty = true ↔ ∀ x, ¬ x ∈ s := by
  rw [isEmpty, List.isEmpty_iff, List.eq_nil_iff_forall_not_mem]
  exact Iff.rfl

end IndexSet
end PointerChannels
