import PointerChannels.Fault
import PointerChannels.IndexSet
import Mathlib.Data.Finset.Card
import Mathlib.Data.List.Nodup

/-!
# Folds that can fail, look-ups, and sizes of index sets

Most loops of the library are left folds in `Except`.  `foldlM_ok` is the one induction over
them: when every round succeeds, keeps an invariant and relates its end to its start, so does
the fold, and what each round achieved for its element still holds at the end.  `foldlM_of_ok`
is its converse companion, for a fold that is known to have succeeded; `bind_eq_ok` takes such
a run apart.  `foldlM_prefix` is for invariants that speak of what has been folded so far, and
`foldlM_rel` for two folds in step.

The bounds on loops count the members of index sets.
-/

namespace PointerChannels

/-- A fold whose rounds succeed succeeds.  `G` is the invariant, `R` relates the states before
and after, and `D a` is what the round of `a` achieves; later rounds must not undo it. -/
theorem foldlM_ok {ε σ α : Type} {f : σ → α → Except ε σ} {G : σ → Prop} {R : σ → σ → Prop}
    {D : α → σ → Prop} (refl : ∀ s, R s s)
    (trans : ∀ {s t u}, R s t → R t u → R s u)
    (keep : ∀ {a s t}, D a s → R s t → D a t) {l : List α}
    (round : ∀ s, ∀ a ∈ l, G s → ∃ t, f s a = .ok t ∧ G t ∧ R s t ∧ D a t)
    {s : σ} (hs : G s) :
    ∃ t, l.foldlM f s = .ok t ∧ G t ∧ R s t ∧ ∀ a ∈ l, D a t := by
  induction l generalizing s with
  | nil => exact ⟨s, rfl, hs, refl s, by simp⟩
  | cons a l ih =>
      obtain ⟨t, hst, ht, hstep, hdone⟩ := round s a (by simp) hs
      obtain ⟨u, htu, hu, hstep', hdone'⟩ :=
        ih (fun s b hb => round s b (List.mem_cons_of_mem a hb)) ht
      refine ⟨u, ?_, hu, trans hstep hstep', ?_⟩
      · rw [List.foldlM_cons, hst]
        exact htu
      · intro b hb
        rcases List.mem_cons.1 hb with rfl | hb
        · exact keep hdone hstep'
        · exact hdone' b hb

/-- A fold succeeds if no round can fail while the invariant holds. -/
theorem foldlM_total {ε σ α : Type} {f : σ → α → Except ε σ} {G : σ → Prop} {l : List α}
    (round : ∀ s, ∀ a ∈ l, G s → ∃ t, f s a = .ok t ∧ G t) {s : σ} (hs : G s) :
    ∃ t, l.foldlM f s = .ok t ∧ G t := by
  induction l generalizing s with
  | nil => exact ⟨s, rfl, hs⟩
  | cons a l ih =>
      obtain ⟨t, hst, ht⟩ := round s a (by simp) hs
      rw [List.foldlM_cons, hst]
      exact ih (fun s b hb => round s b (List.mem_cons_of_mem a hb)) ht

/-- A fold depends on the rounds of its members alone. -/
theorem foldlM_congr {ε σ α : Type} {f g : σ → α → Except ε σ} {l : List α}
    (h : ∀ s, ∀ a ∈ l, f s a = g s a) (s : σ) : l.foldlM f s = l.foldlM g s := by
  induction l generalizing s with
  | nil => rfl
  | cons a l ih =>
      simp only [List.foldlM_cons, h s a (by simp),
        ih fun s b hb => h s b (List.mem_cons_of_mem a hb)]

/-! ## Runs that succeeded -/

theorem bind_eq_ok {ε α β : Type} {x : Except ε α} {f : α → Except ε β} {b : β} :
    x >>= f = .ok b ↔ ∃ a, x = .ok a ∧ f a = .ok b := by
  cases x with
  | error e => simp [bind, Except.bind]
  | ok a => simp [bind, Except.bind]

/-- What follows a run matters only where the run succeeds. -/
theorem bind_congr_ok {ε α β : Type} {x : Except ε α} {f g : α → Except ε β}
    (h : ∀ a, x = .ok a → f a = g a) : x >>= f = x >>= g := by
  cases x with
  | error e => rfl
  | ok a => exact h a rfl

theorem pure_eq_ok {ε α : Type} {a b : α} : (pure a : Except ε α) = .ok b ↔ a = b := by
  simp [pure, Except.pure]

theorem throw_ne_ok {ε α : Type} {e : ε} {a : α} : (throw e : Except ε α) ≠ .ok a := by
  simp [throw, throwThe, MonadExceptOf.throw]

theorem map_eq_ok {ε α β : Type} {x : Except ε α} {f : α → β} {b : β} :
    x.map f = .ok b ↔ ∃ a, x = .ok a ∧ f a = b := by
  cases x <;> simp [Except.map]

theorem mapError_eq_ok {ε δ α : Type} {f : ε → δ} {x : Except ε α} {a : α} :
    x.mapError f = .ok a ↔ x = .ok a := by
  cases x <;> simp [Except.mapError]

theorem toOption_eq_some {ε α : Type} {x : Except ε α} {a : α} :
    x.toOption = some a ↔ x = .ok a := by
  cases x <;> simp [Except.toOption]

theorem liftM_eq_ok {ε α : Type} {x : Except Fault α} {a : α} :
    (liftM x : Except (Failure ε) α) = .ok a ↔ x = .ok a := Failure.lift_eq_ok

/-- A list of checks succeeds when each of them does. -/
theorem forM_eq_ok {ε α : Type} {check : α → Except ε Unit} {l : List α} {u : Unit} :
    l.forM check = .ok u ↔ ∀ a ∈ l, check a = .ok () := by
  induction l with
  | nil => simp [List.forM, pure, Except.pure]
  | cons a l ih =>
      change (check a >>= fun _ => l.forM check) = .ok u ↔ _
      rw [bind_eq_ok, List.forall_mem_cons]
      exact ⟨fun ⟨_, ha, hl⟩ => ⟨ha, ih.1 hl⟩, fun ⟨ha, hl⟩ => ⟨(), ha, ih.2 hl⟩⟩

/-- A step of a run in place, and the rest of the run. -/
theorem inPlace_bind_eq_ok {ε σ α β : Type} {x : EStateM ε σ α}
    {f : α → EStateM ε σ β} {s t : σ} {b : β} :
    (x >>= f) s = .ok b t ↔ ∃ a u, x s = .ok a u ∧ f a u = .ok b t := by
  simp only [bind, EStateM.bind]
  cases x s <;> simp

/-- To look at the state is to go on with it. -/
theorem inPlace_get_bind {ε σ β : Type} {f : σ → EStateM ε σ β} {s : σ} :
    (get >>= f) s = f s s := rfl

/-- A computation that succeeds goes on with its result, in the same state. -/
theorem inPlace_bind_of_ok {ε σ α β : Type} {x : Except ε α} {f : α → EStateM ε σ β} {s : σ}
    {a : α} (h : x = .ok a) : ((liftM x : EStateM ε σ α) >>= f) s = f a s := by
  subst h
  rfl

/-- A computation that fails ends the run in the same state. -/
theorem inPlace_bind_of_error {ε σ α β : Type} {x : Except ε α} {f : α → EStateM ε σ β}
    {s : σ} {cause : ε} (h : x = .error cause) :
    ((liftM x : EStateM ε σ α) >>= f) s = .error cause s := by
  subst h
  rfl

/-- A step that leaves the state alone. -/
theorem inPlace_eq_ok {ε σ α : Type} {x : Except ε α} {s t : σ} {a : α} :
    Failure.inPlace x s = .ok a t ↔ x = .ok a ∧ s = t := by
  cases x <;> simp [Failure.inPlace]

theorem mapM_ok {ε α β : Type} {f : α → Except ε β} {l : List α}
    (h : ∀ a ∈ l, ∃ b, f a = .ok b) : ∃ l', l.mapM f = .ok l' := by
  induction l with
  | nil => exact ⟨[], rfl⟩
  | cons a l ih =>
      obtain ⟨b, hb⟩ := h a (by simp)
      obtain ⟨l', hl'⟩ := ih fun c hc => h c (List.mem_cons_of_mem a hc)
      exact ⟨b :: l', by rw [List.mapM_cons, hb, hl']; rfl⟩

theorem mem_of_mapM {ε α β : Type} {f : α → Except ε β} {l : List α} {l' : List β}
    (h : l.mapM f = .ok l') {b : β} : b ∈ l' ↔ ∃ a ∈ l, f a = .ok b := by
  induction l generalizing l' with
  | nil =>
      obtain rfl := pure_eq_ok.1 h
      simp
  | cons a l ih =>
      rw [List.mapM_cons, bind_eq_ok] at h
      obtain ⟨c, hc, h⟩ := h
      obtain ⟨rest, hrest, h⟩ := bind_eq_ok.1 h
      obtain rfl := pure_eq_ok.1 h
      simp [ih hrest, hc, eq_comm]

theorem exists_of_mapM {ε α β : Type} {f : α → Except ε β} {l : List α} {l' : List β}
    (h : l.mapM f = .ok l') {a : α} (ha : a ∈ l) : ∃ b, f a = .ok b := by
  induction l generalizing l' with
  | nil => simp at ha
  | cons c l ih =>
      rw [List.mapM_cons, bind_eq_ok] at h
      obtain ⟨b, hb, h⟩ := h
      obtain ⟨rest, hrest, -⟩ := bind_eq_ok.1 h
      rcases List.mem_cons.1 ha with rfl | ha
      · exact ⟨b, hb⟩
      · exact ih hrest ha

/-- A fold that succeeded is the chain of its rounds.  `G`, `R` and `D`
are as in `foldlM_ok`. -/
theorem foldlM_of_ok {ε σ α : Type} {f : σ → α → Except ε σ} {G : σ → Prop} {R : σ → σ → Prop}
    {D : α → σ → Prop} (refl : ∀ s, R s s) (trans : ∀ {s t u}, R s t → R t u → R s u)
    (keep : ∀ {a s t}, D a s → R s t → D a t) {l : List α}
    (round : ∀ s t, ∀ a ∈ l, G s → f s a = .ok t → G t ∧ R s t ∧ D a t) {s t : σ} (hs : G s)
    (h : l.foldlM f s = .ok t) : G t ∧ R s t ∧ ∀ a ∈ l, D a t := by
  induction l generalizing s with
  | nil =>
      obtain rfl := pure_eq_ok.1 h
      exact ⟨hs, refl s, by simp⟩
  | cons a l ih =>
      rw [List.foldlM_cons, bind_eq_ok] at h
      obtain ⟨u, hu, h⟩ := h
      obtain ⟨hgood, hstep, hdone⟩ := round s u a (by simp) hs hu
      obtain ⟨hgood', hstep', hdone'⟩ :=
        ih (fun s t b hb => round s t b (List.mem_cons_of_mem a hb)) hgood h
      refine ⟨hgood', trans hstep hstep', ?_⟩
      intro b hb
      rcases List.mem_cons.1 hb with rfl | hb
      · exact keep hdone hstep'
      · exact hdone' b hb

/-- What the rounds of a fold keep, the fold keeps. -/
theorem foldlM_induction {ε σ α : Type} {f : σ → α → Except ε σ} {P : σ → Prop} {l : List α}
    (round : ∀ s t, ∀ a ∈ l, P s → f s a = .ok t → P t) {s t : σ} (hs : P s)
    (h : l.foldlM f s = .ok t) : P t :=
  (foldlM_of_ok (R := fun _ _ => True) (D := fun _ _ => True) (fun _ => trivial)
    (fun _ _ => trivial) (fun _ _ => trivial)
    (fun s t a ha hs hok => ⟨round s t a ha hs hok, trivial, trivial⟩) hs h).1

/-- A fold that succeeded, by an invariant indexed by what has been folded so far. -/
theorem foldlM_prefix {ε σ α : Type} {f : σ → α → Except ε σ} {I : List α → σ → Prop}
    (round : ∀ done s a t, I done s → f s a = .ok t → I (done ++ [a]) t)
    {k l : List α} {s t : σ} (hs : I k s) (h : l.foldlM f s = .ok t) : I (k ++ l) t := by
  induction l generalizing s k with
  | nil =>
      obtain rfl := pure_eq_ok.1 h
      rwa [List.append_nil]
  | cons a l ih =>
      rw [List.foldlM_cons, bind_eq_ok] at h
      obtain ⟨u, hu, h⟩ := h
      have := ih (round k s a u hs hu) h
      rwa [List.append_assoc, List.singleton_append] at this

/-- Two folds in step: while the first succeeds, so does the second, and
their states stay related. -/
theorem foldlM_rel {ε σ τ α : Type} {f : σ → α → Except ε σ} {g : τ → α → Except ε τ}
    {R : σ → τ → Prop} {l : List α}
    (round : ∀ s s' t, ∀ a ∈ l, R s s' → f s a = .ok t → ∃ t', g s' a = .ok t' ∧ R t t')
    {s t : σ} {r : τ} (hs : R s r) (h : l.foldlM f s = .ok t) :
    ∃ t', l.foldlM g r = .ok t' ∧ R t t' := by
  induction l generalizing s r with
  | nil =>
      obtain rfl := pure_eq_ok.1 h
      exact ⟨r, rfl, hs⟩
  | cons a l ih =>
      rw [List.foldlM_cons, bind_eq_ok] at h
      obtain ⟨u, hu, h⟩ := h
      obtain ⟨u', hu', hrel⟩ := round s r u a (by simp) hs hu
      obtain ⟨t', ht', hrel'⟩ :=
        ih (fun s s' t b hb => round s s' t b (List.mem_cons_of_mem a hb)) hrel h
      exact ⟨t', by rw [List.foldlM_cons, hu']; exact ht', hrel'⟩

/-- A fold commutes with a map of states with which its rounds commute. -/
theorem foldlM_commute {ε σ α : Type} {f : σ → α → Except ε σ} (φ : σ → σ)
    (round : ∀ {s t a}, f s a = .ok t → f (φ s) a = .ok (φ t)) {l : List α} {s t : σ}
    (h : l.foldlM f s = .ok t) : l.foldlM f (φ s) = .ok (φ t) := by
  obtain ⟨t', ht', rfl⟩ := foldlM_rel (g := f) (R := fun s s' => s' = φ s)
    (fun s s' t a _ hs hst => ⟨φ t, hs ▸ round hst, rfl⟩) rfl h
  exact ht'

theorem mapM_map_ok {ε α β γ : Type} {f : α → Except ε β} {g : α → Except ε γ} {φ : β → γ}
    {l : List α} {l' : List β} (round : ∀ a ∈ l, ∀ b, f a = .ok b → g a = .ok (φ b))
    (h : l.mapM f = .ok l') : l.mapM g = .ok (l'.map φ) := by
  induction l generalizing l' with
  | nil =>
      obtain rfl := pure_eq_ok.1 h
      rfl
  | cons a l ih =>
      rw [List.mapM_cons, bind_eq_ok] at h
      obtain ⟨b, hb, h⟩ := h
      obtain ⟨rest, hrest, h⟩ := bind_eq_ok.1 h
      obtain rfl := pure_eq_ok.1 h
      rw [List.mapM_cons, round a (by simp) b hb,
        ih (fun c hc => round c (List.mem_cons_of_mem a hc)) hrest]
      rfl

/-! ## Look-ups -/

theorem mem_of_lookup {α β : Type} [BEq α] [LawfulBEq α] {l : List (α × β)} {k : α} {b : β}
    (h : l.lookup k = some b) : (k, b) ∈ l := by
  induction l with
  | nil => exact absurd h (by simp)
  | cons x l ih =>
      obtain ⟨k', b'⟩ := x
      rw [List.lookup_cons] at h
      split at h
      · next hk =>
          obtain rfl := eq_of_beq hk
          obtain rfl := Option.some_injective _ h
          exact List.mem_cons_self
      · exact List.mem_cons_of_mem _ (ih h)

/-- A key with one value is found with that value. -/
theorem lookup_of_mem {α β : Type} [BEq α] [LawfulBEq α] {l : List (α × β)} {k : α} {b : β}
    (h : (k, b) ∈ l) (honly : ∀ {b'}, (k, b') ∈ l → b' = b) : l.lookup k = some b := by
  cases hk : l.lookup k with
  | some b' => rw [honly (mem_of_lookup hk)]
  | none => exact absurd (List.lookup_eq_none_iff.1 hk _ h) (by simp)

theorem lookup_iff {α β : Type} [BEq α] [LawfulBEq α] {l : List (α × β)} {k : α} {b : β}
    (h : (l.map Prod.fst).Nodup) : l.lookup k = some b ↔ (k, b) ∈ l := by
  refine ⟨mem_of_lookup, fun hm => lookup_of_mem hm fun {b'} hm' => ?_⟩
  exact congrArg Prod.snd (List.inj_on_of_nodup_map h hm' hm rfl)

/-! ## Sizes -/

namespace IndexSet

variable {s t : IndexSet}

theorem nodup_toList (s : IndexSet) : s.toList.Nodup :=
  s.ascending.imp fun h => Nat.ne_of_lt h

theorem size_eq_card (s : IndexSet) : s.size = s.toList.toFinset.card :=
  (List.toFinset_card_of_nodup s.nodup_toList).symm

theorem size_le_of_subset (h : ∀ x, x ∈ s → x ∈ t) : s.size ≤ t.size := by
  rw [size_eq_card, size_eq_card]
  refine Finset.card_le_card fun x hx => ?_
  rw [List.mem_toFinset] at hx ⊢
  exact h x hx

theorem size_lt_of_subset (h : ∀ x, x ∈ s → x ∈ t) {x : Nat} (hx : x ∈ t) (hxs : ¬ x ∈ s) :
    s.size < t.size := by
  rw [size_eq_card, size_eq_card]
  refine Finset.card_lt_card ⟨fun y hy => ?_, fun hsub => hxs ?_⟩
  · rw [List.mem_toFinset] at hy ⊢
    exact h y hy
  · have := hsub (List.mem_toFinset.2 hx)
    exact List.mem_toFinset.1 this

theorem size_le_of_lt {n : Nat} (h : ∀ x, x ∈ s → x < n) : s.size ≤ n := by
  rw [size_eq_card, ← Finset.card_range n]
  refine Finset.card_le_card fun x hx => ?_
  exact Finset.mem_range.2 (h x (List.mem_toFinset.1 hx))

end IndexSet
end PointerChannels
