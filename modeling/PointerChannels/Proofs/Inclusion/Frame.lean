import PointerChannels.Proofs.Inclusion.Least
import PointerChannels.Proofs.Pool.History

/-!
# What the parts of a run leave alone

Most of what a run does makes edges and lets pointees flow.  That binds no call, exposes
no function and takes no root off the worklist, and short of collapsing a cycle it leaves
the classes alone.  All this holds of every state, also of one whose constraints name
entities of another pool.

## Main definitions

* `State.Quiet` — nothing was taken, bound or exposed.
* `State.Widens` — sets grew in classes that stayed as they were.
* `State.Plain` — both.

## Main statements

* `State.flowAll_induction`, `State.conditionals_induction` — what the two
  parts of taking a root keep.
* `State.bindCall_eq_ok`, `State.expose_eq_ok` — what a call site or a
  function was given edges for.
* `State.addConstraint_cases` — a constraint is taken in by a plain operation, or it is a call.
-/

namespace PointerChannels

namespace Pool

theorem stored_grow {p : Pool} {i j o : Nat} {objects : List Nat} (h : o ∈ p.stored j) :
    o ∈ (p.grow i objects).stored j := by
  by_cases hj : j = i
  · subst hj
    by_cases hlt : j < p.size
    · exact (mem_stored_grow hlt).2 (.inl h)
    · rw [stored, Array.getElem?_eq_none (Nat.le_of_not_lt hlt)] at h
      exact absurd h (IndexSet.not_mem_empty o)
  · rw [grow, stored_store_of_ne hj]
    exact h

end Pool

/-- The entity that a constraint calls. -/
def Constraint.callee? : Constraint → Option Handle
  | .call callee _ => some callee
  | _ => none

namespace Inclusion.State

variable {s t u : State} {r : Nat} {objects : List Nat}

/-! ## Relations between states -/

/-- In between nothing was taken off the worklist, bound or exposed. -/
structure Quiet (s t : State) : Prop where
  calls_eq : t.calls = s.calls
  exposed_eq : t.exposed = s.exposed
  iterations_eq : t.stats.iterations = s.stats.iterations
  callsBound_eq : t.stats.callsBound = s.stats.callsBound
  escapedFunctions_eq : t.stats.escapedFunctions = s.stats.escapedFunctions

theorem Quiet.refl (s : State) : Quiet s s := ⟨rfl, rfl, rfl, rfl, rfl⟩

theorem Quiet.trans (h : Quiet s t) (h' : Quiet t u) : Quiet s u where
  calls_eq := h'.calls_eq.trans h.calls_eq
  exposed_eq := h'.exposed_eq.trans h.exposed_eq
  iterations_eq := h'.iterations_eq.trans h.iterations_eq
  callsBound_eq := h'.callsBound_eq.trans h.callsBound_eq
  escapedFunctions_eq := h'.escapedFunctions_eq.trans h.escapedFunctions_eq

/-- Sets have grown in classes that are as they were, and their roots are
called where they were. -/
structure Widens (s t : State) : Prop where
  same : Pool.SameEntities s.pool t.pool
  links_size : t.links.size = s.links.size
  forest : s.pool.Forest → t.pool.Forest
  rootOf_eq : ∀ i, t.pool.rootOf i = s.pool.rootOf i
  grows : ∀ i o, o ∈ s.pool.pointsTo i → o ∈ t.pool.pointsTo i
  callsAt_eq : ∀ i, (t.linksAt i).calls = (s.linksAt i).calls

theorem Widens.refl (s : State) : Widens s s :=
  ⟨.refl _, rfl, id, fun _ => rfl, fun _ _ h => h, fun _ => rfl⟩

theorem Widens.trans (h : Widens s t) (h' : Widens t u) : Widens s u where
  same := h.same.trans h'.same
  links_size := h'.links_size.trans h.links_size
  forest hs := h'.forest (h.forest hs)
  rootOf_eq i := (h'.rootOf_eq i).trans (h.rootOf_eq i)
  grows i o ho := h'.grows i o (h.grows i o ho)
  callsAt_eq i := (h'.callsAt_eq i).trans (h.callsAt_eq i)

/-- Sets have grown, and nothing else that is counted has happened. -/
structure Plain (s t : State) : Prop extends Quiet s t, Widens s t

theorem Plain.refl (s : State) : Plain s s := ⟨.refl s, .refl s⟩

theorem Plain.trans (h : Plain s t) (h' : Plain t u) : Plain s u :=
  ⟨h.toQuiet.trans h'.toQuiet, h.toWidens.trans h'.toWidens⟩

/-- The pool and what its roots are asked for have not changed at all. -/
theorem Quiet.plain (h : Quiet s t) (hpool : t.pool = s.pool) (hlinks : t.links = s.links) :
    Plain s t where
  toQuiet := h
  same := hpool ▸ .refl _
  links_size := by rw [hlinks]
  forest hs := hpool ▸ hs
  rootOf_eq i := by rw [hpool]
  grows i o ho := hpool ▸ ho
  callsAt_eq i := by rw [linksAt, linksAt, hlinks]

/-! ## Growing sets and making edges -/

theorem plain_modifyLinks {change : Links → Links}
    (hchange : ∀ l, (change l).calls = l.calls) : Plain s (s.modifyLinks r change) where
  toQuiet := ⟨rfl, rfl, rfl, rfl, rfl⟩
  same := .refl _
  links_size := size_links_modifyLinks
  forest := id
  rootOf_eq _ := rfl
  grows _ _ h := h
  callsAt_eq i := by
    simp only [linksAt, modifyLinks, Array.getElem?_modify]
    split
    · cases s.links[i]? with
      | none => rfl
      | some l => exact hchange l
    · rfl

theorem plain_push (s : State) (r : Nat) : Plain s (s.push r) := by
  unfold push
  split
  · exact .refl s
  · exact Quiet.plain ⟨rfl, rfl, rfl, rfl, rfl⟩ rfl rfl

theorem plain_insertPointees (s : State) (r : Nat) (objects : List Nat) :
    Plain s (s.insertPointees r objects).2 := by
  have hgrown : ∀ added, Plain s { s with pool := s.pool.grow r added } := by
    intro added
    refine ⟨⟨rfl, rfl, rfl, rfl, rfl⟩, .store _ _ _, rfl, fun h => h.store _ _,
      fun i => Pool.rootOf_store i, fun i o ho => ?_, fun _ => rfl⟩
    have hroot : (s.pool.grow r added).rootOf i = s.pool.rootOf i := Pool.rootOf_store i
    rw [Pool.pointsTo, hroot]
    exact Pool.stored_grow ho
  unfold insertPointees
  dsimp only
  split
  · exact .refl s
  · split
    · refine (hgrown _).trans (plain_modifyLinks fun l => rfl)
    · exact hgrown _

theorem plain_of_insertPointees {learnt : Bool}
    (h : s.insertPointees r objects = (learnt, t)) : Plain s t := by
  have hplain := plain_insertPointees s r objects
  rwa [h] at hplain

theorem plain_noteGrowth (s : State) (r : Nat) : Plain s (s.noteGrowth r) := by
  have hnoted :
      Plain s { s with stats := { s.stats with propagations := s.stats.propagations + 1 } } :=
    Quiet.plain ⟨rfl, rfl, rfl, rfl, rfl⟩ rfl rfl
  exact hnoted.trans (plain_push _ r)

theorem plain_link (s : State) (superset subset : Nat) : Plain s (s.link superset subset) := by
  unfold link
  split
  · exact .refl s
  generalize hedge : (s.modifyLinks subset fun l =>
    { l with supersets := l.supersets.insert superset }) = u
  have hu : Plain s u := hedge ▸ plain_modifyLinks fun l => rfl
  have hcounted : Plain u { u with stats := { u.stats with edges := u.stats.edges + 1 } } :=
    Quiet.plain ⟨rfl, rfl, rfl, rfl, rfl⟩ rfl rfl
  have hv := hu.trans hcounted
  dsimp only
  split
  · split
    · next h => exact (hv.trans (plain_of_insertPointees h)).trans (plain_noteGrowth _ _)
    · next h => exact hv.trans (plain_of_insertPointees h)
  · exact hv.trans (plain_push _ _)

theorem plain_addEdge {superset subset : Handle} (h : s.addEdge superset subset = .ok t) :
    Plain s t := by
  simp only [addEdge, bind_eq_ok, pure_eq_ok] at h
  obtain ⟨a, -, b, -, -, -, rfl⟩ := h
  exact plain_link s a b

theorem plain_addEdges {edges : List (Handle × Handle)} (h : s.addEdges edges = .ok t) :
    Plain s t :=
  (foldlM_of_ok (G := fun _ => True) (D := fun _ _ => True) Plain.refl Plain.trans
    (fun _ _ => trivial)
    (fun _ _ _ _ _ hok => ⟨trivial, plain_addEdge hok, trivial⟩) trivial h).2.1

/-! ## Binding calls and exposing functions -/

/-- A call site is bound to a callee that it is bound to already, or edges are made for it. -/
theorem bindCall_eq_ok {call callee : Nat} : s.bindCall call callee = .ok t ↔
    ∃ entry, s.calls[call]? = some entry ∧ (callee ∈ entry.bound ∧ s = t ∨
      callee ∉ entry.bound ∧ callee < s.pool.size ∧ (s.noteBound call callee).addEdges
        (callEdges s.externalHandle entry.site (s.pool.calleeSignature? callee)) = .ok t) := by
  rw [bindCall, bind_eq_ok]
  refine exists_congr fun entry => and_congr entryAt_eq_ok ?_
  by_cases hin : callee ∈ entry.bound
  · rw [if_pos hin, pure_eq_ok]
    simp only [hin, true_and, not_true_eq_false, false_and, or_false]
  · rw [if_neg hin, bind_eq_ok]
    simp only [hin, false_and, false_or, not_false_eq_true, true_and, Pool.check_eq_ok,
      exists_const]
    exact Iff.rfl

/-- An object that is no function, or is exposed already, is left alone, or
edges are made for it. -/
theorem expose_eq_ok {object : Nat} : s.expose object = .ok t ↔ object < s.pool.size ∧
    ((s.pool.kindOf object ≠ .functionObject ∨ object ∈ s.exposed) ∧ s = t ∨
      s.pool.kindOf object = .functionObject ∧ object ∉ s.exposed ∧
      (s.noteExposed object).addEdges
        (exposureEdges s.externalHandle (s.pool.signature? object)) = .ok t) := by
  simp only [expose, bind_eq_ok, Pool.check_eq_ok, exists_and_left, exists_const]
  refine and_congr_right fun _ => ?_
  by_cases hskip : s.pool.kindOf object ≠ .functionObject ∨ object ∈ s.exposed
  · rw [if_pos hskip, pure_eq_ok]
    refine ⟨fun h => .inl ⟨hskip, h⟩, ?_⟩
    rintro (⟨-, h⟩ | ⟨hkind, hnew, -⟩)
    · exact h
    · exact absurd hskip (not_or.2 ⟨not_not.2 hkind, hnew⟩)
  · rw [if_neg hskip]
    obtain ⟨hkind, hnew⟩ := not_or.1 hskip
    refine ⟨fun h => .inr ⟨not_not.1 hkind, hnew, h⟩, ?_⟩
    rintro (⟨h, -⟩ | ⟨-, -, h⟩)
    · exact absurd h hskip
    · exact h

/-! ## What taking a root keeps -/

section Induction

variable {P : State → Prop}

/-- **What a root owes for pointees**: edges are made, call sites of the root are bound to the
pointees, and if the root is that of external memory, the pointees are exposed. -/
theorem conditionals_induction (hedges : ∀ u v edges, P u → u.addEdges edges = .ok v → P v)
    (hbind : ∀ u v, ∀ c ∈ (s.linksAt r).calls, ∀ o ∈ objects, P u →
      u.bindCall c o = .ok v → P v)
    (hexpose : ∀ u v w, P w → w.pool.rootOf Pool.external = r → ∀ o ∈ objects, P u →
      u.expose o = .ok v → P v)
    (hs : P s) (h : s.conditionals r objects = .ok t) : P t := by
  simp only [conditionals, bind_eq_ok] at h
  obtain ⟨-, -, -, -, u, hstores, v, hloads, w, hcalls, external, hexternal, h⟩ := h
  have hu : P u := foldlM_induction (fun _ _ _ _ => hedges _ _ _) hs hstores
  have hv : P v := foldlM_induction (fun _ _ _ _ => hedges _ _ _) hu hloads
  have hw : P w := foldlM_induction (fun _ _ c hc =>
    foldlM_induction fun _ _ o ho => hbind _ _ c hc o ho) hv hcalls
  split at h
  · next hroot =>
      have hroot := (Pool.root_handle_eq_ok.1 hexternal).2.1.trans hroot
      exact foldlM_induction (fun _ _ o ho => hexpose _ _ w hw hroot o ho) hw h
  · rwa [← pure_eq_ok.1 h]

variable (hdetector : ∀ u detector, P u → P { u with detector })
  (hunify : ∀ u v a b survivor, P u → u.unifyRoots a b = .ok (survivor, v) → P v)

include hdetector hunify

theorem probe_induction {source target : Nat} {found : Bool} (hs : P s)
    (h : s.probe source target = .ok (found, t)) : P t := by
  simp only [probe, bind_eq_ok, pure_eq_ok, Prod.mk.injEq] at h
  obtain ⟨-, -, -, -, ⟨survivor, detector, u⟩, hprobe, -, rfl⟩ := h
  refine hdetector u detector ?_
  unfold Cycle.Detector.probe at hprobe
  dsimp only at hprobe
  split at hprobe
  · obtain ⟨-, -, rfl⟩ := hprobe
    exact hs
  obtain ⟨-, -, hprobe⟩ := bind_eq_ok.1 hprobe
  split at hprobe
  · obtain ⟨-, -, rfl⟩ := hprobe
    exact hs
  · obtain ⟨merged, hcollapse, hprobe⟩ := bind_eq_ok.1 hprobe
    obtain ⟨-, -, rfl⟩ := pure_eq_ok.1 hprobe
    exact foldlM_induction (P := fun x : Nat × State => P x.2)
      (fun x y m _ hx hok => hunify x.2 y.2 x.1 m y.1 hx hok) hs hcollapse

/-- **Pointees flow along edges**: the roots that edges lead to learn of pointees,
and roots are merged. -/
theorem flowAll_induction {root : Nat} {rest : List Nat}
    (hlearn : ∀ u v, ∀ x ∈ rest, ∀ learnt, P u → Plain u v →
      Agrees (u.learn (u.pool.rootOf x) learnt) v → P v) (hs : P s)
    (h : flowAll root objects rest s = .ok t) : P t := by
  induction rest generalizing s with
  | nil => rwa [← Except.ok.inj h]
  | cons x rest ih =>
      replace ih := fun {s} => @ih s fun u v y hy => hlearn u v y (List.mem_cons_of_mem x hy)
      rw [flowAll] at h
      obtain ⟨target, htarget, h⟩ := bind_eq_ok.1 h
      obtain ⟨-, rfl, -⟩ := Pool.root_handle_eq_ok.1 htarget
      split at h
      · exact ih hs h
      obtain ⟨-, -, h⟩ := bind_eq_ok.1 h
      split at h
      · next u hu =>
          refine ih (hlearn s _ x List.mem_cons_self
            (if s.settings.differences then objects else (s.pool.stored root).toList) hs
            ((plain_of_insertPointees hu).trans (plain_noteGrowth _ _)) ?_) h
          rw [flow] at hu
          rw [learn, hu]
          exact agrees_noteGrowth u _
      · next u hu =>
          have hgrown : P u := by
            refine hlearn s u x List.mem_cons_self
              (if s.settings.differences then objects else (s.pool.stored root).toList) hs
              (plain_of_insertPointees hu) ?_
            rw [flow] at hu
            rw [learn, hu]
            exact ⟨rfl, rfl, rfl, rfl, rfl, rfl⟩
          split at h
          · exact ih hgrown h
          · obtain ⟨⟨found, v⟩, hprobe, h⟩ := bind_eq_ok.1 h
            have hprobed : P v := probe_induction hdetector hunify hgrown hprobe
            cases found with
            | true => rwa [← pure_eq_ok.1 h]
            | false => exact ih hprobed h

end Induction

theorem quiet_unifyRoots {a b survivor : Nat} (h : s.unifyRoots a b = .ok (survivor, t)) :
    Quiet s t := by
  simp only [unifyRoots, bind_eq_ok, pure_eq_ok, Prod.mk.injEq] at h
  obtain ⟨merged, -, -, -, -, rfl⟩ := h
  refine Quiet.trans ?_ (plain_push _ _).toQuiet
  exact ⟨rfl, rfl, rfl, rfl, rfl⟩

/-- A merge that went through is one of two different roots. -/
theorem unified_of_unifyRoots (hforest : s.pool.Forest) (hlinks : s.links.size = s.pool.size)
    {a b survivor : Nat} (h : s.unifyRoots a b = .ok (survivor, t)) :
    ∃ loser, s.pool.isRoot survivor = true ∧ loser ≠ survivor ∧
      s.Unified loser survivor t := by
  obtain ⟨ha, hb, hne⟩ : s.pool.isRoot a = true ∧ s.pool.isRoot b = true ∧ a ≠ b := by
    simp only [unifyRoots, bind_eq_ok] at h
    obtain ⟨⟨r, q⟩, hunify, -⟩ := h
    obtain ⟨ha, hb, hne, -⟩ := Pool.unify_eq_ok hunify
    exact ⟨ha, hb, hne⟩
  obtain ⟨loser, survivor', pool, hok, hcases, hjoined⟩ :=
    unifyRoots_eq_absorb hforest hlinks ha hb hne
  obtain ⟨rfl, rfl⟩ := Prod.mk.inj (Except.ok.inj (h.symm.trans hok))
  have ha' := hlinks ▸ Pool.lt_size_of_isRoot ha
  have hb' := hlinks ▸ Pool.lt_size_of_isRoot hb
  rcases hcases with ⟨rfl, rfl⟩ | ⟨rfl, rfl⟩
  · exact ⟨loser, ha, Ne.symm hne, unified_absorb hjoined hb' ha' (Ne.symm hne)⟩
  · exact ⟨loser, hb, hne, unified_absorb hjoined ha' hb' hne⟩

/-- Letting pointees flow binds and exposes nothing. -/
theorem quiet_flowAll {root : Nat} {rest : List Nat}
    (h : flowAll root objects rest s = .ok t) : Quiet s t :=
  flowAll_induction (P := Quiet s) (fun _ _ hu => hu.trans ⟨rfl, rfl, rfl, rfl, rfl⟩)
    (fun _ _ _ _ _ hu hok => hu.trans (quiet_unifyRoots hok))
    (fun _ _ _ _ _ hu hplain _ => hu.trans hplain.toQuiet) (.refl s) h

/-! ## Seeding -/

theorem plain_seedSentinel {sentinel : Nat} (h : s.seedSentinel sentinel = .ok t) :
    Plain s t := by
  simp only [seedSentinel, bind_eq_ok, pure_eq_ok] at h
  obtain ⟨root, -, -, -, -, -, rfl⟩ := h
  refine Plain.trans ?_ (plain_push _ root)
  exact (plain_insertPointees s root [sentinel]).trans (plain_modifyLinks fun l => rfl)

theorem plain_plant {settings : Settings} {p : Pool} {count : Nat}
    (h : plant settings p count = .ok t) : Plain (start settings p) t := by
  simp only [plant, bind_eq_ok] at h
  obtain ⟨u, hunknown, hexternal⟩ := h
  have hcounted : Plain (start settings p) { start settings p with
      stats := { (start settings p).stats with constraints := count } } :=
    Quiet.plain ⟨rfl, rfl, rfl, rfl, rfl⟩ rfl rfl
  exact (hcounted.trans (plain_seedSentinel hunknown)).trans (plain_seedSentinel hexternal)

/-- The state in which a root is called by one more call site. -/
def enlist (s : State) (root : Nat) (site : CallSite) : State :=
  { s.modifyLinks root fun l => { l with calls := l.calls ++ [s.calls.size] } with
    calls := s.calls.push ⟨site, .empty⟩ }.push root

section

variable {value address callee : Handle} {site : CallSite}

theorem addConstraint_load : s.addConstraint (.load value address) = .ok t ↔
    ∃ root, s.pool.root address = .ok root ∧ root < s.links.size ∧
      s.ask root [value] [] [] = t := by
  simp only [addConstraint, bind_eq_ok, pure_eq_ok, checkIndex_eq_ok, exists_const, ask,
    List.append_nil]

theorem addConstraint_store : s.addConstraint (.store address value) = .ok t ↔
    ∃ root, s.pool.root address = .ok root ∧ root < s.links.size ∧
      s.ask root [] [value] [] = t := by
  simp only [addConstraint, bind_eq_ok, pure_eq_ok, checkIndex_eq_ok, exists_const, ask,
    List.append_nil]

theorem addConstraint_call : s.addConstraint (.call callee site) = .ok t ↔
    ∃ root, s.pool.root callee = .ok root ∧ root < s.links.size ∧ s.enlist root site = t := by
  simp only [addConstraint, bind_eq_ok, pure_eq_ok, checkIndex_eq_ok, exists_const]
  rfl

end

theorem plain_ask {root : Nat} {loads stores : List Handle} :
    Plain s (s.ask root loads stores []) := by
  refine Plain.trans ?_ (plain_push _ root)
  exact plain_modifyLinks fun l => List.append_nil l.calls

/-- **A constraint is taken in by a plain operation, or it is a call.** -/
theorem addConstraint_cases {c : Constraint} (h : s.addConstraint c = .ok t) :
    Plain s t ∧ c.callee? = none ∨ ∃ callee site, c = .call callee site ∧ s.pool.Owns callee ∧
      t = s.enlist (s.pool.rootOf callee.index) site := by
  cases c with
  | pointsTo pointer pointee =>
      simp only [addConstraint, bind_eq_ok] at h
      obtain ⟨root, -, object, -, -, -, h⟩ := h
      refine .inl ⟨?_, rfl⟩
      split at h
      · next hu =>
          rw [← pure_eq_ok.1 h]
          exact (plain_of_insertPointees hu).trans (plain_push _ _)
      · next hu =>
          rw [← pure_eq_ok.1 h]
          exact plain_of_insertPointees hu
  | load value address =>
      obtain ⟨root, -, -, rfl⟩ := addConstraint_load.1 h
      exact .inl ⟨plain_ask, rfl⟩
  | store address value =>
      obtain ⟨root, -, -, rfl⟩ := addConstraint_store.1 h
      exact .inl ⟨plain_ask, rfl⟩
  | call callee site =>
      obtain ⟨root, hroot, -, rfl⟩ := addConstraint_call.1 h
      obtain ⟨hcallee, rfl, -⟩ := Pool.root_eq_ok.1 hroot
      exact .inr ⟨callee, site, rfl, hcallee, rfl⟩
  | superset whole part => exact .inl ⟨plain_addEdge h, rfl⟩
  | external pointer => exact .inl ⟨plain_addEdge h, rfl⟩
  | unknown pointer => exact .inl ⟨plain_addEdge h, rfl⟩
  | escapes pointer => exact .inl ⟨plain_addEdge h, rfl⟩

end Inclusion.State
end PointerChannels
