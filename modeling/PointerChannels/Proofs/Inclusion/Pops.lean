import PointerChannels.Proofs.Inclusion.Differences
import PointerChannels.Proofs.Inclusion.Frame

/-!
# How many roots a run takes off its worklist

Roots are counted where they are taken and nowhere else, so the counter of a state says how
many were taken since the run was seeded.  Seeding leaves at most `2 * n * n + n` for what the
roots of `n` entities lack, two roots for the sentinels and one for each constraint, and every
root that is taken lowers what is left.

## Main statements

* `State.Pops.iterations_eq` — the counter counts the roots that were taken.
* `worklist_runs_empty` — the worklist runs empty within the bound.
-/

namespace PointerChannels.Inclusion

namespace State

variable {s t : State} {r : Nat} {objects : List Nat}

/-! ## Where roots are not counted -/

theorem iterations_bindCall {call callee : Nat} (h : s.bindCall call callee = .ok t) :
    t.stats.iterations = s.stats.iterations := by
  obtain ⟨entry, -, ⟨-, rfl⟩ | ⟨-, -, h⟩⟩ := bindCall_eq_ok.1 h
  · rfl
  · have hadded := (plain_addEdges h).iterations_eq
    exact hadded

theorem iterations_expose {object : Nat} (h : s.expose object = .ok t) :
    t.stats.iterations = s.stats.iterations := by
  obtain ⟨-, ⟨-, rfl⟩ | ⟨-, -, h⟩⟩ := expose_eq_ok.1 h
  · rfl
  · have hadded := (plain_addEdges h).iterations_eq
    exact hadded

theorem iterations_conditionals (h : s.conditionals r objects = .ok t) :
    t.stats.iterations = s.stats.iterations :=
  conditionals_induction (P := fun u => u.stats.iterations = s.stats.iterations)
    (fun _ _ _ hu hok => (plain_addEdges hok).iterations_eq.trans hu)
    (fun _ _ _ _ _ _ hu hok => (iterations_bindCall hok).trans hu)
    (fun _ _ _ _ _ _ _ hu hok => (iterations_expose hok).trans hu) rfl h

@[simp] theorem stats_take {root : Nat} {queue : List Nat} {stats : Stats} :
    (s.take root queue stats).stats = stats := by
  simp only [take]
  split <;> rfl

theorem iterations_process {order : SetOrder} {root : Nat} {queue : List Nat} {stats : Stats}
    (h : ({ s with queue, stats } : State).process order root = .ok t) :
    t.stats.iterations = stats.iterations := by
  rw [process_eq order root queue stats rfl] at h
  simp only [bind_eq_ok] at h
  obtain ⟨-, -, u, hu, -, -, h⟩ := h
  rw [(quiet_flowAll h).iterations_eq]
  split at hu
  · rw [← pure_eq_ok.1 hu, stats_take]
  · rw [iterations_conditionals hu, stats_take]

/-! ## Where they are -/

/-- A root is counted when it is taken. -/
theorem iterations_step {order : SetOrder} (hqueue : s.queue ≠ []) (h : s.step order = .ok t) :
    t.stats.iterations = s.stats.iterations + 1 := by
  unfold step at h
  split at h
  · next hpop => exact absurd (pop?_eq_none hpop) hqueue
  · obtain ⟨root, -, h⟩ := bind_eq_ok.1 h
    exact iterations_process h

/-- **The counter counts the roots that were taken.** -/
theorem Pops.iterations_eq {order : SetOrder} {k : Nat} (h : Pops order k s t) :
    t.stats.iterations = s.stats.iterations + k := by
  induction h with
  | zero s => rfl
  | succ hqueue hok _ ih =>
      rw [ih, iterations_step hqueue hok]
      omega

theorem iterations_addConstraint {c : Constraint} (h : s.addConstraint c = .ok t) :
    t.stats.iterations = s.stats.iterations := by
  rcases addConstraint_cases h with ⟨hplain, -⟩ | ⟨callee, site, -, -, rfl⟩
  · exact hplain.iterations_eq
  · exact (plain_push _ _).iterations_eq

/-- No root has been taken when propagation begins. -/
theorem iterations_seed {settings : Settings} {p : Pool} {constraints : List Constraint}
    (h : seed settings p constraints = .ok s) : s.stats.iterations = 0 := by
  obtain ⟨s₀, hplant, h⟩ := seed_eq_ok.1 h
  have hadded : s.stats.iterations = _ := foldlM_induction
    (P := fun u => u.stats.iterations = s₀.stats.iterations)
    (fun _ _ _ _ hu hok => (iterations_addConstraint hok).trans hu) rfl h
  exact hadded.trans (plain_plant hplant).iterations_eq

end State

open State

/-- **The worklist runs empty**, whatever the strategy and the order of the sets.  Taking roots
while there is one to take leads from the seeded state to one with an empty worklist.  The
counter of that state says how many were taken, at most `2 * n * n + n` for `n` entities, one
for each constraint and two more; and a run that may take that many ends there. -/
theorem worklist_runs_empty (settings : Settings) (order : SetOrder) (p : Pool) (hp : p.Ready)
    (constraints : List Constraint) (hc : ∀ c ∈ constraints, c.Over p) :
    ∃ s t, seed settings p constraints = .ok s ∧ Pops order t.stats.iterations s t ∧
      t.queue = [] ∧
      t.stats.iterations ≤ 2 * p.size * p.size + p.size + constraints.length + 2 ∧
      (∀ bound, t.stats.iterations ≤ bound → s.propagate order bound = .ok t) ∧
      solve settings order p constraints = .ok (t.pool, t.report) := by
  obtain ⟨s, hseed, hseeding, -, -, hwork⟩ := seed_ok hp hc (above_univ p)
    ((solution_univ p constraints).beyond (settings.spared p))
  obtain ⟨k, t, hpops, -, -, hqueue, hk⟩ := hseeding.steady.pops order
  have hcount : t.stats.iterations = k := by
    rw [hpops.iterations_eq, iterations_seed hseed, Nat.zero_add]
  subst hcount
  have hrun := hpops.propagate hqueue (hk.trans hwork.le)
  refine ⟨s, t, hseed, hpops, hqueue, ?_, fun bound hbound => hpops.propagate hqueue hbound, ?_⟩
  · rw [popBound] at hwork
    omega
  · simp only [solve, hseed, hrun, bind, Except.bind]
    rfl

/-- Two registers of a cycle that is collapsed while it fills. -/
theorem worklist_runs_empty_cyclicPool : cyclicPool.Ready ∧
    (∀ c ∈ cyclicConstraints, c.Over cyclicPool) ∧
    ∃ s t, seed ⟨true, .lifo, true⟩ cyclicPool cyclicConstraints = .ok s ∧
      Pops .ascending t.stats.iterations s t ∧ t.queue = [] ∧ t.stats.iterations ≤ 114 := by
  have hready : cyclicPool.Ready := Pool.Fresh.ready (by decide)
  have hover : ∀ c ∈ cyclicConstraints, c.Over cyclicPool := by decide
  obtain ⟨s, t, hseed, hpops, hqueue, hle, -⟩ :=
    worklist_runs_empty ⟨true, .lifo, true⟩ .ascending cyclicPool hready
      cyclicConstraints hover
  exact ⟨hready, hover, s, t, hseed, hpops, hqueue, hle⟩

end PointerChannels.Inclusion
