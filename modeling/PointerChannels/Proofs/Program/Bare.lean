import PointerChannels.Proofs.Program.State

/-!
# Programs without their memory states

A write of a memory state changes the state and nothing else, so the bare program, which
has no states, is the same after it.  A list of writes leaves at every place the state that
was last written to it, or the one that was there; whether the writes go through can be
read off the bare program.

Nothing is assumed of the program: several numbers may share a place, and places may be empty.

## Main definitions

* `Program.bare` — the program without its memory states.
* `Program.lastWritten` — the state that a list of writes leaves at a place.

## Main statements

* `Program.ext_bare` — a program is its bare program and what stands at each place.
* `Program.writeAll_eq_ok` — the effect of a list of writes.
-/

namespace PointerChannels

/-- The operation without its memory state. -/
def Operation.bare (op : Operation) : Operation := { op with state := .none }

/-- The function without the memory states of its operations. -/
def FunctionDef.bare (f : FunctionDef) : FunctionDef :=
  { f with body := f.body.map Operation.bare }

theorem FunctionDef.ext_bare {f g : FunctionDef} (h : f.bare = g.bare)
    (hbody : f.body = g.body) : f = g := by
  cases f
  cases g
  simp_all [FunctionDef.bare]

theorem map_modify_of_comp {α β : Type} {g : α → β} {change : α → α}
    (h : ∀ a, g (change a) = g a) (xs : Array α) (i : Nat) :
    (xs.modify i change).map g = xs.map g := by
  refine Array.ext_getElem? fun k => ?_
  rw [Array.getElem?_map, Array.getElem?_map, Array.getElem?_modify]
  split
  · rw [Option.map_map, show g ∘ change = g from funext h]
  · rfl

namespace Program

variable {p q r : Program} {i j : Nat}

/-- The program without its memory states. -/
def bare (p : Program) : Program := { p with functions := p.functions.map FunctionDef.bare }

theorem locations_eq_of_bare_eq (h : p.bare = q.bare) : p.locations = q.locations :=
  (Program.mk.inj h).2.2.2.2

theorem operations_bare : p.bare.operations = p.operations.map Operation.bare := by
  simp [operations, bare, FunctionDef.bare, List.flatMap_map, List.map_flatMap]

theorem operationAt?_bare :
    p.bare.operationAt? i j = (p.operationAt? i j).map Operation.bare := by
  rw [operationAt?, operationAt?, bare, Array.getElem?_map, Option.bind_map, Option.map_bind]
  congr 1
  funext f
  exact Array.getElem?_map

/-- What is at a place is known up to its state. -/
theorem operationAt?_of_bare_eq (h : p.bare = q.bare) {op : Operation}
    (hop : p.operationAt? i j = some op) :
    ∃ state, q.operationAt? i j = some { op with state } := by
  have hbare : (q.operationAt? i j).map Operation.bare = some op.bare := by
    rw [← operationAt?_bare, ← h, operationAt?_bare, hop]
    rfl
  obtain ⟨op', hop', heq⟩ := Option.map_eq_some_iff.1 hbare
  refine ⟨op'.state, hop'.trans (congrArg some ?_)⟩
  obtain ⟨_, _, _, _, _⟩ := op
  obtain ⟨_, _, _, _, _⟩ := op'
  obtain ⟨rfl, rfl, rfl, rfl, -⟩ := Operation.mk.inj heq
  rfl

theorem operationAt?_eq_none_of_bare_eq (h : p.bare = q.bare)
    (hop : p.operationAt? i j = none) : q.operationAt? i j = none := by
  rw [← Option.map_eq_none_iff (f := Operation.bare), ← operationAt?_bare, ← h,
    operationAt?_bare, hop]
  rfl

/-- **A program is its bare program and what stands at each place.** -/
theorem ext_bare (h : p.bare = q.bare)
    (hat : ∀ i j, p.operationAt? i j = q.operationAt? i j) : p = q := by
  obtain ⟨values, functions, imports, exports, locations⟩ := p
  obtain ⟨values', functions', imports', exports', locations'⟩ := q
  obtain ⟨rfl, hfunctions, rfl, rfl, rfl⟩ := Program.mk.inj h
  congr 1
  refine Array.ext_getElem? fun i => ?_
  have hi := congrArg (·[i]?) hfunctions
  simp only [Array.getElem?_map] at hi
  cases hf : functions[i]? with
  | none => simpa [hf, eq_comm] using hi
  | some f =>
      rw [hf] at hi
      obtain ⟨g, hg, heq⟩ := Option.map_eq_some_iff.1 hi.symm
      rw [hg]
      -- the two functions have the same head, and their bodies agree place by place
      have hbody : f.body = g.body := by
        refine Array.ext_getElem? fun j => ?_
        simpa only [operationAt?, hf, hg, Option.bind_some] using hat i j
      rw [FunctionDef.ext_bare heq.symm hbody]

/-! ## One write -/

theorem bare_modifyAt {change : Operation → Operation} (h : ∀ op, (change op).bare = op.bare) :
    (p.modifyAt i j change).bare = p.bare := by
  rw [bare, bare, modifyAt, map_modify_of_comp]
  intro f
  rw [FunctionDef.bare, FunctionDef.bare, map_modify_of_comp h]

theorem setState_eq_ok {o : OperationId} {state : MemoryState} : p.setState o state = .ok q ↔
    p.locations[o]? = none ∧ q = p ∨ ∃ i j, p.locations[o]? = some (i, j) ∧
      i < p.functions.size ∧ q = p.modifyAt i j ({ · with state }) := by
  rw [setState]
  split
  · next h => simp [h, eq_comm]
  · next i j h =>
    simp only [h, bind_eq_ok, function, entryAt_eq_ok, pure_eq_ok, reduceCtorEq,
      false_and, false_or, Option.some.injEq, Prod.mk.injEq]
    constructor
    · rintro ⟨f, hf, rfl⟩
      exact ⟨i, j, ⟨rfl, rfl⟩, (Array.getElem?_eq_some_iff.1 hf).1, rfl⟩
    · rintro ⟨_, _, ⟨rfl, rfl⟩, hi, rfl⟩
      exact ⟨_, Array.getElem?_eq_getElem hi, rfl⟩

/-- A write changes one state, at the place of its number. -/
theorem setState_spec {o : OperationId} {state : MemoryState}
    (h : p.setState o state = .ok q) :
    q.bare = p.bare ∧ ∀ i j, q.operationAt? i j = if p.locations[o]? = some (i, j) then
      (p.operationAt? i j).map ({ · with state }) else p.operationAt? i j := by
  rcases setState_eq_ok.1 h with ⟨hplace, rfl⟩ | ⟨k, l, hplace, -, rfl⟩
  · exact ⟨rfl, by simp [hplace]⟩
  · refine ⟨bare_modifyAt fun _ => rfl, fun i j => ?_⟩
    simp only [operationAt?_modifyAt, hplace, Option.some.injEq, Prod.mk.injEq]

/-- Whether a write goes through does not depend on the states. -/
theorem setState_of_bare_eq {o : OperationId} {state : MemoryState} (hbare : p.bare = q.bare)
    (h : p.setState o state = .ok r) : ∃ r', q.setState o state = .ok r' := by
  have hlocations := locations_eq_of_bare_eq hbare
  have hsize : p.functions.size = q.functions.size := by
    simpa [bare] using congrArg (fun p => p.functions.size) hbare
  rcases setState_eq_ok.1 h with ⟨hplace, -⟩ | ⟨i, j, hplace, hi, -⟩
  · exact ⟨q, setState_eq_ok.2 (.inl ⟨hlocations ▸ hplace, rfl⟩)⟩
  · exact ⟨_, setState_eq_ok.2 (.inr ⟨i, j, hlocations ▸ hplace, hsize ▸ hi, rfl⟩)⟩

/-! ## Many writes -/

/-- Write states one after the other, each to the operation of a number. -/
def writeAll (p : Program) (writes : List (OperationId × MemoryState)) :
    Except Fault Program :=
  writes.foldlM (fun p write => p.setState write.1 write.2) p

/-- The state that a list of writes leaves at a place, if one of them goes there. -/
def lastWritten (p : Program) (i j : Nat) :
    List (OperationId × MemoryState) → Option MemoryState
  | [] => none
  | write :: rest => (p.lastWritten i j rest).or
      (if p.locations[write.1]? = some (i, j) then some write.2 else none)

theorem lastWritten_congr {writes : List (OperationId × MemoryState)}
    (h : p.locations = q.locations) : p.lastWritten i j writes = q.lastWritten i j writes := by
  induction writes with
  | nil => rfl
  | cons write rest ih => rw [lastWritten, lastWritten, ih, h]

theorem lastWritten_eq_none {writes : List (OperationId × MemoryState)} :
    p.lastWritten i j writes = none ↔
    ∀ write ∈ writes, p.locations[write.1]? ≠ some (i, j) := by
  induction writes with
  | nil => simp [lastWritten]
  | cons write rest ih => simp [lastWritten, ih, and_comm]

theorem mem_of_lastWritten {writes : List (OperationId × MemoryState)} {state : MemoryState}
    (h : p.lastWritten i j writes = some state) : ∃ write ∈ writes, write.2 = state := by
  induction writes with
  | nil => simp [lastWritten] at h
  | cons write rest ih =>
      rw [lastWritten, Option.or_eq_some_iff] at h
      rcases h with h | ⟨-, h⟩
      · obtain ⟨write', hmem, hstate⟩ := ih h
        exact ⟨write', List.mem_cons_of_mem _ hmem, hstate⟩
      · split at h
        · exact ⟨write, List.mem_cons_self, Option.some_injective _ h⟩
        · simp at h

/-- **The effect of a list of writes**: at each place the state last written
to it, or the old one. -/
theorem writeAll_eq_ok {writes : List (OperationId × MemoryState)}
    (h : p.writeAll writes = .ok q) :
    q.bare = p.bare ∧ ∀ i j, q.operationAt? i j = (p.operationAt? i j).map fun op =>
      { op with state := (p.lastWritten i j writes).getD op.state } := by
  induction writes generalizing p with
  | nil =>
      obtain rfl := pure_eq_ok.1 h
      exact ⟨rfl, fun i j => by simp [lastWritten]⟩
  | cons write rest ih =>
      rw [writeAll, List.foldlM_cons, bind_eq_ok] at h
      obtain ⟨r, hr, h⟩ := h
      obtain ⟨hbare, hat⟩ := setState_spec hr
      obtain ⟨hbare', hat'⟩ := ih h
      refine ⟨hbare'.trans hbare, fun i j => ?_⟩
      have hlast : r.lastWritten i j rest = p.lastWritten i j rest :=
        lastWritten_congr (locations_eq_of_bare_eq hbare)
      rw [hat', hat, hlast, lastWritten]
      split
      · rw [Option.map_map]
        cases p.lastWritten i j rest <;> rfl
      · rw [Option.or_none]

theorem writeAll_of_bare_eq {writes : List (OperationId × MemoryState)}
    (hbare : p.bare = q.bare) (h : p.writeAll writes = .ok r) :
    ∃ r', q.writeAll writes = .ok r' := by
  induction writes generalizing p q with
  | nil => exact ⟨q, rfl⟩
  | cons write rest ih =>
      rw [writeAll, List.foldlM_cons, bind_eq_ok] at h
      obtain ⟨s, hs, h⟩ := h
      obtain ⟨s', hs'⟩ := setState_of_bare_eq hbare hs
      have hrest : s.bare = s'.bare := by
        rw [(setState_spec hs).1, (setState_spec hs').1, hbare]
      obtain ⟨r', hr'⟩ := ih hrest h
      exact ⟨r', by rw [writeAll, List.foldlM_cons, hs']; exact hr'⟩

/-- At a place that is written, what was there before is forgotten. -/
theorem writeAll_agree {writes : List (OperationId × MemoryState)} {p' q' : Program}
    (hbare : p.bare = q.bare) (hp : p.writeAll writes = .ok p')
    (hq : q.writeAll writes = .ok q') (h : p.operationAt? i j = q.operationAt? i j ∨
      ∃ write ∈ writes, p.locations[write.1]? = some (i, j)) :
    p'.operationAt? i j = q'.operationAt? i j := by
  have hlast : p.lastWritten i j writes = q.lastWritten i j writes :=
    lastWritten_congr (locations_eq_of_bare_eq hbare)
  rw [(writeAll_eq_ok hp).2, (writeAll_eq_ok hq).2, ← hlast]
  rcases h with heq | ⟨write, hmem, hplace⟩
  · rw [heq]
  obtain ⟨state, hstate⟩ : ∃ state, p.lastWritten i j writes = some state := by
    rw [← Option.ne_none_iff_exists']
    exact fun hnone => lastWritten_eq_none.1 hnone write hmem hplace
  simp only [hstate, Option.getD_some]
  cases hop : p.operationAt? i j with
  | none => rw [operationAt?_eq_none_of_bare_eq hbare hop]
  | some op =>
      obtain ⟨state', hop'⟩ := operationAt?_of_bare_eq hbare hop
      rw [hop']
      rfl

end Program
end PointerChannels
