import PointerChannels.Proofs.Encoding.View
import PointerChannels.Proofs.Encoding.Written

/-!
# What is gathered of a program

Gathering goes through all operations once.  It lists the accesses and the calls, and collects
in the summary of each function what its own operations touch.

## Main statements

* `gatherAll_ok` — gathering succeeds, and says what it has gathered.
-/

namespace PointerChannels.Encoding

variable {v : View} {program : Program} {op : Operation} {x : Channel}

/-- An operation touches a channel itself, apart from what its callees touch. -/
def View.Touches (v : View) (program : Program) (op : Operation) (x : Channel) : Prop :=
  (op.kind.touchesMemory = true ∧ op.kind ≠ .call ∧
    ∃ a, v.access op = .ok a ∧ x ∈ a.uses.union a.defs) ∨
  op.kind = .call ∧ ∃ caller c, v.call program caller op = .ok c ∧ x ∈ c.locals

/-- A call is the same wherever it stands. -/
theorem View.call_congr {caller : FunctionId} {c : Call} (h : v.call program caller op = .ok c)
    (caller' : FunctionId) : v.call program caller' op = .ok { c with caller := caller' } := by
  obtain ⟨callee, r, passed, hof⟩ := call_eq_ok.1 h
  exact call_eq_ok.2 ⟨callee, r, passed, { hof with caller_eq := rfl }⟩

theorem View.touches_access {a : Access} (hmemory : op.kind.touchesMemory = true)
    (hcall : op.kind ≠ .call) (h : v.access op = .ok a) :
    v.Touches program op x ↔ x ∈ a.uses.union a.defs := by
  simp [Touches, hmemory, hcall, h]

theorem View.touches_call {caller : FunctionId} {c : Call} (hcall : op.kind = .call)
    (h : v.call program caller op = .ok c) : v.Touches program op x ↔ x ∈ c.locals := by
  constructor
  · rintro (⟨-, hne, -⟩ | ⟨-, caller', c', h', hx⟩)
    · exact absurd hcall hne
    · rw [call_congr h' caller] at h
      rwa [← Except.ok.inj h]
  · exact fun hx => .inr ⟨hcall, caller, c, h, hx⟩

/-- An operation that does not touch memory touches no channel. -/
theorem View.Touches.touchesMemory (h : v.Touches program op x) :
    op.kind.touchesMemory = true := by
  rcases h with ⟨hmemory, -⟩ | ⟨hcall, -⟩
  · exact hmemory
  · rw [hcall]
    rfl

/-- **A memory operation touches a channel unless it is idle.** -/
theorem View.Ready.exists_touches_iff (hv : v.Ready program) (hop : op ∈ program.operations)
    (hmemory : op.kind.touchesMemory = true) :
    (∃ x, v.Touches program op x) ↔ ¬ program.Idle v.graph op := by
  by_cases hcall : op.kind = .call
  · obtain ⟨c, hc, -, -, -, hlocals⟩ := hv.call_ok hop hcall 0
    rw [← hlocals]
    exact exists_congr fun x => touches_call hcall hc
  · obtain ⟨a, ha, -, x, hx⟩ := hv.access_ok hop hmemory hcall
    exact ⟨fun _ hidle => hcall hidle.kind_eq,
      fun _ => ⟨x, (touches_access hmemory hcall ha).2 hx⟩⟩

/-! ## Gathering -/

/-- What has been gathered after some operations of some functions. -/
structure Gathered (v : View) (program : Program) (done : List (FunctionId × Operation))
    (d : Draft) : Prop where
  accessed : ∀ e ∈ done, e.2.kind.touchesMemory = true → e.2.kind ≠ .call →
    ∃ a, v.access e.2 = .ok a
  called : ∀ e ∈ done, e.2.kind = .call → ∃ c, v.call program e.1 e.2 = .ok c
  accesses : ∀ {a}, a ∈ d.accesses ↔ ∃ e ∈ done, e.2.kind.touchesMemory = true ∧
    e.2.kind ≠ .call ∧ v.access e.2 = .ok a
  calls : ∀ {c}, c ∈ d.calls ↔ ∃ e ∈ done, e.2.kind = .call ∧ v.call program e.1 e.2 = .ok c
  size_eq : d.summaries.size = program.functions.size
  summaries : ∀ {x f}, f ∈ holders d.summaries x ↔ ∃ e ∈ done, e.1 = f ∧
    v.Touches program e.2 x

/-- **Gathering one operation**, when it went through. -/
theorem Gathered.gather {done : List (FunctionId × Operation)} {d d' : Draft} {f : FunctionId}
    (hd : Gathered v program done d) (h : gather v program f d op = .ok d') :
    Gathered v program (done ++ [(f, op)]) d' := by
  have hlast : ∀ P : FunctionId × Operation → Prop,
      (∃ e ∈ done ++ [(f, op)], P e) ↔ (∃ e ∈ done, P e) ∨ P (f, op) := by
    intro P
    simp only [List.mem_append, List.mem_singleton, or_and_right, exists_or, exists_eq_left]
  have hall : ∀ P : FunctionId × Operation → Prop, (∀ e ∈ done, P e) → P (f, op) →
      ∀ e ∈ done ++ [(f, op)], P e := by
    intro P hdone hop e he
    rcases List.mem_append.1 he with he | he
    · exact hdone e he
    · rw [List.mem_singleton.1 he]
      exact hop
  unfold Encoding.gather at h
  split at h
  · next hmemory =>
      obtain rfl := Except.ok.inj h
      have hmemory : op.kind.touchesMemory = false := by simpa using hmemory
      have hcall : op.kind ≠ .call := fun hcall => absurd hmemory (by rw [hcall]; decide)
      refine ⟨hall _ hd.accessed (by simp [hmemory]), hall _ hd.called fun h => absurd h hcall,
        ?_, ?_, hd.size_eq, ?_⟩
      · intro a
        rw [hlast, hd.accesses]
        simp [hmemory]
      · intro c
        rw [hlast, hd.calls]
        simp [hcall]
      · intro x g
        rw [hlast, hd.summaries]
        have : ¬ v.Touches program op x := fun h => absurd h.touchesMemory (by simp [hmemory])
        simp [this]
  next hmemory =>
  have hmemory : op.kind.touchesMemory = true := by simpa using hmemory
  split at h
  · next hcall =>
      simp only [bind_eq_ok, pure_eq_ok] at h
      obtain ⟨c, hc, d₁, hd₁, rfl⟩ := h
      obtain ⟨hsize, rfl⟩ := Draft.summarize_eq_ok hd₁
      refine ⟨hall _ hd.accessed fun _ h => absurd hcall h,
        hall _ hd.called fun _ => ⟨c, hc⟩, ?_, ?_, (Array.size_modify ..).trans hd.size_eq, ?_⟩
      · intro a
        rw [hlast, hd.accesses]
        simp [hcall]
      · intro c'
        rw [hlast, ← hd.calls]
        simp [hcall, hc, eq_comm]
      · intro x g
        rw [hlast, ← hd.summaries, View.touches_call hcall hc,
          mem_holders_modify hsize, @eq_comm _ g]
  · next hcall =>
      simp only [bind_eq_ok, pure_eq_ok] at h
      obtain ⟨a, ha, d₁, hd₁, rfl⟩ := h
      obtain ⟨hsize, rfl⟩ := Draft.summarize_eq_ok hd₁
      refine ⟨hall _ hd.accessed fun _ _ => ⟨a, ha⟩, hall _ hd.called fun h => absurd h hcall,
        ?_, ?_, (Array.size_modify ..).trans hd.size_eq, ?_⟩
      · intro a'
        rw [hlast, ← hd.accesses]
        simp [hmemory, hcall, ha, eq_comm]
      · intro c
        rw [hlast, hd.calls]
        simp [hcall]
      · intro x g
        rw [hlast, ← hd.summaries, View.touches_access hmemory hcall ha,
          mem_holders_modify hsize, @eq_comm _ g]

/-- Adding to the summary of a function. -/
theorem summarize_ok {d : Draft} {f : FunctionId} (hf : f < d.summaries.size)
    (channels : IndexSet) :
    d.summarize f channels =
      .ok { d with summaries := d.summaries.modify f (·.union channels) } := by
  rw [Draft.summarize, entryAt_eq_ok.2 (Array.getElem?_eq_getElem hf)]
  rfl

/-- Gathering one operation succeeds. -/
theorem gather_ok (hv : v.Ready program) {d : Draft} (hop : op ∈ program.operations)
    {f : FunctionId} (hf : f < d.summaries.size) :
    ∃ d', gather v program f d op = .ok d' ∧ d'.summaries.size = d.summaries.size := by
  unfold gather
  split
  · exact ⟨d, rfl, rfl⟩
  next hmemory =>
  split
  · next hcall =>
      obtain ⟨c, hc, -⟩ := hv.call_ok hop hcall f
      simp only [hc, bind, Except.bind, summarize_ok hf]
      exact ⟨_, rfl, Array.size_modify ..⟩
  · next hcall =>
      obtain ⟨a, ha, -⟩ := hv.access_ok hop (by simpa using hmemory) hcall
      simp only [ha, bind, Except.bind, summarize_ok hf]
      exact ⟨_, rfl, Array.size_modify ..⟩

/-- The operations of functions, with the functions they stand in. -/
def entriesOf (functions : List FunctionDef) : List (FunctionId × Operation) :=
  functions.flatMap fun f => f.body.toList.map (f.id, ·)

/-- The operations of a program with the functions they stand in. -/
def entries (program : Program) : List (FunctionId × Operation) :=
  entriesOf program.functions.toList

theorem mem_entries {e : FunctionId × Operation} : e ∈ entries program ↔
    ∃ f ∈ program.functions.toList, f.id = e.1 ∧ e.2 ∈ f.body.toList := by
  obtain ⟨id, op⟩ := e
  simp only [entries, entriesOf, List.mem_flatMap, List.mem_map, Prod.mk.injEq]
  constructor
  · rintro ⟨f, hf, _, hop, rfl, rfl⟩
    exact ⟨f, hf, rfl, hop⟩
  · rintro ⟨f, hf, rfl, hop⟩
    exact ⟨f, hf, op, hop, rfl, rfl⟩

/-- **What was gathered**, when gathering went through: all operations of all functions. -/
theorem gatherAll_gathered {d : Draft} (h : gatherAll v program = .ok d) :
    Gathered v program (entries program) d := by
  have hnone : Gathered v program (entriesOf [])
      ⟨[], [], Array.replicate program.functions.size .empty⟩ := by
    constructor
    case size_eq => simp
    case summaries =>
      intro x f
      rw [mem_holders]
      simp [Array.getElem?_replicate, entriesOf]
    all_goals simp [entriesOf]
  refine foldlM_prefix (I := fun fs => Gathered v program (entriesOf fs))
    (fun done d f d' hd hbody => ?_) hnone h
  have hentries : entriesOf (done ++ [f]) = entriesOf done ++ f.body.toList.map (f.id, ·) := by
    simp [entriesOf]
  rw [hentries]
  refine foldlM_prefix
    (I := fun ops => Gathered v program (entriesOf done ++ ops.map (f.id, ·))) (k := [])
    (fun ops d op d' hd hgather => ?_) (by simpa using hd) hbody
  rw [List.map_append, ← List.append_assoc]
  exact hd.gather hgather

/-- **Gathering succeeds**, and has then gathered all operations of all functions. -/
theorem gatherAll_ok (hp : program.Coherent) (hv : v.Ready program) :
    ∃ d, gatherAll v program = .ok d ∧ Gathered v program (entries program) d := by
  have hfold := foldlM_ok (l := program.functions.toList)
    (f := fun d f => f.body.toList.foldlM (gather v program f.id) d)
    (G := fun d => d.summaries.size = program.functions.size) (R := fun _ _ => True)
    (D := fun _ _ => True) (fun _ => trivial) (fun _ _ => trivial) (fun _ _ => trivial)
    (s := ⟨[], [], Array.replicate program.functions.size .empty⟩) ?round (by simp)
  · obtain ⟨d, hok, -⟩ := hfold
    exact ⟨d, hok, gatherAll_gathered hok⟩
  case round =>
    intro d f hf hsize
    obtain ⟨d', hok, hsize', -⟩ := foldlM_ok (l := f.body.toList) (f := gather v program f.id)
      (G := fun d => d.summaries.size = program.functions.size) (R := fun _ _ => True)
      (D := fun _ _ => True) (fun _ => trivial) (fun _ _ => trivial) (fun _ _ => trivial)
      (fun d op hop hsize => by
        obtain ⟨d', hok, hsize'⟩ := gather_ok hv (List.mem_flatMap.2 ⟨f, hf, hop⟩)
          (hsize ▸ hp.id_lt_size hf)
        exact ⟨d', hok, hsize'.trans hsize, trivial, trivial⟩) hsize
    exact ⟨d', hok, hsize', trivial, trivial⟩

end PointerChannels.Encoding
