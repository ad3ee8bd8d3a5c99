import PointerChannels.Graph.OfPool
import PointerChannels.Proofs.Fold
import PointerChannels.Proofs.Generation.Registers
import PointerChannels.Proofs.Visit

/-!
# The graph of a solved pool

The graph has one memory node for each memory object of the pool and one register node for each
value with a register, and a node points to the nodes of all that its entity's class points to.

## Main definitions

* `Graph.Depicts` — a graph stands for entities and what they point to, by a numbering of
  memory nodes in the order of entities.
* `Graph.Represents` — it does, and objects are found by the part of the
  program they were made for.
* `Graph.Built` — the stages in which the graph is made, and what each of them leaves.

## Main statements

* `Graph.depicts_of_ofPool` — the graph of a pool depicts it.
* `Graph.Depicts.represents` — it represents the pool when no two objects were made for
  one part of the program.
-/

namespace PointerChannels

namespace Graph

/-- The kind of the node of an entity. -/
def Kind.ofEntity : Entity.Kind → Kind
  | .register => .register
  | .allocaObject => .alloca
  | .heapObject => .malloc
  | .functionObject => .allocator
  | .importObject => .importSymbol
  | .unknownMemory => .unknownMemory
  | .externalMemory => .externalMemory

theorem Kind.ofEntity?_eq_some {kind : Entity.Kind} {k : Kind} :
    ofEntity? kind = some k ↔
      k = ofEntity kind ∧ kind.isMemoryObject = true ∧ kind.isSentinel = false := by
  cases kind <;> cases k <;> decide

theorem Kind.ofEntity?_eq_none {kind : Entity.Kind} :
    ofEntity? kind = none ↔ (kind.isMemoryObject = true → kind.isSentinel = true) := by
  cases kind <;> decide

theorem Kind.isMemoryObject_ofEntity (kind : Entity.Kind) :
    (ofEntity kind).isMemoryObject = kind.isMemoryObject := by
  cases kind <;> rfl

theorem Kind.isSentinel_ofEntity (kind : Entity.Kind) :
    (ofEntity kind).isSentinel = kind.isSentinel := by
  cases kind <;> rfl

variable {p : Pool} {g g' : Graph} {n m : Nat} {kind : Kind} {origin : Origin}

/-- The node has the kind and was made for the part of the program. -/
def Shows (g : Graph) (n : Nat) (kind : Kind) (origin : Origin) : Prop :=
  g.nodes[n]?.map (fun x => (x.kind, x.origin)) = some (kind, origin)

theorem Shows.kindOf? (h : g.Shows n kind origin) : g.kindOf? n = some kind := by
  obtain ⟨x, hx, heq⟩ := Option.map_eq_some_iff.1 h
  rw [Graph.kindOf?, hx]
  exact congrArg some (Prod.mk.inj heq).1

theorem lt_size_of_kindOf? (h : g.kindOf? n = some kind) : n < g.size := by
  obtain ⟨x, hx, -⟩ := Option.map_eq_some_iff.1 h
  exact (Array.getElem?_eq_some_iff.1 hx).1

/-- The node exists and stands for memory. -/
def IsMemory (g : Graph) (n : Nat) : Prop :=
  ∃ kind, g.kindOf? n = some kind ∧ kind.isMemoryObject = true

theorem IsMemory.lt_size (h : g.IsMemory n) : n < g.size := by
  obtain ⟨kind, hkind, -⟩ := h
  exact lt_size_of_kindOf? hkind

/-- Every edge leads to a node of the graph. -/
def Closed (g : Graph) : Prop := ∀ k, ∀ m ∈ g.targetsOf k, m < g.size

theorem walkFrom_eq_ok {start met : List Nat} (h : g.walkFrom start = .ok met) :
    g.reachableFrom start = met := by
  obtain ⟨-, -, h⟩ := bind_eq_ok.1 h
  exact pure_eq_ok.1 h

/-- A walk from nodes of a closed graph meets only nodes. -/
theorem Closed.walkFrom_ok (hg : g.Closed) {start : List Nat}
    (hstart : ∀ n ∈ start, n < g.size) : g.walkFrom start = .ok (g.reachableFrom start) := by
  refine bind_eq_ok.2 ⟨(), forM_eq_ok.2 fun n hn => checkIndex_of_lt ?_, rfl⟩
  obtain ⟨x, hx, hpath⟩ := (mem_visit_iff hstart hg).1 hn
  cases hpath with
  | refl => exact hstart n hx
  | tail _ hstep => exact hg _ n hstep

theorem mem_nodesOfKind : n ∈ g.nodesOfKind kind ↔ g.kindOf? n = some kind := by
  rw [nodesOfKind, List.mem_filter, indices, List.mem_range, decide_eq_true_iff]
  exact ⟨And.right, fun h => ⟨lt_size_of_kindOf? h, h⟩⟩

/-- The graph stands for the entities of a pool and what they point to; `node` numbers the
memory nodes, in the order of entities. -/
structure Depicts (g : Graph) (p : Pool) (T : Family) (node : Nat → Nat) : Prop where
  unknown : node Pool.unknown = Graph.unknown
  external : node Pool.external = Graph.external
  ascending : ∀ {a b}, p.IsObject a → p.IsObject b → a < b → node a < node b
  shows : ∀ {o kind origin}, p.Made o kind origin → kind.isMemoryObject = true →
    g.Shows (node o) (Kind.ofEntity kind) origin
  surjective : ∀ {n kind}, g.kindOf? n = some kind → kind.isMemoryObject = true →
    ∃ o, p.IsObject o ∧ node o = n
  pointed : ∀ {k m}, m ∈ g.targetsOf k → ∃ x, p.IsObject x ∧ node x = m
  pointing : ∀ {k m}, m ∈ g.targetsOf k →
    (∃ o, p.IsObject o ∧ node o = k) ∨ ∃ v e, p.register? v = some e ∧ g.register? v = some k
  targets : ∀ {o m}, p.IsObject o → (m ∈ g.targetsOf (node o) ↔ ∃ x ∈ T o, node x = m)
  register : ∀ {v e}, p.register? v = some e → ∃ r, g.register? v = some r ∧
    ∀ {m}, m ∈ g.targetsOf r ↔ ∃ x ∈ T e, node x = m
  registered : ∀ {v r}, g.register? v = some r → ∃ e, p.register? v = some e
  register_lt : ∀ {v r}, g.register? v = some r → r < g.size
  named : ∀ {o kind origin}, p.Made o kind origin → kind.isMemoryObject = true →
    origin ≠ .synthetic → (g.memoryNode? origin).isSome
  sought : ∀ {origin n}, g.memoryNode? origin = some n →
    ∃ o kind, p.Made o kind origin ∧ kind.isMemoryObject = true ∧ node o = n

/-- The graph stands for a pool, and an object is found by the part of the program it was made
for. -/
structure Represents (g : Graph) (p : Pool) (T : Family) (node : Nat → Nat) : Prop extends
    Depicts g p T node where
  found : ∀ {o kind origin}, p.Made o kind origin → kind.isMemoryObject = true →
    origin ≠ .synthetic → g.memoryNode? origin = some (node o)

theorem Depicts.injective {T : Family} {node : Nat → Nat} (h : Depicts g p T node) {a b : Nat}
    (ha : p.IsObject a) (hb : p.IsObject b) (heq : node a = node b) : a = b := by
  rcases Nat.lt_trichotomy a b with hlt | heq' | hlt
  · exact absurd (h.ascending ha hb hlt) (by omega)
  · exact heq'
  · exact absurd (h.ascending hb ha hlt) (by omega)

/-- Classes play no part. -/
theorem Depicts.congr {q : Pool} {T : Family} {node : Nat → Nat} (h : Depicts g q T node)
    (hpq : Pool.SameEntities p q) : Depicts g p T node where
  unknown := h.unknown
  external := h.external
  ascending ha hb := h.ascending (hpq.isObject_iff.2 ha) (hpq.isObject_iff.2 hb)
  shows hm := h.shows (hpq.made_iff.2 hm)
  surjective hn hk := by
    obtain ⟨o, ho, heq⟩ := h.surjective hn hk
    exact ⟨o, hpq.isObject_iff.1 ho, heq⟩
  pointed hm := by
    obtain ⟨x, hx, heq⟩ := h.pointed hm
    exact ⟨x, hpq.isObject_iff.1 hx, heq⟩
  pointing hm := by
    rcases h.pointing hm with ⟨o, ho, heq⟩ | ⟨v, e, he, hv⟩
    · exact .inl ⟨o, hpq.isObject_iff.1 ho, heq⟩
    · exact .inr ⟨v, e, hpq.register?_eq ▸ he, hv⟩
  targets ho := h.targets (hpq.isObject_iff.2 ho)
  register hv := h.register (hpq.register?_eq ▸ hv)
  registered hr := by
    obtain ⟨e, he⟩ := h.registered hr
    exact ⟨e, hpq.register?_eq ▸ he⟩
  register_lt := h.register_lt
  named hm := h.named (hpq.made_iff.2 hm)
  sought hn := by
    obtain ⟨o, kind, hm, hk, heq⟩ := h.sought hn
    exact ⟨o, kind, hpq.made_iff.1 hm, hk, heq⟩

/-- Where no two objects were made for one part of the program, each is found by its part. -/
theorem Depicts.represents {T : Family} {node : Nat → Nat} (h : Depicts g p T node)
    (horigins : (p.objects.map Prod.snd).Nodup) : Represents g p T node where
  toDepicts := h
  found hm hk ho := by
    obtain ⟨n, hn⟩ := Option.isSome_iff_exists.1 (h.named hm hk ho)
    obtain ⟨o', kind', hm', hk', rfl⟩ := h.sought hn
    rw [hn, Pool.eq_of_origin horigins hm hm' hk hk' ho]

/-! ## Memory nodes -/

/-- The memory nodes of the entities before `k` have been added, and are listed by entity. -/
structure Laid (p : Pool) (k : Nat) (g : Graph) (table : List (Nat × Nat)) : Prop where
  keys : (table.map Prod.fst).Pairwise (· < ·)
  nodes : table.map Prod.snd = List.range g.size
  unknown : (Pool.unknown, Graph.unknown) ∈ table
  external : (Pool.external, Graph.external) ∈ table
  bound : ∀ {e n}, (e, n) ∈ table → e < k ∨ e < 2
  shows : ∀ {e n kind origin}, (e, n) ∈ table → p.Made e kind origin →
    kind.isMemoryObject = true ∧ g.Shows n (Kind.ofEntity kind) origin
  all : ∀ {e}, e < k → p.IsObject e → ∃ n, (e, n) ∈ table
  blank : ∀ n, g.targetsOf n = .empty
  registers : g.registers = []
  memory : ∀ {origin n}, (origin, n) ∈ g.memory ↔
    origin ≠ .synthetic ∧ ∃ e kind, (e, n) ∈ table ∧ p.Made e kind origin

theorem shows_push {label : String} {kind' : Kind} {origin' : Origin} :
    (g.push kind label origin).Shows n kind' origin' ↔
      g.Shows n kind' origin' ∨ n = g.size ∧ kind = kind' ∧ origin = origin' := by
  unfold Shows
  rw [push, Array.getElem?_push]
  split
  · next h =>
      rw [h, Array.getElem?_eq_none le_rfl]
      simp [size]
  · next h => exact ⟨.inl, fun h' => h'.resolve_right fun h'' => h h''.1⟩

theorem size_push {label : String} : (g.push kind label origin).size = g.size + 1 :=
  Array.size_push _

theorem blank_push {label : String} (h : ∀ n, g.targetsOf n = .empty) (n : Nat) :
    (g.push kind label origin).targetsOf n = .empty := by
  have hn := h n
  rw [targetsOf] at hn ⊢
  rw [push, Array.getElem?_push]
  split
  · rfl
  · exact hn

theorem laid_new (id : Nat) (hp : p.Guarded) :
    Laid p 0 (new id) [(Pool.unknown, Graph.unknown), (Pool.external, Graph.external)] where
  keys := by decide
  nodes := rfl
  unknown := by simp
  external := by simp
  bound {e n} he := by
    simp only [List.mem_cons, Prod.mk.injEq, List.not_mem_nil, or_false] at he
    rcases he with ⟨rfl, -⟩ | ⟨rfl, -⟩
    · exact .inr (by decide)
    · exact .inr (by decide)
  shows {e n kind origin} he hm := by
    simp only [List.mem_cons, Prod.mk.injEq, List.not_mem_nil, or_false] at he
    rcases he with ⟨rfl, rfl⟩ | ⟨rfl, rfl⟩
    · obtain ⟨rfl, rfl⟩ := hp.made_unknown.unique hm
      exact ⟨rfl, rfl⟩
    · obtain ⟨rfl, rfl⟩ := hp.made_external.unique hm
      exact ⟨rfl, rfl⟩
  all he := absurd he (by simp)
  blank := blank_push (blank_push fun n => by simp [targetsOf])
  registers := rfl
  memory {origin n} := by
    constructor
    · intro hm
      exact absurd hm (by simp [new, push])
    · rintro ⟨ho, e, kind, he, hm⟩
      simp only [List.mem_cons, Prod.mk.injEq, List.not_mem_nil, or_false] at he
      rcases he with ⟨rfl, -⟩ | ⟨rfl, -⟩
      · exact absurd (hp.made_unknown.unique hm).2.symm ho
      · exact absurd (hp.made_external.unique hm).2.symm ho

/-- A sentinel was listed from the start. -/
theorem Laid.skip {k : Nat} {table : List (Nat × Nat)} (h : Laid p k g table) (hp : p.Guarded)
    {kind : Entity.Kind} {origin : Origin} (hm : p.Made k kind origin)
    (hkind : kind.isMemoryObject = true → kind.isSentinel = true) :
    Laid p (k + 1) g table := by
  refine { h with bound := fun he => (h.bound he).imp_left Nat.lt_succ_of_lt, all := ?_ }
  intro e he ho
  rcases Nat.lt_succ_iff_lt_or_eq.1 he with he | rfl
  · exact h.all he ho
  · rcases hp.only hm (hkind (hm.kindOf ▸ ho.2)) with rfl | rfl
    · exact ⟨_, h.unknown⟩
    · exact ⟨_, h.external⟩

theorem addMemory_eq_ok {label : String} (h : g.addMemory kind label origin = .ok (n, g')) :
    n = g.size ∧ g' = { g.push kind label origin with
      memory := if origin = .synthetic then g.memory else (origin, g.size) :: g.memory } := by
  unfold addMemory at h
  split at h
  · obtain ⟨rfl, rfl⟩ := Prod.mk.inj (Except.ok.inj h)
    refine ⟨rfl, ?_⟩
    split
    · rfl
    · rfl
  · exact absurd h (by simp)

theorem Laid.addMemory {k : Nat} {table : List (Nat × Nat)} (h : Laid p k g table)
    (hp : p.Guarded) {kind : Entity.Kind} {label : String} {origin : Origin}
    (hm : p.Made k kind origin) (hmemory : kind.isMemoryObject = true)
    (hsentinel : kind.isSentinel = false)
    (hadd : g.addMemory (.ofEntity kind) label origin = .ok (n, g')) :
    Laid p (k + 1) g' (table ++ [(k, n)]) := by
  obtain ⟨rfl, rfl⟩ := addMemory_eq_ok hadd
  have hk : 2 ≤ k := by
    rcases k with _ | _ | k
    · obtain ⟨rfl, -⟩ := hp.made_unknown.unique hm
      exact absurd hsentinel (by decide)
    · obtain ⟨rfl, -⟩ := hp.made_external.unique hm
      exact absurd hsentinel (by decide)
    · omega
  have hsplit : ∀ {e n}, (e, n) ∈ table ++ [(k, g.size)] ↔ (e, n) ∈ table ∨ e = k ∧
      n = g.size := by
    simp
  constructor
  case keys =>
    rw [List.map_append, List.pairwise_append]
    refine ⟨h.keys, by simp, fun a ha b hb => ?_⟩
    obtain ⟨⟨e, n⟩, he, rfl⟩ := List.mem_map.1 ha
    have hlt := h.bound he
    have heq : b = k := by simpa using hb
    show e < b
    omega
  case nodes =>
    rw [List.map_append, h.nodes]
    show _ = List.range (g.push _ label origin).size
    rw [size_push, List.range_succ]
    rfl
  case unknown => exact hsplit.2 (.inl h.unknown)
  case external => exact hsplit.2 (.inl h.external)
  case bound =>
    intro e n he
    rcases hsplit.1 he with he | ⟨rfl, -⟩
    · exact (h.bound he).imp_left Nat.lt_succ_of_lt
    · exact .inl (Nat.lt_succ_self _)
  case shows =>
    intro e n kind' origin' he hm'
    rcases hsplit.1 he with he | ⟨rfl, rfl⟩
    · exact ⟨(h.shows he hm').1, shows_push.2 (.inl (h.shows he hm').2)⟩
    · obtain ⟨rfl, rfl⟩ := hm.unique hm'
      exact ⟨hmemory, shows_push.2 (.inr ⟨rfl, rfl, rfl⟩)⟩
  case all =>
    intro e he ho
    rcases Nat.lt_succ_iff_lt_or_eq.1 he with he | rfl
    · obtain ⟨n, hn⟩ := h.all he ho
      exact ⟨n, hsplit.2 (.inl hn)⟩
    · exact ⟨_, hsplit.2 (.inr ⟨rfl, rfl⟩)⟩
  case blank => exact blank_push h.blank
  case registers => exact h.registers
  case memory =>
    intro origin' n
    have hcons : (origin', n) ∈ (if origin = .synthetic then g.memory
        else (origin, g.size) :: g.memory) ↔
        (origin', n) ∈ g.memory ∨ origin ≠ .synthetic ∧ origin' = origin ∧ n = g.size := by
      split
      · next ho => simp [ho]
      · next ho => simp [ho, or_comm]
    refine hcons.trans ?_
    rw [h.memory]
    constructor
    · rintro (⟨ho, e, kind', he, hm'⟩ | ⟨ho, rfl, rfl⟩)
      · exact ⟨ho, e, kind', hsplit.2 (.inl he), hm'⟩
      · exact ⟨ho, k, kind, hsplit.2 (.inr ⟨rfl, rfl⟩), hm⟩
    · rintro ⟨ho, e, kind', he, hm'⟩
      rcases hsplit.1 he with he | ⟨rfl, rfl⟩
      · exact .inl ⟨ho, e, kind', he, hm'⟩
      · obtain ⟨-, rfl⟩ := hm.unique hm'
        exact .inr ⟨ho, rfl, rfl⟩

/-- What an entity adds: nothing, or a memory node of its kind. -/
theorem addObject_eq_ok {state state' : Graph × List (Nat × Nat)} {entry : Pool.Cell × Nat}
    (h : addObject state entry = .ok state') :
    (entry.1.kind.isMemoryObject = true → entry.1.kind.isSentinel = true) ∧ state' = state ∨
      entry.1.kind.isMemoryObject = true ∧ entry.1.kind.isSentinel = false ∧
      ∃ n g', state.1.addMemory (.ofEntity entry.1.kind) entry.1.label entry.1.origin =
          .ok (n, g') ∧
        state' = (g', state.2 ++ [(entry.2, n)]) := by
  unfold addObject at h
  split at h
  · next hnone => exact .inl ⟨Kind.ofEntity?_eq_none.1 hnone, (Except.ok.inj h).symm⟩
  · next kind hsome =>
      obtain ⟨rfl, hmemory, hsentinel⟩ := Kind.ofEntity?_eq_some.1 hsome
      simp only [bind_eq_ok, pure_eq_ok, Prod.exists] at h
      obtain ⟨n, g', hadd, rfl⟩ := h
      exact .inr ⟨hmemory, hsentinel, n, g', hadd, rfl⟩

/-- Going on to the end of the pool. -/
theorem Laid.foldlM (hp : p.Guarded) {cells : List Pool.Cell} {k : Nat}
    {table table' : List (Nat × Nat)}
    (hcells : ∀ {i : Nat} {c : Pool.Cell}, cells[i]? = some c → p.cells[k + i]? = some c)
    (h : Laid p k g table)
    (hok : (cells.zipIdx k).foldlM addObject (g, table) = .ok (g', table')) :
    Laid p (k + cells.length) g' table' := by
  induction cells generalizing k g table with
  | nil =>
      obtain ⟨rfl, rfl⟩ := Prod.mk.inj (pure_eq_ok.1 hok)
      exact h
  | cons c cells ih =>
      rw [List.zipIdx_cons, List.foldlM_cons, bind_eq_ok] at hok
      obtain ⟨⟨g₁, table₁⟩, hstep, hok⟩ := hok
      have hc : p.cells[k]? = some c := by simpa using hcells (i := 0) rfl
      have hm : p.Made k c.kind c.origin := by simp [Pool.Made, hc]
      have hrest : ∀ {i : Nat} {c : Pool.Cell}, cells[i]? = some c →
          p.cells[k + 1 + i]? = some c := by
        intro i c' hc'
        rw [Nat.add_right_comm]
        exact hcells (i := i + 1) (by simpa using hc')
      rw [List.length_cons, show k + (cells.length + 1) = k + 1 + cells.length by omega]
      refine ih hrest ?_ hok
      rcases addObject_eq_ok hstep with ⟨hkind, heq⟩ | ⟨hmemory, hsentinel, n, g₂, hadd, heq⟩
      · obtain ⟨rfl, rfl⟩ := Prod.mk.inj heq
        exact h.skip hp hm hkind
      · obtain ⟨rfl, rfl⟩ := Prod.mk.inj heq
        exact h.addMemory hp hm hmemory hsentinel hadd

theorem laid_of_foldlM {id : Nat} {table : List (Nat × Nat)} (hp : p.Guarded)
    (hok : p.cells.toList.zipIdx.foldlM addObject
      (new id, [(Pool.unknown, unknown), (Pool.external, external)]) = .ok (g, table)) :
    Laid p p.size g table := by
  have hlaid := (laid_new id hp).foldlM hp (fun {i c} hc => by simpa using hc) hok
  simpa [Pool.size] using hlaid

/-! ## Register nodes -/

/-- Add the register node of one value. -/
def addValue (program : Program) (state : Graph × List (Nat × Nat)) (entry : ValueId × Nat) :
    Except Fault (Graph × List (Nat × Nat)) := do
  let named ← program.value entry.1
  let added ← state.1.addRegister entry.1 named.name
  return (added.2, state.2 ++ [(added.1, entry.2)])

theorem addRegisters_eq {program : Program} {registers : List (ValueId × Nat)} :
    addRegisters program g registers = registers.foldlM (addValue program) (g, []) := rfl

theorem addValue_eq_ok {program : Program} {state state' : Graph × List (Nat × Nat)}
    {entry : ValueId × Nat} : addValue program state entry = .ok state' ↔
      ∃ named n g', program.value entry.1 = .ok named ∧
        state.1.addRegister entry.1 named.name = .ok (n, g') ∧
        (g', state.2 ++ [(n, entry.2)]) = state' := by
  simp only [addValue, bind_eq_ok, pure_eq_ok, Prod.exists, exists_and_left]

/-- The register nodes of values have been added after the nodes of `g₀`. -/
structure Listed (g₀ : Graph) (done : List (ValueId × Nat)) (g : Graph)
    (table : List (Nat × Nat)) : Prop where
  size : g.size = g₀.size + done.length
  shows : ∀ {n kind origin}, n < g₀.size → (g.Shows n kind origin ↔ g₀.Shows n kind origin)
  added : ∀ {n}, g₀.size ≤ n → n < g.size → ∃ v, g.Shows n .register (.value v)
  blank : ∀ n, g.targetsOf n = .empty
  memory : g.memory = g₀.memory
  registers : g.registers = (done.zipIdx g₀.size).map fun x => (x.1.1, x.2)
  table : table = (done.zipIdx g₀.size).map fun x => (x.2, x.1.2)

theorem addRegister_eq_ok {v : ValueId} {label : String}
    (h : g.addRegister v label = .ok (n, g')) :
    n = g.size ∧ g' = { g.push .register label (.value v) with
      registers := g.registers ++ [(v, g.size)] } := by
  unfold addRegister at h
  split at h
  · exact absurd h (by simp)
  · obtain ⟨rfl, rfl⟩ := Prod.mk.inj (Except.ok.inj h)
    exact ⟨rfl, rfl⟩

theorem Listed.addRegister {g₀ : Graph} {done : List (ValueId × Nat)}
    {table : List (Nat × Nat)} (h : Listed g₀ done g table) {v : ValueId} {e : Nat}
    {label : String} (hadd : g.addRegister v label = .ok (n, g')) :
    Listed g₀ (done ++ [(v, e)]) g' (table ++ [(n, e)]) := by
  obtain ⟨rfl, rfl⟩ := addRegister_eq_ok hadd
  have hzip :
      (done ++ [(v, e)]).zipIdx g₀.size = done.zipIdx g₀.size ++ [((v, e), g.size)] := by
    rw [List.zipIdx_append, h.size]
    rfl
  constructor
  case size =>
    show (g.push .register label (.value v)).size = _
    rw [size_push, h.size, List.length_append]
    rfl
  case shows =>
    intro n kind origin hn
    refine shows_push.trans ?_
    rw [h.shows hn]
    exact or_iff_left fun hnew => by have := h.size; omega
  case added =>
    intro n hn hlt
    by_cases hnew : n = g.size
    · exact ⟨v, shows_push.2 (.inr ⟨hnew, rfl, rfl⟩)⟩
    · have hlt' : n < g.size + 1 := size_push ▸ hlt
      obtain ⟨w, hw⟩ := h.added hn (by omega)
      exact ⟨w, shows_push.2 (.inl hw)⟩
  case blank => exact blank_push h.blank
  case memory => exact h.memory
  case registers => rw [hzip, List.map_append, ← h.registers]; rfl
  case table => rw [hzip, List.map_append, ← h.table]; rfl

theorem listed_addRegisters {program : Program} {registers : List (ValueId × Nat)}
    {table : List (Nat × Nat)} (hblank : ∀ n, g.targetsOf n = .empty)
    (hnone : g.registers = []) (hok : addRegisters program g registers = .ok (g', table)) :
    Listed g registers g' table := by
  have hstart : Listed g [] g [] :=
    ⟨rfl, fun _ => Iff.rfl, fun h h' => absurd h' (Nat.not_lt.2 h), hblank, rfl, hnone, rfl⟩
  refine foldlM_prefix (I := fun done state => Listed g done state.1 state.2)
    (k := []) ?_ hstart (addRegisters_eq ▸ hok)
  intro done state entry state' hd hstep
  obtain ⟨named, n, g₁, -, hadd, rfl⟩ := addValue_eq_ok.1 hstep
  exact hd.addRegister hadd

section

variable {g₀ : Graph} {done : List (ValueId × Nat)} {table : List (Nat × Nat)}

theorem Listed.register?_iff (h : Listed g₀ done g table) (hnodup : (done.map Prod.fst).Nodup)
    {v : ValueId} {r : Nat} :
    g.register? v = some r ↔ ∃ e, g₀.size ≤ r ∧ done[r - g₀.size]? = some (v, e) := by
  have hmem : ∀ {v r}, (v, r) ∈ g.registers ↔
      ∃ e, g₀.size ≤ r ∧ done[r - g₀.size]? = some (v, e) := by
    intro v r
    rw [h.registers, List.mem_map]
    constructor
    · rintro ⟨⟨⟨v', e⟩, r'⟩, hx, heq⟩
      obtain ⟨rfl, rfl⟩ := Prod.mk.inj heq
      exact ⟨e, List.mk_mem_zipIdx_iff_le_and_getElem?_sub.1 hx⟩
    · rintro ⟨e, hx⟩
      exact ⟨((v, e), r), List.mk_mem_zipIdx_iff_le_and_getElem?_sub.2 hx, rfl⟩
  refine ⟨fun hr => hmem.1 (mem_of_lookup hr), fun hr => lookup_of_mem (hmem.2 hr) ?_⟩
  intro r' hr'
  -- a value stands at one place of the list
  obtain ⟨e, hle, he⟩ := hr
  obtain ⟨e', hle', he'⟩ := hmem.1 hr'
  have hkey := congrArg (Option.map Prod.fst) he
  have hkey' := congrArg (Option.map Prod.fst) he'
  rw [← List.getElem?_map] at hkey hkey'
  obtain ⟨hlt, heq⟩ := List.getElem?_eq_some_iff.1 hkey
  obtain ⟨hlt', heq'⟩ := List.getElem?_eq_some_iff.1 hkey'
  have hplace := hnodup.getElem_inj_iff.1 (heq'.trans heq.symm)
  omega

theorem Listed.mem_table (h : Listed g₀ done g table) {r e : Nat} :
    (r, e) ∈ table ↔ ∃ v, g₀.size ≤ r ∧ done[r - g₀.size]? = some (v, e) := by
  rw [h.table, List.mem_map]
  constructor
  · rintro ⟨⟨⟨v, e'⟩, r'⟩, hx, heq⟩
    obtain ⟨rfl, rfl⟩ := Prod.mk.inj heq
    exact ⟨v, List.mk_mem_zipIdx_iff_le_and_getElem?_sub.1 hx⟩
  · rintro ⟨v, hx⟩
    exact ⟨((v, e), r), List.mk_mem_zipIdx_iff_le_and_getElem?_sub.2 hx, rfl⟩

theorem Listed.lt_size (h : Listed g₀ done g table) {r e : Nat} (hr : (r, e) ∈ table) :
    r < g.size := by
  obtain ⟨v, hge, hv⟩ := h.mem_table.1 hr
  have hlt := (List.getElem?_eq_some_iff.1 hv).1
  have hsize := h.size
  omega

end

/-! ## Edges -/

/-- Two graphs with the same nodes, whatever their edges. -/
structure SameNodes (g g' : Graph) : Prop where
  shows : ∀ {n kind origin}, g'.Shows n kind origin ↔ g.Shows n kind origin
  size : g'.size = g.size
  registers : g'.registers = g.registers
  memory : g'.memory = g.memory

theorem SameNodes.refl (g : Graph) : SameNodes g g := ⟨Iff.rfl, rfl, rfl, rfl⟩

theorem SameNodes.trans {g'' : Graph} (h : SameNodes g g') (h' : SameNodes g' g'') :
    SameNodes g g'' :=
  ⟨h'.shows.trans h.shows, h'.size.trans h.size, h'.registers.trans h.registers,
    h'.memory.trans h.memory⟩

theorem SameNodes.isMemory (h : SameNodes g g') (hm : g.IsMemory m) : g'.IsMemory m := by
  obtain ⟨kind, hkind, hmemory⟩ := hm
  obtain ⟨x, hx, rfl⟩ := Option.map_eq_some_iff.1 hkind
  have hshows : g.Shows m x.kind x.origin := by
    rw [Shows, hx]
    rfl
  exact ⟨x.kind, (h.shows.2 hshows).kindOf?, hmemory⟩

theorem sameNodes_insertEdge (g : Graph) (n m : Nat) : SameNodes g (g.insertEdge n m).2 := by
  unfold insertEdge
  split
  · exact .refl g
  · refine ⟨?_, by simp [size], rfl, rfl⟩
    intro k kind origin
    unfold Shows
    simp only [Array.getElem?_modify]
    split <;> split <;> simp [Option.map_map, Function.comp_def]

theorem mem_targetsOf_insertEdge (hn : n < g.size) {k x : Nat} :
    x ∈ (g.insertEdge n m).2.targetsOf k ↔ x ∈ g.targetsOf k ∨ k = n ∧ x = m := by
  unfold insertEdge
  split
  · next h =>
      refine ⟨.inl, fun h' => h'.elim (fun h => h) ?_⟩
      rintro ⟨rfl, rfl⟩
      exact h
  · obtain ⟨node, hnode⟩ : ∃ node, g.nodes[n]? = some node := ⟨_, Array.getElem?_eq_getElem hn⟩
    unfold targetsOf
    simp only [Array.getElem?_modify]
    by_cases hk : k = n
    · subst hk
      by_cases hm : m = k
      · subst hm
        simp [hnode, or_comm]
      · simp [hnode, hm, or_comm]
    · by_cases hm : m = k
      · subst hm
        simp [hk, Ne.symm hk, Option.map_map, Function.comp_def]
      · simp [hk, Ne.symm hk, hm]

theorem foldl_insertEdge (hn : n < g.size) (targets : List Nat) :
    SameNodes g (targets.foldl (fun g target => (g.insertEdge n target).2) g) ∧
    ∀ {k x}, x ∈ (targets.foldl (fun g target => (g.insertEdge n target).2) g).targetsOf k ↔
      x ∈ g.targetsOf k ∨ k = n ∧ x ∈ targets := by
  induction targets generalizing g with
  | nil => exact ⟨.refl g, by simp⟩
  | cons target targets ih =>
      have hsame := sameNodes_insertEdge g n target
      obtain ⟨hrest, hmem⟩ := ih (hsame.size ▸ hn)
      refine ⟨hsame.trans hrest, ?_⟩
      intro k x
      rw [List.foldl_cons, hmem, mem_targetsOf_insertEdge hn, List.mem_cons]
      tauto

/-- An edge is made from a node to a node that stands for memory. -/
theorem joinNodes_eq_ok : g.joinNodes n m = .ok g' ↔
    g.IsMemory m ∧ n < g.size ∧ (g.insertEdge n m).2 = g' := by
  simp only [joinNodes, node, bind_eq_ok, entryAt_eq_ok]
  constructor
  · rintro ⟨x, hx, h⟩
    split at h
    · exact absurd (bind_eq_ok.1 h).choose_spec.1 throw_ne_ok
    · next hkind =>
        obtain ⟨y, hy, h⟩ := bind_eq_ok.1 h
        obtain rfl := pure_eq_ok.1 h
        refine ⟨⟨x.kind, by rw [kindOf?, hx]; rfl, by simpa using hkind⟩, ?_, rfl⟩
        exact (Array.getElem?_eq_some_iff.1 (entryAt_eq_ok.1 hy)).1
  · rintro ⟨⟨kind, hkind, hmemory⟩, hn, rfl⟩
    obtain ⟨x, hx, rfl⟩ := Option.map_eq_some_iff.1 hkind
    refine ⟨x, hx, ?_⟩
    rw [if_neg (by simp [hmemory])]
    exact bind_eq_ok.2 ⟨g.nodes[n], entryAt_eq_ok.2 (Array.getElem?_eq_getElem hn), rfl⟩

/-- Edges that could be made from a node have been made one after the other. -/
theorem foldl_of_joinNodes {targets : List Nat}
    (h : targets.foldlM (fun g target => g.joinNodes n target) g = .ok g') :
    targets.foldl (fun g target => (g.insertEdge n target).2) g = g' := by
  induction targets generalizing g with
  | nil => exact pure_eq_ok.1 h
  | cons target targets ih =>
      rw [List.foldlM_cons, bind_eq_ok] at h
      obtain ⟨g₁, hjoin, h⟩ := h
      obtain ⟨-, -, rfl⟩ := joinNodes_eq_ok.1 hjoin
      exact ih h

theorem mem_targetNodes {table : List (Nat × Nat)} {objects targets : IndexSet}
    (h : targetNodes table objects = .ok targets) {m : Nat} :
    m ∈ targets ↔ ∃ x ∈ objects, table.lookup x = some m := by
  simp only [targetNodes, bind_eq_ok, pure_eq_ok] at h
  obtain ⟨nodes, hnodes, rfl⟩ := h
  rw [IndexSet.mem_ofList, mem_of_mapM hnodes]
  refine exists_congr fun x => and_congr Iff.rfl ?_
  cases table.lookup x <;> simp

/-- What connecting a node comes to, once it went through. -/
theorem connect_eq_ok {table : List (Nat × Nat)} {source : Nat × Nat}
    (h : connect p table g source = .ok g') : ∃ targets,
      targetNodes table (p.pointsTo source.2) = .ok targets ∧
      targets.toList.foldl (fun g target => (g.insertEdge source.1 target).2) g = g' := by
  simp only [connect, Pool.pointsToOf, bind_eq_ok, pure_eq_ok, Pool.root_handle_eq_ok] at h
  obtain ⟨-, ⟨-, ⟨-, rfl, -⟩, rfl⟩, targets, htargets, h⟩ := h
  exact ⟨targets, htargets, foldl_of_joinNodes h⟩

theorem connect_ok {table : List (Nat × Nat)} {source : Nat × Nat} (hlt : source.1 < g.size)
    (h : connect p table g source = .ok g') :
    SameNodes g g' ∧ ∀ {k m}, m ∈ g'.targetsOf k ↔ m ∈ g.targetsOf k ∨
      k = source.1 ∧ ∃ x ∈ p.pointsTo source.2, table.lookup x = some m := by
  obtain ⟨targets, htargets, rfl⟩ := connect_eq_ok h
  obtain ⟨hsame, hmem⟩ := foldl_insertEdge hlt targets.toList
  refine ⟨hsame, ?_⟩
  intro k m
  rw [hmem, IndexSet.mem_toList, mem_targetNodes htargets]

/-- Connecting nodes, each once. -/
theorem connect_foldlM {table : List (Nat × Nat)} {sources : List (Nat × Nat)}
    (hlt : ∀ s ∈ sources, s.1 < g.size) (hok : sources.foldlM (connect p table) g = .ok g') :
    SameNodes g g' ∧ ∀ {k m}, m ∈ g'.targetsOf k ↔ m ∈ g.targetsOf k ∨
      ∃ e, (k, e) ∈ sources ∧ ∃ x ∈ p.pointsTo e, table.lookup x = some m := by
  induction sources generalizing g with
  | nil =>
      obtain rfl := pure_eq_ok.1 hok
      exact ⟨.refl g, by simp⟩
  | cons s sources ih =>
      rw [List.foldlM_cons, bind_eq_ok] at hok
      obtain ⟨g₁, hstep, hok⟩ := hok
      obtain ⟨hsame, hmem⟩ := connect_ok (hlt s (by simp)) hstep
      obtain ⟨hsame', hmem'⟩ := ih (fun s hs => hsame.size ▸ hlt s (by simp [hs])) hok
      refine ⟨hsame.trans hsame', ?_⟩
      intro k m
      rw [hmem', hmem]
      constructor
      · rintro ((h | ⟨rfl, h⟩) | ⟨e, he, h⟩)
        · exact .inl h
        · exact .inr ⟨s.2, by simp, h⟩
        · exact .inr ⟨e, List.mem_cons_of_mem s he, h⟩
      · rintro (h | ⟨e, he, h⟩)
        · exact .inl (.inl h)
        · rcases List.mem_cons.1 he with rfl | he
          · exact .inl (.inr ⟨rfl, h⟩)
          · exact .inr ⟨e, he, h⟩

/-! ## The graph -/

/-- The node that a table gives an entity. -/
def nodeIn (table : List (Nat × Nat)) (e : Nat) : Nat := (table.lookup e).getD 0

section

variable {table : List (Nat × Nat)} {e : Nat}

theorem Laid.lookup (h : Laid p p.size g table) (he : (e, n) ∈ table) :
    table.lookup e = some n :=
  (lookup_iff (h.keys.imp Nat.ne_of_lt)).2 he

theorem Laid.nodeIn_eq (h : Laid p p.size g table) (he : (e, n) ∈ table) :
    nodeIn table e = n := by
  rw [nodeIn, h.lookup he]
  rfl

theorem Laid.mem_nodeIn (h : Laid p p.size g table) (he : p.IsObject e) :
    (e, nodeIn table e) ∈ table := by
  obtain ⟨n, hn⟩ := h.all he.1 he
  rwa [h.nodeIn_eq hn]

theorem Laid.entity_unique (h : Laid p p.size g table) {e' : Nat} (he : (e, n) ∈ table)
    (he' : (e', n) ∈ table) : e = e' := by
  have hnodup : (table.map Prod.snd).Nodup := h.nodes ▸ List.nodup_range
  exact congrArg Prod.fst (List.inj_on_of_nodup_map hnodup he he' rfl)

/-- The node of an entity is its place in the table. -/
theorem Laid.getElem?_eq (h : Laid p p.size g table) (he : (e, n) ∈ table) :
    (table.map Prod.fst)[n]? = some e := by
  obtain ⟨i, hi⟩ := List.mem_iff_getElem?.1 he
  have hnode : (table.map Prod.snd)[i]? = some n := by rw [List.getElem?_map, hi]; rfl
  rw [h.nodes] at hnode
  obtain ⟨_, rfl⟩ := List.getElem?_eq_some_iff.1 hnode
  rw [List.getElem_range, List.getElem?_map, hi]
  rfl

/-- Nodes come in the order of entities. -/
theorem Laid.node_lt (h : Laid p p.size g table) {e' n' : Nat} (he : (e, n) ∈ table)
    (he' : (e', n') ∈ table) (hlt : e < e') : n < n' := by
  obtain ⟨hn, heq⟩ := List.getElem?_eq_some_iff.1 (h.getElem?_eq he)
  obtain ⟨hn', heq'⟩ := List.getElem?_eq_some_iff.1 (h.getElem?_eq he')
  by_contra hle
  rcases Nat.lt_or_eq_of_le (not_lt.1 hle) with hgt | rfl
  · have := List.pairwise_iff_getElem.1 h.keys n' n hn' hn hgt
    omega
  · omega

theorem Laid.lt_size (h : Laid p p.size g table) (he : (e, n) ∈ table) : n < g.size := by
  have hn : n ∈ table.map Prod.snd := List.mem_map.2 ⟨_, he, rfl⟩
  rwa [h.nodes, List.mem_range] at hn

theorem Laid.exists_entity (h : Laid p p.size g table) (hn : n < g.size) :
    ∃ e, (e, n) ∈ table := by
  rw [← List.mem_range, ← h.nodes] at hn
  obtain ⟨⟨e, _⟩, he, rfl⟩ := List.mem_map.1 hn
  exact ⟨e, he⟩

theorem Laid.isObject (h : Laid p p.size g table) (htwo : 2 ≤ p.size) (he : (e, n) ∈ table) :
    p.IsObject e := by
  have hlt : e < p.size := (h.bound he).elim (fun h => h) fun h => Nat.lt_of_lt_of_le h htwo
  obtain ⟨origin, hm⟩ := Pool.exists_made hlt
  exact ⟨hlt, (h.shows he hm).1⟩

theorem mem_sources (h : Laid p p.size g table) (htwo : 2 ≤ p.size)
    {registers : List (Nat × Nat)} :
    (n, e) ∈ (p.indices.filterMap fun entity => (table.lookup entity).map (·, entity)) ++
    registers ↔
      (e, n) ∈ table ∨ (n, e) ∈ registers := by
  rw [List.mem_append, List.mem_filterMap]
  refine or_congr_left ⟨?_, fun he => ?_⟩
  · rintro ⟨e', -, heq⟩
    obtain ⟨n', hn', heq⟩ := Option.map_eq_some_iff.1 heq
    obtain ⟨rfl, rfl⟩ := Prod.mk.inj heq
    exact mem_of_lookup hn'
  · exact ⟨e, List.mem_range.2 (h.isObject htwo he).1, by rw [h.lookup he]; rfl⟩

/-- What is connected are nodes. -/
theorem Laid.source_lt (h : Laid p p.size g table) (hp : p.Guarded)
    {done : List (ValueId × Nat)} {registers : List (Nat × Nat)}
    (hlisted : Listed g done g' registers) {s : Nat × Nat}
    (hs : s ∈ (p.indices.filterMap fun entity => (table.lookup entity).map (·, entity)) ++
      registers) : s.1 < g'.size := by
  rcases (mem_sources h hp.two_le).1 hs with hs | hs
  · exact Nat.lt_of_lt_of_le (h.lt_size hs) (hlisted.size ▸ Nat.le_add_right _ _)
  · exact hlisted.lt_size hs

end

/-- How a graph is made of a pool: memory nodes, `g₁`, then register nodes, `g₂`, then edges.
The tables give the entities behind the nodes. -/
structure Built (id : Nat) (p : Pool) (program : Program) (g₁ : Graph)
    (table : List (Nat × Nat)) (g₂ : Graph) (registers : List (Nat × Nat)) (g : Graph) :
    Prop where
  objects : p.cells.toList.zipIdx.foldlM addObject
    (new id, [(Pool.unknown, unknown), (Pool.external, external)]) = .ok (g₁, table)
  values : addRegisters program g₁ p.registerTable = .ok (g₂, registers)
  sources : ∀ s ∈ (p.indices.filterMap fun entity => (table.lookup entity).map (·, entity)) ++
    registers, s.1 < g₂.size
  connected : ((p.indices.filterMap fun entity => (table.lookup entity).map (·, entity)) ++
    registers).foldlM (connect p table) g₂ = .ok g
  laid : Laid p p.size g₁ table
  listed : Listed g₁ p.registerTable g₂ registers
  same : SameNodes g₂ g
  edges : ∀ {k m}, m ∈ g.targetsOf k ↔ ∃ e, ((e, k) ∈ table ∨ (k, e) ∈ registers) ∧
    ∃ x ∈ p.pointsTo e, table.lookup x = some m

theorem exists_built {id : Nat} {program : Program} (hp : p.Guarded)
    (hok : ofPool id p program = .ok g) :
    ∃ g₁ table g₂ registers, Built id p program g₁ table g₂ registers g := by
  simp only [ofPool, bind_eq_ok, Prod.exists] at hok
  obtain ⟨g₁, table, hobjects, g₂, registers, hvalues, hok⟩ := hok
  have hlaid := laid_of_foldlM hp hobjects
  have hlisted := listed_addRegisters hlaid.blank hlaid.registers hvalues
  have hsources :
      ∀ s ∈ (p.indices.filterMap fun entity => (table.lookup entity).map (·, entity)) ++
      registers, s.1 < g₂.size := fun s => hlaid.source_lt hp hlisted
  obtain ⟨hsame, hmem⟩ := connect_foldlM hsources hok
  refine ⟨g₁, table, g₂, registers, hobjects, hvalues, hsources, hok, hlaid,
    hlisted, hsame, ?_⟩
  intro k m
  simp only [hmem, hlisted.blank, IndexSet.not_mem_empty, false_or,
    mem_sources hlaid hp.two_le]

namespace Built

variable {id : Nat} {program : Program} {g₁ g₂ : Graph} {table registers : List (Nat × Nat)}
  {e m : Nat}

/-- The register node of a value stands behind the memory nodes, at the value's place in the
register table. -/
theorem register?_iff (h : Built id p program g₁ table g₂ registers g) {v : ValueId} :
    g.register? v = some n ↔
      ∃ e, g₁.size ≤ n ∧ p.registerTable[n - g₁.size]? = some (v, e) := by
  rw [register?, h.same.registers]
  exact h.listed.register?_iff p.nodup_registerTable

theorem memoryNode?_eq (h : Built id p program g₁ table g₂ registers g) (origin : Origin) :
    g.memoryNode? origin = g₁.memory.lookup origin := by
  rw [memoryNode?, h.same.memory, h.listed.memory]

/-- Memory nodes are made before any register node. -/
theorem lt_size_of_memory (h : Built id p program g₁ table g₂ registers g) {kind : Kind}
    (hn : g.kindOf? n = some kind) (hk : kind.isMemoryObject = true) : n < g₁.size := by
  by_contra hge
  obtain ⟨v, hv⟩ := h.listed.added (not_lt.1 hge) (h.same.size ▸ lt_size_of_kindOf? hn)
  have hkind := Option.some_injective _ (hn.symm.trans (h.same.shows.2 hv).kindOf?)
  exact absurd hk (by rw [hkind]; decide)

/-- What a node points to, once its entity is known. -/
theorem mem_targetsOf (h : Built id p program g₁ table g₂ registers g)
    (hpoints : ∀ e, ∀ x ∈ p.pointsTo e, p.IsObject x)
    (honly : ∀ {e'}, (e', n) ∈ table ∨ (n, e') ∈ registers ↔ e' = e) :
    m ∈ g.targetsOf n ↔ ∃ x ∈ p.pointsTo e, nodeIn table x = m := by
  rw [h.edges]
  constructor
  · rintro ⟨e', he', x, hx, hlookup⟩
    obtain rfl := honly.1 he'
    exact ⟨x, hx, by rw [nodeIn, hlookup]; rfl⟩
  · rintro ⟨x, hx, rfl⟩
    exact ⟨e, honly.2 rfl, x, hx, h.laid.lookup (h.laid.mem_nodeIn (hpoints e x hx))⟩

/-- A memory node stands for one entity only. -/
theorem entity_of_node (h : Built id p program g₁ table g₂ registers g) (he : (e, n) ∈ table)
    {e' : Nat} : (e', n) ∈ table ∨ (n, e') ∈ registers ↔ e' = e := by
  constructor
  · rintro (he' | he')
    · exact h.laid.entity_unique he' he
    · obtain ⟨v, hge, -⟩ := h.listed.mem_table.1 he'
      exact absurd (h.laid.lt_size he) (not_lt.2 hge)
  · rintro rfl
    exact .inl he

/-- A register node stands for the entity of its value only. -/
theorem entity_of_place (h : Built id p program g₁ table g₂ registers g) {v : ValueId}
    (hplace : g₁.size ≤ n ∧ p.registerTable[n - g₁.size]? = some (v, e)) {e' : Nat} :
    (e', n) ∈ table ∨ (n, e') ∈ registers ↔ e' = e := by
  rw [h.listed.mem_table]
  constructor
  · rintro (he' | ⟨v', -, he'⟩)
    · exact absurd (h.laid.lt_size he') (not_lt.2 hplace.1)
    · exact (Prod.mk.inj (Option.some_injective _ (he'.symm.trans hplace.2))).2
  · rintro rfl
    exact .inr ⟨v, hplace⟩

end Built

/-- **The graph of a pool depicts it.** -/
theorem depicts_of_ofPool {id : Nat} {program : Program} (hp : p.Guarded)
    (hpoints : ∀ e, ∀ x ∈ p.pointsTo e, p.IsObject x) (hok : ofPool id p program = .ok g) :
    ∃ node, Depicts g p p.family node := by
  have htwo := hp.two_le
  obtain ⟨g₁, table, g₂, registers, hbuilt⟩ := exists_built hp hok
  have hlaid := hbuilt.laid
  refine ⟨nodeIn table, ?_⟩
  constructor
  case unknown => exact hlaid.nodeIn_eq hlaid.unknown
  case external => exact hlaid.nodeIn_eq hlaid.external
  case ascending =>
    intro a b ha hb hlt
    exact hlaid.node_lt (hlaid.mem_nodeIn ha) (hlaid.mem_nodeIn hb) hlt
  case shows =>
    intro o kind origin hm hk
    have ho := hlaid.mem_nodeIn ⟨hm.lt_size, hm.kindOf.symm ▸ hk⟩
    have hshows := (hbuilt.listed.shows (hlaid.lt_size ho)).2 (hlaid.shows ho hm).2
    exact hbuilt.same.shows.2 hshows
  case surjective =>
    intro n kind hn hk
    obtain ⟨e, he⟩ := hlaid.exists_entity (hbuilt.lt_size_of_memory hn hk)
    exact ⟨e, hlaid.isObject htwo he, hlaid.nodeIn_eq he⟩
  case pointed =>
    intro k m hm
    obtain ⟨e, -, x, -, hlookup⟩ := hbuilt.edges.1 hm
    have hx := mem_of_lookup hlookup
    exact ⟨x, hlaid.isObject htwo hx, hlaid.nodeIn_eq hx⟩
  case pointing =>
    intro k m hm
    obtain ⟨e, he, -⟩ := hbuilt.edges.1 hm
    rcases he with he | he
    · exact .inl ⟨e, hlaid.isObject htwo he, hlaid.nodeIn_eq he⟩
    · obtain ⟨v, hv⟩ := hbuilt.listed.mem_table.1 he
      have hvalue : p.register? v = some e :=
        Pool.mem_registerTable.1 (List.mem_of_getElem? hv.2)
      exact .inr ⟨v, e, hvalue, hbuilt.register?_iff.2 ⟨e, hv⟩⟩
  case targets =>
    intro o m ho
    exact hbuilt.mem_targetsOf hpoints (hbuilt.entity_of_node (hlaid.mem_nodeIn ho))
  case register =>
    intro v e hv
    obtain ⟨i, hi⟩ := List.mem_iff_getElem?.1 (Pool.mem_registerTable.2 hv)
    have hplace :
        g₁.size ≤ g₁.size + i ∧ p.registerTable[g₁.size + i - g₁.size]? = some (v, e) :=
      ⟨Nat.le_add_right _ _, by rwa [Nat.add_sub_cancel_left]⟩
    exact ⟨g₁.size + i, hbuilt.register?_iff.2 ⟨e, hplace⟩,
      hbuilt.mem_targetsOf hpoints (hbuilt.entity_of_place hplace)⟩
  case registered =>
    intro v r hr
    obtain ⟨e, -, he⟩ := hbuilt.register?_iff.1 hr
    exact ⟨e, Pool.mem_registerTable.1 (List.mem_of_getElem? he)⟩
  case register_lt =>
    intro v r hr
    obtain ⟨e, hge, he⟩ := hbuilt.register?_iff.1 hr
    have hlt : r - g₁.size < p.registerTable.length := (List.getElem?_eq_some_iff.1 he).1
    rw [hbuilt.same.size, hbuilt.listed.size]
    omega
  case named =>
    intro o kind origin hm hk ho
    have hmo := hlaid.mem_nodeIn ⟨hm.lt_size, hm.kindOf.symm ▸ hk⟩
    rw [hbuilt.memoryNode?_eq, Option.isSome_iff_ne_none]
    intro hnone
    have hunlisted := List.lookup_eq_none_iff.1 hnone _ (hlaid.memory.2 ⟨ho, o, kind, hmo, hm⟩)
    exact absurd hunlisted (by simp)
  case sought =>
    intro origin n hn
    rw [hbuilt.memoryNode?_eq] at hn
    obtain ⟨-, e, kind, he, hm⟩ := hlaid.memory.1 (mem_of_lookup hn)
    exact ⟨e, kind, hm, (hlaid.shows he hm).1, hlaid.nodeIn_eq he⟩

end Graph
end PointerChannels
