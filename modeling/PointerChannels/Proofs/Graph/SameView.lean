import PointerChannels.Proofs.Graph.Total
import Mathlib.Data.List.Sort

/-!
# What a graph sees of a pool

The graph sees of a pool its entities, its registers and what each entity points to.  It does
not see which entities share a class, nor in which order the registers were made.

## Main definitions

* `Pool.SameView` — two pools look the same.

## Main statements

* `Graph.ofPool_congr` — pools that look the same have the same graph.
-/

namespace PointerChannels

namespace Pool

variable {p q : Pool}

/-- What an entity is, apart from its class and its signature. -/
def Cell.head (c : Cell) : Entity.Kind × String × Origin := (c.kind, c.label, c.origin)

/-- What an entity is, if it exists. -/
def headOf? (p : Pool) (e : Nat) : Option (Entity.Kind × String × Origin) :=
  p.cells[e]?.map Cell.head

/-- Two pools look the same: they have the same entities, which are the registers of the same
values and point to the same objects. -/
structure SameView (p q : Pool) : Prop where
  head : ∀ e, q.headOf? e = p.headOf? e
  register : ∀ v, q.register? v = p.register? v
  points : ∀ e x, x ∈ q.pointsTo e ↔ x ∈ p.pointsTo e

theorem heads_congr (h : ∀ e, q.headOf? e = p.headOf? e) :
    q.cells.toList.map Cell.head = p.cells.toList.map Cell.head := by
  refine List.ext_getElem? fun e => ?_
  have he := h e
  simpa [headOf?] using he

theorem SameEntities.headOf?_eq (h : SameEntities p q) (e : Nat) :
    q.headOf? e = p.headOf? e := by
  have hview : ∀ s : Pool, s.headOf? e =
      (s.cells[e]?.map Cell.face).map fun x => (x.1, x.2.1, x.2.2.1) := by
    intro s
    rw [Option.map_map]
    rfl
  rw [hview, hview, h.face_eq]

/-- Entities that point to the same objects look the same, whatever their classes. -/
theorem SameEntities.sameView (h : SameEntities p q) (hpoints : q.family = p.family) :
    p.SameView q where
  head := h.headOf?_eq
  register _ := h.register?_eq
  points e x := by rw [← mem_family, hpoints, mem_family]

/-- The table does not tell in which order the registers were made. -/
theorem registerTable_congr (h : ∀ v, q.register? v = p.register? v) :
    q.registerTable = p.registerTable := by
  have hsame : ∀ x, x ∈ q.registerTable ↔ x ∈ p.registerTable := by
    intro x
    rw [mem_registerTable, mem_registerTable, h]
  have hnodup : ∀ s : Pool, s.registerTable.Nodup :=
    fun s => List.Nodup.of_map _ s.nodup_registerTable
  have hperm := (List.perm_ext_iff_of_nodup (hnodup q) (hnodup p)).2 hsame
  exact hperm.eq_of_pairwise (fun a b _ _ hab hba => absurd hab (Nat.lt_asymm hba))
    q.pairwise_registerTable p.pairwise_registerTable

end Pool

namespace Graph

variable {p q : Pool} {program : Program}

/-- Entities that look the same get the same memory nodes. -/
theorem objects_congr (h : ∀ e, q.headOf? e = p.headOf? e) (state : Graph × List (Nat × Nat)) :
    q.cells.toList.zipIdx.foldlM addObject state =
      p.cells.toList.zipIdx.foldlM addObject state := by
  -- the step reads the head of a cell only
  have hread : ∀ cells : List Pool.Cell, cells.zipIdx.foldlM addObject state =
      (cells.map Pool.Cell.head).zipIdx.foldlM
        (fun s x => addObject s (.fresh x.1.1 x.1.2.1 x.1.2.2 0, x.2)) state := by
    intro cells
    rw [List.zipIdx_map, List.foldlM_map]
    rfl
  rw [hread, hread, Pool.heads_congr h]

/-- **A graph is made of what it sees of the pool.** -/
theorem ofPool_congr (id : Nat) (hguarded : p.Guarded) (hp : p.Legible) (hq : q.Legible)
    (h : p.SameView q) : ofPool id q program = ofPool id p program := by
  have hsize : q.size = p.size := by
    have hlength := congrArg List.length (Pool.heads_congr h.head)
    simpa [Pool.size] using hlength
  have hconnect : ∀ {table g source}, source.2 < p.size →
      connect q table g source = connect p table g source := by
    intro table g source hsource
    have hpoints : q.pointsTo source.2 = p.pointsTo source.2 :=
      IndexSet.ext_mem (h.points source.2)
    rw [connect_eq hq.forest (hsize ▸ hsource), connect_eq hp.forest hsource, hpoints]
  simp only [ofPool, objects_congr h.head, Pool.registerTable_congr h.register,
    Pool.indices, hsize]
  refine bind_congr_ok fun laid hlaid => bind_congr_ok fun listed hlisted => ?_
  have hlaid := laid_of_foldlM hguarded hlaid
  have hlisted := listed_addRegisters hlaid.blank hlaid.registers hlisted
  exact foldlM_congr
    (fun g source hsource => hconnect (entity_lt hguarded hp hlaid hlisted hsource)) _

end Graph
end PointerChannels
