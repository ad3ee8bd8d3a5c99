import PointerChannels.Inclusion
import PointerChannels.Proofs.Pool.Classes
import Mathlib.Order.Bounds.Basic

/-!
# Solutions over a filled pool

A run may begin in a pool whose classes have been merged and point somewhere already.
What such a run ends with includes what the classes pointed to and tells no two members of
a class apart (`Above`).

With difference propagation a run looks only at pointees that are new to their root, so the
loads, stores and calls of an address need not be met for the pointees the address had from the
start.  A family that meets the constraints but for known pointees is a `SolutionBeyond` them.
When no pointee is known it is a solution.

## Main definitions

* `Pool.Ready` — a pool that a run may begin in.
* `Family.Above` — a family that includes what the classes of a pool point to.
* `SolutionBeyond` — a family that meets constraints, but for known pointees of the addresses.
* `Settings.spared`, `Settings.missed` — the known pointees that a run leaves
  out at best and at worst.
-/

namespace PointerChannels

/-- A pool that a run may begin in: it is intact, and signatures name entities of the pool. -/
structure Pool.Ready (p : Pool) : Prop extends Closed p, Intact p

theorem Pool.Fresh.ready {p : Pool} (h : p.Fresh) : p.Ready where
  toClosed := h.toClosed
  forest := h.forest
  objects {i o} ho := absurd (h.stored_eq i ▸ ho) (IndexSet.not_mem_empty o)
  rooted {i o} ho := absurd (h.stored_eq i ▸ ho) (IndexSet.not_mem_empty o)

/-- What is stored at an entity, its class points to. -/
theorem Pool.Intact.mem_pointsTo {p : Pool} (h : p.Intact) {r o : Nat} (ho : o ∈ p.stored r) :
    o ∈ p.pointsTo r := by
  rwa [Pool.pointsTo, rootOf_of_isRoot (h.rooted ho)]

/-- A pointee that a class had in the pool `base`, while the class is what it was. -/
structure Pool.Original (base p : Pool) (r o : Nat) : Prop where
  mem : o ∈ base.pointsTo r
  unmerged : ∀ i, p.rootOf i = r → base.rootOf i = base.rootOf r

namespace Family

/-- A family that includes what the classes of a pool point to and is the
same throughout a class. -/
structure Above (T : Family) (p : Pool) : Prop where
  le : p.family ≤ T
  uniform : ∀ i, T (p.rootOf i) = T i

theorem Above.of_fresh {p : Pool} (h : p.Fresh) (T : Family) : T.Above p where
  le e o ho := by
    rw [Pool.mem_family, Pool.pointsTo, h.stored_eq] at ho
    exact absurd ho (IndexSet.not_mem_empty o)
  uniform i := by rw [h.rootOf_eq]

/-- What is read through an address flows into a value, but for known
pointees of the address. -/
def LoadsBeyond (T : Family) (p : Pool) (known : Family) (value address : Nat) : Prop :=
  ∀ o ∈ T address, o ∉ known address → p.kindOf o ≠ .functionObject → T o ⊆ T value

/-- What a value holds flows into all that an address refers to, but for known pointees of the
address. -/
def StoresBeyond (T : Family) (p : Pool) (known : Family) (address value : Nat) : Prop :=
  ∀ o ∈ T address, o ∉ known address → p.kindOf o ≠ .functionObject → T value ⊆ T o

/-- A family meets a constraint, but for known pointees of the address or
callee it goes through. -/
def MeetsBeyond (T : Family) (p : Pool) (known : Family) : Constraint → Prop
  | .load value address => T.LoadsBeyond p known value.index address.index
  | .store address value => T.StoresBeyond p known address.index value.index
  | .call callee site =>
    ∀ o ∈ T callee.index, o ∉ known callee.index → T.Binds site (p.calleeSignature? o)
  | c => T.Meets p c

/-- A sentinel points to itself, and is loaded from and stored through itself but for known
pointees. -/
structure SentinelBeyond (T : Family) (p : Pool) (known : Family) (sentinel : Nat) : Prop where
  mem : sentinel ∈ T sentinel
  loads : T.LoadsBeyond p known sentinel sentinel
  stores : T.StoresBeyond p known sentinel sentinel

end Family

/-- A family that meets constraints over a pool, but for known pointees. -/
structure SolutionBeyond (p : Pool) (constraints : List Constraint) (known T : Family) :
    Prop where
  unknown : T.SentinelBeyond p known Pool.unknown
  external : T.SentinelBeyond p known Pool.external
  meets : ∀ c ∈ constraints, T.MeetsBeyond p known c
  exposes : ∀ o ∈ T Pool.external, o ∉ known Pool.external → p.kindOf o = .functionObject →
    ∀ signature, p.signature? o = some signature → T.Exposes signature

/-- The address or callee that a constraint goes through. -/
def Constraint.through? : Constraint → Option Nat
  | .load _ address => some address.index
  | .store address _ => some address.index
  | .call callee _ => some callee.index
  | _ => none

/-- An entity that the sentinels or the constraints go through. -/
def Through (constraints : List Constraint) (e : Nat) : Prop :=
  e = Pool.unknown ∨ e = Pool.external ∨ ∃ c ∈ constraints, c.through? = some e

section Mono

variable {p : Pool} {constraints : List Constraint} {known known' T : Family}

theorem Family.SentinelBeyond.mono {o : Nat} (h : known o ⊆ known' o)
    (hT : T.SentinelBeyond p known o) : T.SentinelBeyond p known' o :=
  ⟨hT.mem, fun x hx hnot => hT.loads x hx fun hk => hnot (h hk),
    fun x hx hnot => hT.stores x hx fun hk => hnot (h hk)⟩

/-- The more pointees are known of what the constraints go through, the less has to be met. -/
theorem SolutionBeyond.mono (h : ∀ e, Through constraints e → known e ⊆ known' e)
    (hT : SolutionBeyond p constraints known T) : SolutionBeyond p constraints known' T where
  unknown := hT.unknown.mono (h _ (.inl rfl))
  external := hT.external.mono (h _ (.inr (.inl rfl)))
  meets c hc := by
    have hmeets := hT.meets c hc
    have hknown : ∀ {e o}, c.through? = some e → o ∉ known' e → o ∉ known e := by
      intro e o he hnot hk
      exact hnot (h e (.inr (.inr ⟨c, hc, he⟩)) hk)
    cases c with
    | load value address => exact fun o ho hnot => hmeets o ho (hknown rfl hnot)
    | store address value => exact fun o ho hnot => hmeets o ho (hknown rfl hnot)
    | call callee site => exact fun o ho hnot => hmeets o ho (hknown rfl hnot)
    | _ => exact hmeets
  exposes o ho hnot := hT.exposes o ho fun hk => hnot (h _ (.inr (.inl rfl)) hk)

/-- Beyond no pointees at all, everything is met. -/
theorem solutionBeyond_bot : SolutionBeyond p constraints ⊥ T ↔ Solution p constraints T := by
  have hnot : ∀ a o, o ∉ (⊥ : Family) a := fun _ _ h => h
  have hloads : ∀ {v a}, T.LoadsBeyond p ⊥ v a ↔ T.Loads p v a :=
    fun {_ a} => ⟨fun h o ho => h o ho (hnot a o), fun h o ho _ => h o ho⟩
  have hstores : ∀ {a v}, T.StoresBeyond p ⊥ a v ↔ T.Stores p a v :=
    fun {a _} => ⟨fun h o ho => h o ho (hnot a o), fun h o ho _ => h o ho⟩
  have hmeets : ∀ c, T.MeetsBeyond p ⊥ c ↔ T.Meets p c := by
    intro c
    cases c with
    | load value address => exact hloads
    | store address value => exact hstores
    | call callee site => exact ⟨fun h o ho => h o ho (hnot _ o), fun h o ho _ => h o ho⟩
    | _ => exact Iff.rfl
  constructor
  · intro h
    exact ⟨⟨h.unknown.mem, hloads.1 h.unknown.loads, hstores.1 h.unknown.stores⟩,
      ⟨h.external.mem, hloads.1 h.external.loads, hstores.1 h.external.stores⟩,
      fun c hc => (hmeets c).1 (h.meets c hc), fun o ho => h.exposes o ho (hnot _ o)⟩
  · intro h
    exact ⟨⟨h.unknown.mem, hloads.2 h.unknown.loads, hstores.2 h.unknown.stores⟩,
      ⟨h.external.mem, hloads.2 h.external.loads, hstores.2 h.external.stores⟩,
      fun c hc => (hmeets c).2 (h.meets c hc), fun o ho _ => h.exposes o ho⟩

theorem Solution.beyond (h : Solution p constraints T) (known : Family) :
    SolutionBeyond p constraints known T :=
  (solutionBeyond_bot.2 h).mono fun _ _ _ hk => hk.elim

end Mono

namespace Pool.SameEntities

variable {p q : Pool} {known T : Family}

theorem loadsBeyond_iff (h : SameEntities p q) {v a : Nat} :
    T.LoadsBeyond q known v a ↔ T.LoadsBeyond p known v a := by
  simp only [Family.LoadsBeyond, h.kindOf_eq]

theorem storesBeyond_iff (h : SameEntities p q) {a v : Nat} :
    T.StoresBeyond q known a v ↔ T.StoresBeyond p known a v := by
  simp only [Family.StoresBeyond, h.kindOf_eq]

theorem meetsBeyond (h : SameEntities p q) {c : Constraint} (hc : T.MeetsBeyond p known c) :
    T.MeetsBeyond q known c := by
  cases c with
  | load value address => exact h.loadsBeyond_iff.2 hc
  | store address value => exact h.storesBeyond_iff.2 hc
  | call callee site =>
      intro o ho hnot
      rw [h.calleeSignature?_eq]
      exact hc o ho hnot
  | _ => exact hc

theorem sentinelBeyond (h : SameEntities p q) {o : Nat} (hs : T.SentinelBeyond p known o) :
    T.SentinelBeyond q known o :=
  ⟨hs.mem, h.loadsBeyond_iff.2 hs.loads, h.storesBeyond_iff.2 hs.stores⟩

end Pool.SameEntities

theorem SolutionBeyond.congr {p q : Pool} {constraints : List Constraint} {known T : Family}
    (hT : SolutionBeyond p constraints known T) (h : Pool.SameEntities p q) :
    SolutionBeyond q constraints known T where
  unknown := h.sentinelBeyond hT.unknown
  external := h.sentinelBeyond hT.external
  meets c hc := h.meetsBeyond (hT.meets c hc)
  exposes o ho hnot hk signature hsig :=
    hT.exposes o ho hnot (by rwa [h.kindOf_eq] at hk) signature
      (by rwa [h.signature?_eq] at hsig)

namespace Inclusion

/-- The pointees that a run may end without having looked at: with difference propagation,
those its addresses had from the start. -/
def Settings.missed (settings : Settings) (p : Pool) : Family :=
  fun e => {o | settings.differences = true ∧ o ∈ p.family e}

/-- The pointees that a run is sure not to look at.  Collapsing a cycle makes all
pointees of the survivor new. -/
def Settings.spared (settings : Settings) (p : Pool) : Family :=
  fun e => {o | settings.cycles = false ∧ o ∈ settings.missed p e}

variable {p : Pool} {settings : Settings}

theorem Settings.missed_le : settings.missed p ≤ p.family := fun _ _ h => h.2

theorem Settings.missed_eq_bot (h : settings.differences = false) : settings.missed p = ⊥ := by
  funext e
  ext o
  simp [missed, h]

theorem Settings.spared_eq_family (h : settings.cycles = false)
    (h' : settings.differences = true) : settings.spared p = p.family := by
  funext e
  ext o
  simp [spared, missed, h, h']

end Inclusion
end PointerChannels
