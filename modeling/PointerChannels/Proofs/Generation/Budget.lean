import PointerChannels.Generation
import PointerChannels.Proofs.Pool.Classes

/-!
# Generation within a budget

The budget is looked at only where an entity is made, and nothing is ever unmade.  So
a walk within a budget is the walk without one, step by step, until the first entity
that does not fit; there it stops, and the walk without a budget goes on to more
entities than the budget allows.

`Mirrors` says this of two steps.  It is closed under sequencing, so each part of generation is
a chain of its steps.  Nothing is asked of the program: where the walk without a budget meets a
fault, the one within a budget meets the same fault unless it was stopped before.

## Main definitions

* `Carries.within` — a result of generation, moved to a pool of another capacity.
* `Mirrors` — a step within a budget beside the step without one.

## Main statements

* `Draft.operation_mirrors` — one operation.
* `generate_mirrors` — the whole walk.
-/

namespace PointerChannels.Generation

/-- A result that comes with a pool. -/
class Carries (α : Type) where
  /-- The pool. -/
  pool : α → Pool
  /-- The same result with a pool of another capacity. -/
  within : Option Nat → α → α

instance : Carries Pool := ⟨id, fun capacity p => { p with capacity }⟩

instance : Carries Draft :=
  ⟨Draft.pool, fun capacity d => { d with pool := Carries.within capacity d.pool }⟩

instance {α β : Type} [Carries β] : Carries (α × β) :=
  ⟨fun r => Carries.pool r.2, fun capacity r => (r.1, Carries.within capacity r.2)⟩

open Carries

/-- How many entities there are in the pool of a result. -/
def made {α : Type} [Carries α] (a : α) : Nat := (pool a).size

variable {α β γ : Type} [Carries α] [Carries β] {limit m n : Nat} {x y : Step α}
  {program : Program}

/-- A step without a budget, from a pool of `n` entities, and the same step
with room for `limit`. -/
inductive Mirrors (limit n : Nat) : Step α → Step α → Prop
  /-- Both end alike, within the budget if they began within it. -/
  | ok (a : α) : n ≤ made a → made a ≤ n ∨ made a ≤ limit →
      Mirrors limit n (.ok (within none a)) (.ok (within (some limit) a))
  /-- The first ends with more entities than the second has room for, and
  the second is stopped. -/
  | full (a : α) : n ≤ made a → limit < made a →
      Mirrors limit n (.ok (within none a)) (.error (.error ⟨limit⟩))
  /-- The second is stopped before the first meets a fault. -/
  | stopped (cause : Fault) : Mirrors limit n (.error (.fault cause)) (.error (.error ⟨limit⟩))
  /-- Both meet the same fault. -/
  | fault (cause : Fault) : Mirrors limit n (.error (.fault cause)) (.error (.fault cause))

namespace Mirrors

/-- A step that changes no pool. -/
theorem pure (a : α) (hn : made a = n) :
    Mirrors limit n (.ok (within none a)) (.ok (within (some limit) a)) :=
  .ok a hn.ge (.inl hn.le)

/-- The step began in a pool that a smaller one led to. -/
theorem widen (h : Mirrors limit m x y) (hn : n ≤ m) (hm : m ≤ n ∨ m ≤ limit) :
    Mirrors limit n x y := by
  cases h with
  | ok a hle hroom => exact .ok a (by omega) (by omega)
  | full a hle hlt => exact .full a (by omega) hlt
  | stopped cause => exact .stopped cause
  | fault cause => exact .fault cause

/-- **Sequencing.**  Once the step within the budget is stopped, what follows the other
step only adds entities. -/
theorem bind {f g : α → Step β} (h : Mirrors limit n x y)
    (hfg : ∀ a, Mirrors limit (made a) (f (within none a)) (g (within (some limit) a))) :
    Mirrors limit n (x >>= f) (y >>= g) := by
  cases h with
  | ok a hle hroom => exact (hfg a).widen hle hroom
  | full a hle hlt =>
      have hrest := hfg a
      change Mirrors limit n (f (within none a)) (.error (.error ⟨limit⟩))
      generalize f (within none a) = u, g (within (some limit) a) = v at hrest
      cases hrest with
      | ok b hle' _ => exact .full b (hle.trans hle') (hlt.trans_le hle')
      | full b hle' hlt' => exact .full b (hle.trans hle') hlt'
      | stopped cause => exact .stopped cause
      | fault cause => exact .stopped cause
  | stopped cause => exact .stopped cause
  | fault cause => exact .fault cause

/-- A look-up in the program is the same in both. -/
theorem lift_bind (z : Except Fault γ) {f g : γ → Step β}
    (hfg : ∀ c, Mirrors limit n (f c) (g c)) :
    Mirrors limit n (liftM z >>= f) (liftM z >>= g) := by
  cases z with
  | ok c => exact hfg c
  | error cause => exact .fault cause

/-- Step after step. -/
theorem foldlM {f : Draft → γ → Step Draft}
    (round : ∀ d c, Mirrors limit (made d) (f (within none d) c) (f (within (some limit) d) c))
    (l : List γ) (d : Draft) :
    Mirrors limit (made d) (l.foldlM f (within none d))
      (l.foldlM f (within (some limit) d)) := by
  induction l generalizing d with
  | nil => exact pure d rfl
  | cons c l ih =>
      rw [List.foldlM_cons, List.foldlM_cons]
      exact (round d c).bind ih

end Mirrors

/-! ## Entities and registers -/

/-- **The one place where the budget is looked at.** -/
theorem create_mirrors (p : Pool) (kind : Entity.Kind) (label : String) (origin : Origin) :
    Mirrors limit p.size (budgeted ((within none p).create kind label origin))
      (budgeted ((within (some limit) p).create kind label origin)) := by
  have hmade : made (p.size, p.push kind label origin) = p.size + 1 := by
    simp [made, pool, Pool.size, Pool.push]
  by_cases hfull : limit ≤ p.size
  · have hstop : (within (some limit) p).create kind label origin = .error ⟨limit⟩ :=
      if_pos hfull
    rw [hstop]
    exact .full (p.size, p.push kind label origin) (by omega) (by omega)
  · have hroom : (within (some limit) p).create kind label origin =
        .ok (within (some limit) (p.size, p.push kind label origin)) := if_neg hfull
    rw [hroom]
    exact .ok (p.size, p.push kind label origin) (by omega) (by omega)

theorem createRegister_mirrors (p : Pool) (v : ValueId) (label : String) :
    Mirrors limit p.size ((within none p).createRegister v label)
      ((within (some limit) p).createRegister v label) := by
  have hregister : ∀ capacity, (within capacity p).register? v = p.register? v := fun _ => rfl
  -- a register is an entity that is then noted as that of its value
  have hchain : ∀ q : Pool, (q.register? v).isSome = false → q.createRegister v label =
      (budgeted (q.create .register label (.value v)) >>= fun r =>
        (.ok (r.1, r.2.bindRegister v r.1) : Step (Nat × Pool))) := by
    intro q hq
    rw [Pool.createRegister, hq, if_neg Bool.false_ne_true]
    cases q.create .register label (.value v) <;> rfl
  cases htaken : (p.register? v).isSome with
  | true =>
      rw [Pool.createRegister, Pool.createRegister, hregister, hregister, htaken]
      exact .fault (.registerTaken v)
  | false =>
      rw [hchain _ (by rw [hregister, htaken]), hchain _ (by rw [hregister, htaken])]
      refine (create_mirrors p .register label (.value v)).bind fun r => ?_
      exact .pure (r.1, r.2.bindRegister v r.1) rfl

/-- A change of a pool that makes no entity and is the same whatever the capacity. -/
theorem change_mirrors {f : Pool → Except Fault Pool} (p : Pool)
    (hsame : ∀ capacity, f (within capacity p) = (f p).map (within capacity))
    (hsize : ∀ q, f p = .ok q → q.size = p.size) :
    Mirrors limit p.size (liftM (f (within none p))) (liftM (f (within (some limit) p))) := by
  rw [hsame, hsame]
  cases hok : f p with
  | error cause => exact .fault cause
  | ok q => exact .pure q (hsize q hok)

theorem shareRegister_mirrors (p : Pool) (v : ValueId) (h : Handle) :
    Mirrors limit p.size (liftM ((within none p).shareRegister v h))
      (liftM ((within (some limit) p).shareRegister v h)) := by
  refine change_mirrors (f := (·.shareRegister v h)) p (fun capacity => ?_) fun q hq => ?_
  · have hresolve : (within capacity p).resolve h = p.resolve h := rfl
    have hregister : (within capacity p).register? v = p.register? v := rfl
    simp only [Pool.shareRegister, hresolve, hregister]
    cases p.resolve h with
    | error cause => rfl
    | ok index => cases (p.register? v).isSome <;> rfl
  · rw [(Pool.shareRegister_eq_ok hq).2]
    rfl

theorem setSignature_mirrors (p : Pool) (h : Handle) (signature : Signature) :
    Mirrors limit p.size (liftM ((within none p).setSignature h signature))
      (liftM ((within (some limit) p).setSignature h signature)) := by
  refine change_mirrors (f := (·.setSignature h signature)) p (fun capacity => ?_) fun q hq => ?_
  · have hresolve : (within capacity p).resolve h = p.resolve h := rfl
    have hkind : ∀ index, (within capacity p).kindOf index = p.kindOf index := fun _ => rfl
    simp only [Pool.setSignature, hresolve, hkind]
    cases p.resolve h with
    | error cause => rfl
    | ok index =>
        simp only [bind, Except.bind]
        split <;> rfl
  · rw [Pool.setSignature_eq_ok hq]
    exact Array.size_modify

namespace Draft

variable (d : Draft)

theorem entity_mirrors (kind : Entity.Kind) (label : String) (origin : Origin) :
    Mirrors limit (made d) ((within none d).entity kind label origin)
      ((within (some limit) d).entity kind label origin) := by
  refine (create_mirrors d.pool kind label origin).bind fun r => ?_
  exact .pure (r.2.handle r.1, { d with pool := r.2 }) rfl

theorem register_mirrors (v : ValueId) :
    Mirrors limit (made d) ((within none d).register program v)
      ((within (some limit) d).register program v) := by
  have hregister : ∀ capacity, (within capacity d).pool.register? v = d.pool.register? v :=
    fun _ => rfl
  unfold register
  rw [hregister, hregister]
  cases d.pool.register? v with
  | some index => exact .pure (d.pool.handle index, d) rfl
  | none =>
      refine .lift_bind (program.value v) fun value => ?_
      refine (createRegister_mirrors d.pool v value.name).bind fun r => ?_
      exact .pure (r.2.handle r.1, { d with pool := r.2 }) rfl

/-- A step that needs the register of a value only if the value holds an address. -/
theorem ifPointer_mirrors {v : ValueId} {f g : Handle × Draft → Step β} {s t : Step β}
    (hfg : ∀ r d', Mirrors limit (made d') (f (r, within none d'))
      (g (r, within (some limit) d')))
    (hst : Mirrors limit (made d) s t) :
    Mirrors limit (made d)
      (liftM (isPointer program v) >>= fun pointer =>
        if pointer = true then (within none d).register program v >>= f else s)
      (liftM (isPointer program v) >>= fun pointer =>
        if pointer = true then (within (some limit) d).register program v >>= g else t) := by
  refine .lift_bind (isPointer program v) fun pointer => ?_
  cases pointer with
  | true => exact (register_mirrors d v).bind fun a => hfg a.1 a.2
  | false => exact hst

/-! ## Values -/

theorem pointerRegisters_mirrors (values : List ValueId) (d : Draft) :
    Mirrors limit (made d) ((within none d).pointerRegisters program values)
      ((within (some limit) d).pointerRegisters program values) := by
  induction values generalizing d with
  | nil => exact .pure ([], d) rfl
  | cons v rest ih =>
      refine ifPointer_mirrors d (fun r d' => ?_) ?_
      · exact (ih d').bind fun a => .pure (some r :: a.1, a.2) rfl
      · exact (ih d).bind fun a => .pure (none :: a.1, a.2) rfl

theorem eachPointer_mirrors (constrain : Handle → List Constraint)
    (values : List ValueId) (d : Draft) :
    Mirrors limit (made d) ((within none d).eachPointer program constrain values)
      ((within (some limit) d).eachPointer program constrain values) := by
  induction values generalizing d with
  | nil => exact .pure d rfl
  | cons v rest ih =>
    exact ifPointer_mirrors d (fun r d' => ih (d'.addAll (constrain r))) (ih d)

theorem phiInputs_mirrors (register : Handle) (values : List ValueId) (d : Draft) :
    Mirrors limit (made d) ((within none d).phiInputs program register values)
      ((within (some limit) d).phiInputs program register values) := by
  induction values generalizing d with
  | nil => exact .pure d rfl
  | cons v rest ih =>
      refine ifPointer_mirrors d (fun r d' => ?_) (ih d)
      by_cases hself : r = register
      · simp only [if_pos hself]
        exact ih d'
      · simp only [if_neg hself]
        exact ih (d'.add (.superset register r))

/-! ## Operations -/

theorem allocation_mirrors (op : Operation) (kind : Entity.Kind) (word : String) :
    Mirrors limit (made d) ((within none d).allocation program op kind word)
      ((within (some limit) d).allocation program op kind word) := by
  refine .lift_bind _ fun output => .lift_bind _ fun value => ?_
  refine (entity_mirrors d kind _ (.operation op.id)).bind fun object => ?_
  refine (register_mirrors object.2 output).bind fun register => ?_
  exact .pure (register.2.add (.pointsTo register.1 object.1)) rfl

theorem derived_mirrors (op : Operation) :
    Mirrors limit (made d) ((within none d).derived program op)
      ((within (some limit) d).derived program op) := by
  refine .lift_bind _ fun input => .lift_bind _ fun output => .lift_bind _ fun pointer => ?_
  cases pointer with
  | false => exact .pure d rfl
  | true =>
      refine .lift_bind _ fun pointer' => ?_
      cases pointer' with
      | false =>
          refine (register_mirrors d output).bind fun register => ?_
          exact .pure (register.2.add (.external register.1)) rfl
      | true =>
          refine (register_mirrors d input).bind fun base => ?_
          have hregister : ∀ capacity, (within capacity base).2.pool.register? output =
              base.2.pool.register? output := fun _ => rfl
          dsimp only [Bool.not_true, Bool.false_eq_true, if_false]
          rw [hregister, hregister]
          cases base.2.pool.register? output with
          | some existing =>
              exact .pure (base.2.add (.superset (base.2.pool.handle existing) base.1)) rfl
          | none =>
              refine (shareRegister_mirrors base.2.pool output base.1).bind fun shared => ?_
              exact .pure { base.2 with pool := shared } rfl

/-- **One operation.** -/
theorem operation_mirrors (op : Operation) :
    Mirrors limit (made d) ((within none d).operation program op)
      ((within (some limit) d).operation program op) := by
  unfold operation
  cases op.kind <;> dsimp only
  case alloca => exact allocation_mirrors d op .allocaObject "alloca"
  case malloc => exact allocation_mirrors d op .heapObject "malloc"
  case free =>
    refine .lift_bind _ fun address => (register_mirrors d address).bind fun r => ?_
    exact .pure r.2 rfl
  case load =>
    refine .lift_bind _ fun address => (register_mirrors d address).bind fun a => ?_
    refine .lift_bind _ fun value => ifPointer_mirrors a.2 (fun r d' => ?_) (.pure a.2 rfl)
    exact .pure (d'.add (.load r a.1)) rfl
  case store =>
    refine .lift_bind _ fun address => (register_mirrors d address).bind fun a => ?_
    refine .lift_bind _ fun value => ifPointer_mirrors a.2 (fun r d' => ?_) (.pure a.2 rfl)
    exact .pure (d'.add (.store a.1 r)) rfl
  case memcpy =>
    refine .lift_bind _ fun target => (register_mirrors d target).bind fun t => ?_
    refine .lift_bind _ fun source => (register_mirrors t.2 source).bind fun s => ?_
    refine (create_mirrors s.2.pool .register "dummy" .synthetic).bind fun copied => ?_
    exact .pure ({ s.2 with pool := copied.2 }.addAll
      [.load (copied.2.handle copied.1) s.1, .store t.1 (copied.2.handle copied.1)]) rfl
  case call =>
    refine .lift_bind _ fun callee => (register_mirrors d callee).bind fun c => ?_
    refine (pointerRegisters_mirrors op.arguments c.2).bind fun arguments => ?_
    refine (pointerRegisters_mirrors op.outputs arguments.2).bind fun results => ?_
    exact .pure (results.2.add (.call c.1 ⟨arguments.1, results.1⟩)) rfl
  case elementPointer | bitcast => exact derived_mirrors d op
  case intToPointer =>
    refine .lift_bind _ fun output => (register_mirrors d output).bind fun r => ?_
    exact .pure (r.2.add (.external r.1)) rfl
  case nullPointer | undef =>
    exact .lift_bind _ fun output => eachPointer_mirrors _ [output] d
  case phi =>
    refine .lift_bind _ fun output => ifPointer_mirrors d (fun r d' => ?_) (.pure d rfl)
    exact phiInputs_mirrors r op.inputs d'
  case blackBox =>
    exact (eachPointer_mirrors _ op.inputs d).bind fun d' =>
      eachPointer_mirrors _ op.outputs d'

/-! ## Imports and functions -/

theorem importSymbol_mirrors (symbol : ImportDef) :
    Mirrors limit (made d) ((within none d).importSymbol program symbol)
      ((within (some limit) d).importSymbol program symbol) := by
  refine (entity_mirrors d .importObject _ _).bind fun object => ?_
  refine (register_mirrors object.2 symbol.value).bind fun register => ?_
  exact .pure (register.2.addAll [.pointsTo register.1 object.1, .escapes register.1]) rfl

theorem functionHead_mirrors (f : FunctionDef) :
    Mirrors limit (made d) ((within none d).functionHead program f)
      ((within (some limit) d).functionHead program f) := by
  refine (entity_mirrors d .functionObject _ _).bind fun object => ?_
  refine (register_mirrors object.2 f.address).bind fun address => ?_
  refine (pointerRegisters_mirrors f.params
    (address.2.add (.pointsTo address.1 object.1))).bind fun params => ?_
  exact .pure ((object.1, params.1), params.2) rfl

theorem functionHeads_mirrors (fs : List FunctionDef) (d : Draft) :
    Mirrors limit (made d) ((within none d).functionHeads program fs)
      ((within (some limit) d).functionHeads program fs) := by
  induction fs generalizing d with
  | nil => exact .pure ([], d) rfl
  | cons f fs ih =>
      refine (functionHead_mirrors d f).bind fun head => (ih head.2).bind fun heads => ?_
      exact .pure (head.1 :: heads.1, heads.2) rfl

theorem signature_mirrors (entry : FunctionDef × Handle × List (Option Handle)) :
    Mirrors limit (made d) ((within none d).signature program entry)
      ((within (some limit) d).signature program entry) := by
  refine (pointerRegisters_mirrors entry.1.results d).bind fun results => ?_
  refine (setSignature_mirrors results.2.pool entry.2.1
    ⟨entry.2.2, results.1⟩).bind fun signed => ?_
  exact .pure { results.2 with pool := signed } rfl

end Draft

/-! ## The whole program -/

/-- **The walk within a budget is the walk without one** until it is stopped. -/
theorem generate_mirrors (program : Program) (limit : Nat) :
    Mirrors limit 2 (generate program none) (generate program (some limit)) := by
  refine Mirrors.bind (n := 2)
    (.foldlM (fun d symbol => Draft.importSymbol_mirrors d symbol) _ ⟨Pool.new 0 none, []⟩)
    fun d₁ => ?_
  refine (Draft.functionHeads_mirrors program.functions.toList d₁).bind fun heads => ?_
  refine (Mirrors.foldlM (fun d op => Draft.operation_mirrors d op) _ heads.2).bind fun d₂ => ?_
  refine (Mirrors.foldlM (fun d entry => Draft.signature_mirrors d entry) _ d₂).bind fun d₃ => ?_
  exact Draft.eachPointer_mirrors _ program.exports d₃

/-- A walk that ends without a budget, seen within one. -/
theorem Mirrors.of_ok {d : Draft} {y : Step Draft} (h : Mirrors limit n (.ok d) y) :
    (made d ≤ n ∨ made d ≤ limit) ∧ y = .ok (within (some limit) d) ∨
      limit < made d ∧ y = .error (.error ⟨limit⟩) := by
  generalize hx : (.ok d : Step Draft) = x at h
  cases h with
  | ok a _ hroom =>
      obtain rfl := Except.ok.inj hx
      exact .inl ⟨hroom, rfl⟩
  | full a _ hlt =>
      obtain rfl := Except.ok.inj hx
      exact .inr ⟨hlt, rfl⟩
  | stopped cause => exact absurd hx (by simp)
  | fault cause => exact absurd hx (by simp)

/-- A walk that ends within a budget ends without one. -/
theorem Mirrors.exists_ok {x : Step Draft} {d : Draft} (h : Mirrors limit n x (.ok d)) :
    ∃ d', x = .ok d' := by
  generalize hy : (.ok d : Step Draft) = y at h
  cases h with
  | ok a _ _ => exact ⟨_, rfl⟩
  | full a _ _ => exact ⟨_, rfl⟩
  | stopped cause => exact absurd hy (by simp)
  | fault cause => exact absurd hy (by simp)

end PointerChannels.Generation
