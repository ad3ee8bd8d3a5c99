import PointerChannels.Proofs.Encoding.States

/-!
# Calls and the channels of what they lead to

An encoding gives every memory operation the channels that it depends on.  So a call has all
channels of the operations it leads to, except that the channel of unknown memory, which stands
in for a mute call deep below, is not carried up to it.

## Main statements

* `encode_ok` — which channels an encoding gives to an operation.
* `encode_covers_reached` — when a call has the channels of an operation that it leads to.
-/

namespace PointerChannels.Encoding

variable {v : View} {program : Program} {op : Operation} {x : Channel}

/-- **The states of an encoding.**  Every memory operation uses or defines exactly the
channels that it depends on; a mute call has the channel of unknown memory instead.  A call
uses all that it defines. -/
theorem encode_ok (hp : program.Coherent) (hv : v.Ready program) :
    ∃ stats encoded, encode v.policy v.graph program = .ok (stats, encoded) ∧
      ∀ op ∈ program.operations, op.kind.touchesMemory = true →
        ∃ uses defs, encoded.HasState op (.encoded uses defs) ∧
          (∀ x, x ∈ uses.union defs ↔ v.Depends program op x ∨
            program.Mute v.graph op ∧ v.policy.channelOf Graph.unknown = .ok x) ∧
          (op.kind = .call → uses = defs) := by
  obtain ⟨stats, encoded, hencode, hstates⟩ := encode_states hp hv
  refine ⟨stats, encoded, hencode, fun op hop hmemory => ?_⟩
  by_cases hcall : op.kind = .call
  · obtain ⟨live, hstate, hlive⟩ := hstates.call op hop hcall
    refine ⟨live, live, hstate, fun x => ?_, fun _ => rfl⟩
    rw [IndexSet.mem_union, or_self, hlive]
  · obtain ⟨a, hok, hstate⟩ := hstates.access op hop hmemory hcall
    refine ⟨a.uses, a.defs, hstate, fun x => ?_, fun h => absurd h hcall⟩
    rw [← View.touches_access hmemory hcall hok, View.Depends]
    constructor
    · exact fun hx => .inl (.inl hx)
    · rintro ((hx | ⟨f, hf, -⟩) | ⟨hmute, -⟩)
      · exact hx
      · exact absurd hf.kind_eq hcall
      · exact absurd hmute.idle.kind_eq hcall

/-! ## Calls cover what they lead to -/

/-- **What a call covers.**  After encoding, a call uses and defines every channel of every
memory operation in the functions it leads to, with one exception: an operation that is a mute
call has the channel of unknown memory, and the call has that channel only if it is mute too or
depends on it for another reason. -/
theorem encode_covers_reached {commands : List Command} {config : Config.Analysis}
    {order : Inclusion.SetOrder} {result : Analysis.Result}
    {kind : Channel.PolicyKind} {limit : Nat} {policy : Channel.Policy}
    (hbuild : Program.build? commands = .ok program)
    (hok : Analysis.analyze config program order = .ok result)
    (hpolicy : Channel.Policy.create kind result.graph limit = .ok policy) :
    ∃ stats encoded unknown, encode policy result.graph program = .ok (stats, encoded) ∧
      policy.channelOf Graph.unknown = .ok unknown ∧
      ∀ c ∈ program.operations, ∀ f, program.Reaches result.graph c f →
      ∀ m ∈ f.body.toList, m.kind.touchesMemory = true →
        ∃ uses defs uses' defs', encoded.HasState c (.encoded uses defs) ∧
          encoded.HasState m (.encoded uses' defs') ∧
          ((∀ x, x ∈ uses'.union defs' → x ∈ uses ∧ x ∈ defs) ↔
            (program.Mute result.graph m → program.Mute result.graph c ∨
              (View.mk result.graph policy).Depends program c unknown)) ∧
          (program.Mute result.graph m → uses'.union defs' = .singleton unknown) := by
  have hp := Program.coherent_of_build? hbuild
  have hv := ready_of_analyze hp hok hpolicy
  obtain ⟨unknown, hunknown⟩ := hv.channel hv.serves.unknown
  obtain ⟨stats, encoded, hencode, hstates⟩ := encode_ok hp hv
  have hchannel : ∀ {x}, policy.channelOf Graph.unknown = .ok x ↔ x = unknown := by
    intro x
    rw [show policy.channelOf Graph.unknown = .ok unknown from hunknown,
      Except.ok.injEq, eq_comm]
  refine ⟨stats, encoded, unknown, hencode, hunknown, fun c hc f hf m hm hmemory => ?_⟩
  have hm' : m ∈ program.operations := List.mem_flatMap.2 ⟨f, hf.mem_functions, hm⟩
  obtain ⟨uses, defs, hstate, hmem, heq⟩ := hstates c hc (by rw [hf.kind_eq]; rfl)
  obtain ⟨uses', defs', hstate', hmem', -⟩ := hstates m hm' hmemory
  obtain rfl := heq hf.kind_eq
  simp only [IndexSet.mem_union, or_self, hchannel] at hmem
  simp only [hchannel] at hmem'
  refine ⟨uses, uses, uses', defs', hstate, hstate', ⟨?_, ?_⟩, ?_⟩
  · intro hcovers hmute
    have hx := (hcovers unknown ((hmem' unknown).2 (.inr ⟨hmute, rfl⟩))).1
    exact ((hmem unknown).1 hx).symm.imp_left And.left
  · intro hmute x hx
    have hx : x ∈ uses := by
      rw [hmem]
      rcases (hmem' x).1 hx with hdepends | ⟨hquiet, rfl⟩
      · exact .inl (hdepends.of_reaches hf hm)
      · exact (hmute hquiet).symm.imp_right fun h => ⟨h, rfl⟩
    exact ⟨hx, hx⟩
  · intro hmute
    refine IndexSet.ext_mem fun x => ?_
    have hnone : ¬ ∃ y, View.Depends ⟨result.graph, policy⟩ program m y := by
      rw [hv.exists_depends_iff hm' hmemory]
      exact not_not.2 hmute
    rw [hmem', IndexSet.mem_singleton]
    exact ⟨fun h => (h.resolve_left fun hx => hnone ⟨x, hx⟩).2, fun h => .inr ⟨hmute, h⟩⟩

/-- A function that only calls an empty one, and a call of it that passes
the address of a slot. -/
def muteCommands : List Command :=
  [.declareFunction "empty" [], .declareFunction "relay" [.pointer],
    .declareFunction "main" [], .call 1 0 [] [], .alloca 2 "slot", .call 2 1 [4] []]

/-- The call in the relay is mute and has the channel of unknown memory, which the
call of the relay lacks. -/
theorem encode_covers_reached_muteCommands : ∃ program result policy stats encoded,
    Program.build? muteCommands = .ok program ∧
    Analysis.analyze .default program = .ok result ∧
    Channel.Policy.create .perObject result.graph 0 = .ok policy ∧
    encode policy result.graph program = .ok (stats, encoded) ∧
    ∃ c ∈ program.operations, ∃ f, program.Reaches result.graph c f ∧ ∃ m ∈ f.body.toList,
      program.Mute result.graph m ∧ ¬ program.Mute result.graph c ∧
      encoded.HasState c (.encoded (.singleton 0) (.singleton 0)) ∧
      encoded.HasState m (.encoded (.singleton 4) (.singleton 4)) := by
  have hrun : (do
      let program ← (Program.build? muteCommands).toOption
      let result ← (Analysis.analyze .default program).toOption
      let policy ← (Channel.Policy.create .perObject result.graph 0).toOption
      let run ← (encode policy result.graph program).toOption
      return decide (∃ c ∈ program.operations, ∃ f ∈ program.functions.toList,
        result.graph.Calls c f ∧ ∃ m ∈ f.body.toList, m.kind.touchesMemory = true ∧
          run.2.HasState c (.encoded (.singleton 0) (.singleton 0)) ∧
          run.2.HasState m (.encoded (.singleton 4) (.singleton 4)))) =
            some true := by decide +kernel
  simp only [Option.bind_eq_bind, Option.bind_eq_some_iff, toOption_eq_some, Option.pure_def,
    Option.some.injEq, decide_eq_true_eq, Prod.exists] at hrun
  obtain ⟨program, hbuild, result, hok, policy, hpolicy, stats, encoded, hencode, c, hc, f, hf,
    hcalls, m, hm, hmemory, hstate, hstate'⟩ := hrun
  obtain ⟨_, _, unknown, hencode', -, hcovers⟩ := encode_covers_reached hbuild hok hpolicy
  obtain ⟨-, rfl⟩ := Prod.mk.inj (Except.ok.inj (hencode.symm.trans hencode'))
  obtain ⟨uses, defs, uses', defs', hs, hs', hiff, -⟩ :=
    hcovers c hc f (.call hf hcalls) m hm hmemory
  obtain ⟨rfl, rfl⟩ := MemoryState.encoded.inj (hstate.unique hs)
  obtain ⟨rfl, rfl⟩ := MemoryState.encoded.inj (hstate'.unique hs')
  have hmisses : ¬ (program.Mute result.graph m → program.Mute result.graph c ∨
      (View.mk result.graph policy).Depends program c unknown) := by
    rw [← hiff]
    intro hall
    exact absurd (hall 4 (by decide)).1 (by decide)
  rw [Classical.not_imp, not_or] at hmisses
  exact ⟨program, result, policy, stats, encoded, hbuild, hok, hpolicy, hencode, c, hc, f,
    .call hf hcalls, m, hm, hmisses.1, hmisses.2.1, hstate, hstate'⟩

end PointerChannels.Encoding
