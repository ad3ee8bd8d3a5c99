import PointerChannels.Proofs.Encoding.Callback
import PointerChannels.Proofs.Program.Shape

/-!
# Encodings are complete

An encoding takes all its channels from the policy, and leaves no memory operation without one.
So once it is done every memory operation has a channel, all channels lie below the count, and
nothing else was touched.

## Main definitions

* `Complete` — an encoding of all of a program.

## Main statements

* `encode_complete` — encodings are complete.
-/

namespace PointerChannels.Encoding

variable {v : View} {program : Program}

/-- All of a program has been encoded: every memory operation has channels, which lie
below the count, no other operation has any, and as many operations are reported as there
are memory operations. -/
structure Complete (program : Program) (stats : Stats) (encoded : Program) : Prop where
  operations_eq : stats.operations = program.numMemoryOperations
  memory : ∀ op ∈ program.operations, op.kind.touchesMemory = true → ∃ uses defs,
    encoded.HasState op (.encoded uses defs) ∧ (∃ x, x ∈ uses.union defs) ∧
      ∀ x ∈ uses.union defs, x < stats.channelCount
  other : ∀ op ∈ program.operations, op.kind.touchesMemory = false → encoded.HasState op .none

/-- **Encodings are complete.** -/
theorem encode_complete {kind : Channel.PolicyKind} {limit : Nat} (hp : program.Coherent)
    (hshaped : program.Shaped) (hv : v.Ready program)
    (hpolicy : Channel.Policy.create kind v.graph limit = .ok v.policy) :
    ∃ stats encoded, encode v.policy v.graph program = .ok (stats, encoded) ∧
      Complete program stats encoded := by
  obtain ⟨stats, encoded, hencode, hstates⟩ := encode_states hp hv
  obtain ⟨d, rounds, summaries, live, hparts, rfl⟩ := encode_eq_ok_iff.1 hencode
  refine ⟨_, encoded, hencode, hparts.length_eq, fun op hop hmemory => ?_,
    fun op hop hmemory => ?_⟩
  · obtain ⟨_, _, hencode', hall⟩ := encode_ok hp hv
    obtain ⟨-, rfl⟩ := Prod.mk.inj (Except.ok.inj (hencode.symm.trans hencode'))
    obtain ⟨uses, defs, hstate, hmem, -⟩ := hall op hop hmemory
    refine ⟨uses, defs, hstate, ?_, fun x hx => ?_⟩
    · by_cases hmute : program.Mute v.graph op
      · obtain ⟨unknown, hunknown⟩ := hv.channel hv.serves.unknown
        exact ⟨unknown, (hmem unknown).2 (.inr ⟨hmute, hunknown⟩)⟩
      · obtain ⟨x, hx⟩ := (hv.exists_depends_iff hop hmemory).2 hmute
        exact ⟨x, (hmem x).2 (.inl hx)⟩
    · obtain ⟨n, hn⟩ : ∃ n, v.policy.channelOf n = .ok x := by
        rcases (hmem x).1 hx with hdepends | ⟨-, hunknown⟩
        · obtain ⟨n, -, hn⟩ := (hv.depends_iff hop).1 hdepends
          exact ⟨n, hn⟩
        · exact ⟨Graph.unknown, hunknown⟩
      exact Channel.Policy.channelOf_lt hpolicy hn
  · have hstate := hstates.other op hop hmemory
    rwa [(hshaped op hop).state_eq, hmemory] at hstate

end PointerChannels.Encoding
