import RecordCodec.Proofs.Codec.Decoding
import RecordCodec.Proofs.Program.Moves
import RecordCodec.Proofs.Reading.Wire

/-!
# What decoding errors report

When a compiled codec rejects an input, its error reports the first part of the wire
that is not complete: where it starts and how wide it is, what its header counts, or
that its text is not well formed. The moves of the cursor are checked too, but these
checks never stop a run.
-/

namespace RecordCodec

namespace Codec

variable {schema : Schema} {options : Options} {codec : Codec}

/-- The parts of an input account for how it is decoded. -/
theorem accounts_decode (h : compile schema options = .ok codec) (data : Bytes) :
    ∃ outcome, Accounts data outcome (codec.shape.rootWire data) ∧
      codec.decode data = outcome >>= fun (value, consumed) => .ok ⟨value, consumed⟩ := by
  obtain ⟨_, _, hprogram⟩ := compile_eq_ok h
  have hshape := wellFormed_shape h
  have hroot := (hshape.readable_unrollIn 0 schema.name).assign 0
  refine ⟨_, hshape.accounts_readRoot data schema.name, ?_⟩
  rw [decode, hprogram, Shape.program, ← Field.readRoot_assign]
  exact hroot.run_ofRoot schema.name data

/-- No move of a compiled codec's program leaves the input. -/
theorem inside_trace (h : compile schema options = .ok codec) (data : Bytes) :
    (codec.program.trace data).Inside data := by
  obtain ⟨_, _, hprogram⟩ := compile_eq_ok h
  have hroot := ((wellFormed_shape h).readable_unrollIn 0 schema.name).assign 0
  rw [hprogram]
  exact hroot.inside_ofRoot schema.name data

/-- Decoding succeeds if all parts are complete. Else the error reports the first that is
not. Either way no move of the cursor fails. -/
theorem decode_reports_first_fault (h : compile schema options = .ok codec) (data : Bytes) :
    (∀ error, codec.decode data = .error error →
      FirstFault data (codec.shape.rootWire data) error) ∧
    ((∃ decoded, codec.decode data = .ok decoded) ↔
      ∀ part ∈ codec.shape.rootWire data, part.Complete data) ∧
    (codec.program.trace data).outcome = codec.decode data ∧
      ∀ move ∈ (codec.program.trace data).moves, move.Succeeds data := by
  obtain ⟨outcome, haccounts, hdecode⟩ := accounts_decode h data
  refine ⟨?_, ?_, codec.program.outcome_trace data, inside_trace h data⟩
  · intro error herror
    rw [hdecode] at herror
    cases haccounts with
    | ok => cases herror
    | error hfault =>
      cases herror
      exact hfault
  · rw [hdecode]
    cases haccounts with
    | ok _ hparts => exact ⟨fun _ => hparts, fun _ => ⟨_, rfl⟩⟩
    | error hfault =>
      obtain ⟨part, hmem, hpart⟩ := hfault.exists_not_complete
      constructor
      · rintro ⟨decoded, hok⟩
        cases hok
      · intro hparts
        exact absurd (hparts part hmem) hpart

/-- A note and numbers of two bytes each. The text of the note is not well formed, or
the numbers that the second header counts take one byte more than follow. -/
theorem decode_note_and_numbers : ∃ codec,
    compile ⟨"r", "tuple", [⟨"note", "string", []⟩, ⟨"numbers", "uint16[]", []⟩]⟩ {} = .ok codec ∧
      codec.decode [0, 0, 0, 1, 255] = .error (.invalidUtf8 "note") ∧
      codec.shape.rootWire [0, 0, 0, 1, 255] = [.header 0 1, .text 4 1] ∧
      FirstFault [0, 0, 0, 1, 255] (codec.shape.rootWire [0, 0, 0, 1, 255])
        (.invalidUtf8 "note") ∧
      codec.decode [0, 0, 0, 0, 0, 0, 0, 2, 7, 8, 9] = .error (.lengthOverflow "numbers" 2) ∧
      codec.shape.rootWire [0, 0, 0, 0, 0, 0, 0, 2, 7, 8, 9] =
        [.header 0 1, .text 4 0, .header 4 2, .leaf 8 2, .leaf 10 2] ∧
      FirstFault [0, 0, 0, 0, 0, 0, 0, 2, 7, 8, 9]
        (codec.shape.rootWire [0, 0, 0, 0, 0, 0, 0, 2, 7, 8, 9]) (.lengthOverflow "numbers" 2) ∧
      (codec.program.trace [0, 0, 0, 0, 0, 0, 0, 2, 7, 8, 9]).moves =
        [⟨0, 0⟩, ⟨0, 4⟩, ⟨4, 0⟩, ⟨4, 0⟩, ⟨4, 4⟩] ∧
      ∀ move ∈ (codec.program.trace [0, 0, 0, 0, 0, 0, 0, 2, 7, 8, 9]).moves,
        move.Succeeds [0, 0, 0, 0, 0, 0, 0, 2, 7, 8, 9] := by
  have hcodec : compile
      ⟨"r", "tuple", [⟨"note", "string", []⟩, ⟨"numbers", "uint16[]", []⟩]⟩ {} =
        .ok ⟨"r", .tuple [("note", .leaf .string),
            ("numbers", .array .dynamic (.leaf (.primitive (.uint 16))))],
          [⟨"R", [⟨"note", "string"⟩, ⟨"numbers", "uint16[]"⟩]⟩],
          Shape.program (.tuple [("note", .leaf .string),
            ("numbers", .array .dynamic (.leaf (.primitive (.uint 16))))]) "r"⟩ := rfl
  obtain ⟨htext, _⟩ := decode_reports_first_fault hcodec [0, 0, 0, 1, 255]
  obtain ⟨hcount, _, _, hmoves⟩ :=
    decode_reports_first_fault hcodec [0, 0, 0, 0, 0, 0, 0, 2, 7, 8, 9]
  refine ⟨_, hcodec, rfl, ?_, htext _ rfl, rfl, ?_, hcount _ rfl, rfl, hmoves⟩
  · decide +kernel
  · decide +kernel

end Codec

end RecordCodec
