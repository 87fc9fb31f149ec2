import RecordCodec.Codec
import RecordCodec.Proofs.Program.Shape

/-!
# Decoding is reading the shape

A codec that was compiled decodes by the program of its shape. On every input,
whatever it holds, this succeeds exactly when the shape can be read from the
front, and then with the same value and the same number of bytes.
-/

namespace RecordCodec

namespace Codec

variable {schema : Schema} {options : Options} {codec : Codec}

/-- The parts of a codec by which values are packed and unpacked. -/
theorem compile_eq_ok (h : compile schema options = .ok codec) :
    schema.resolve = .ok codec.shape ∧ codec.name = schema.name ∧
      codec.program = codec.shape.program schema.name := by
  obtain ⟨shape, hshape, h⟩ := Outcome.bind_eq_ok.mp h
  obtain ⟨declarations, _, h⟩ := Outcome.bind_eq_ok.mp h
  cases h
  exact ⟨hshape, rfl, rfl⟩

theorem wellFormed_shape (h : compile schema options = .ok codec) : codec.shape.WellFormed :=
  Schema.resolve_wellFormed (compile_eq_ok h).1

theorem toOption_decode (h : compile schema options = .ok codec) (data : Bytes) :
    (codec.decode data).toOption =
      (codec.shape.read? data 0).map fun (value, consumed) => ⟨value, consumed⟩ := by
  obtain ⟨_, _, hprogram⟩ := compile_eq_ok h
  rw [decode, hprogram]
  exact (wellFormed_shape h).toOption_run schema.name data

variable {data : Bytes} {value : Value} {consumed : Nat}

theorem decode_eq_ok_iff (h : compile schema options = .ok codec) :
    codec.decode data = .ok ⟨value, consumed⟩ ↔
      codec.shape.read? data 0 = some (value, consumed) := by
  rw [← Outcome.toOption_eq_some, toOption_decode h]
  cases codec.shape.read? data 0 <;> simp [Prod.ext_iff]

theorem decode_eq_error_iff (h : compile schema options = .ok codec) :
    (∃ error, codec.decode data = .error error) ↔ codec.shape.read? data 0 = none := by
  rw [← Outcome.toOption_eq_none, toOption_decode h, Option.map_eq_none_iff]

/-- Parsing is decoding that takes the whole input. -/
theorem parse_eq_ok_iff :
    codec.parse data = .ok value ↔ codec.decode data = .ok ⟨value, data.length⟩ := by
  rw [parse, Outcome.bind_eq_ok]
  constructor
  · rintro ⟨⟨found, consumed⟩, hdecode, h⟩
    split at h
    · rename_i hconsumed
      cases h
      rw [← hconsumed]
      exact hdecode
    · cases h
  · intro hdecode
    exact ⟨_, hdecode, by simp⟩

/-- A compiled codec decodes what its schema's shape is read as, and rejects exactly
what cannot be read. No count is refused whose elements are all there. -/
theorem decode_agrees_with_shape (h : compile schema options = .ok codec) (data : Bytes) :
    schema.resolve = .ok codec.shape ∧
      (∀ value consumed, codec.decode data = .ok ⟨value, consumed⟩ ↔
        codec.shape.read? data 0 = some (value, consumed)) ∧
      ((∃ error, codec.decode data = .error error) ↔ codec.shape.read? data 0 = none) := by
  obtain ⟨hshape, _, _⟩ := compile_eq_ok h
  refine ⟨hshape, ?_, decode_eq_error_iff h⟩
  intro value consumed
  exact decode_eq_ok_iff h

/-- A flag and a counted array of byte strings, and the same input cut short. -/
theorem decode_flag_and_items : ∃ codec,
    compile ⟨"r", "tuple", [⟨"flag", "bool", []⟩, ⟨"items", "bytes1[]", []⟩]⟩ {} = .ok codec ∧
      codec.decode [5, 0, 0, 0, 2, 8, 9] =
        .ok ⟨.tuple [.bool true, .array [.fixedBytes [8], .fixedBytes [9]]], 7⟩ ∧
      ∃ error, codec.decode [5, 0, 0, 0, 2, 8] = .error error := by
  let shape : Shape :=
    .tuple [("flag", .leaf (.primitive .bool)), ("items", .array .dynamic (.leaf (.fixedBytes 1)))]
  have hcodec : compile
      ⟨"r", "tuple", [⟨"flag", "bool", []⟩, ⟨"items", "bytes1[]", []⟩]⟩ {} =
        .ok ⟨"r", shape, [⟨"R", [⟨"flag", "bool"⟩, ⟨"items", "bytes1[]"⟩]⟩],
          shape.program "r"⟩ := rfl
  obtain ⟨_, hvalue, _⟩ := decode_agrees_with_shape hcodec [5, 0, 0, 0, 2, 8, 9]
  obtain ⟨_, _, herror⟩ := decode_agrees_with_shape hcodec [5, 0, 0, 0, 2, 8]
  exact ⟨_, hcodec, (hvalue _ _).mpr (by cbv), herror.mpr (by cbv)⟩

end Codec

end RecordCodec
