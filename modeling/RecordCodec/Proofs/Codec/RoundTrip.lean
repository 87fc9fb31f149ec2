import RecordCodec.Proofs.Codec.Decoding
import RecordCodec.Proofs.Encoding.ReadBack

/-!
# Round trips

A compiled codec decodes what it encoded, from exactly the bytes it made and
whatever follows them. So no encoding is another one cut short, and a value has
only one.
-/

namespace RecordCodec

namespace Codec

variable {schema : Schema} {options : Options} {codec : Codec} {value : Value} {bytes : Bytes}

theorem decode_of_encode (h : compile schema options = .ok codec)
    (hencode : codec.encode value = .ok bytes) (rest : Bytes) :
    codec.decode (bytes ++ rest) = .ok ⟨value, bytes.length⟩ := by
  have hdata : (bytes ++ rest).HoldsAt bytes 0 := ⟨[], rest, rfl, rfl⟩
  have hread := (wellFormed_shape h).read?_encode hencode hdata
  rw [Nat.zero_add] at hread
  exact (decode_eq_ok_iff h).mpr hread

theorem parse_of_encode (h : compile schema options = .ok codec)
    (hencode : codec.encode value = .ok bytes) : codec.parse bytes = .ok value := by
  have hdecode := decode_of_encode h hencode []
  rw [List.append_nil] at hdecode
  exact parse_eq_ok_iff.mpr hdecode

/-- Encodings that start alike are of the same value, because both are decoded from
the longer one. -/
theorem eq_of_encode_prefix (h : compile schema options = .ok codec) {other : Value}
    {longer : Bytes} (hencode : codec.encode value = .ok bytes)
    (hother : codec.encode other = .ok longer) (hshared : bytes <+: longer) :
    value = other ∧ bytes = longer := by
  obtain ⟨rest, rfl⟩ := hshared
  have hfirst := decode_of_encode h hencode rest
  have hsecond := decode_of_encode h hother []
  rw [List.append_nil, hfirst] at hsecond
  injection hsecond with hdecoded
  injection hdecoded with hvalue _
  subst hvalue
  rw [hencode] at hother
  injection hother with hbytes
  exact ⟨rfl, hbytes⟩

/-- What was encoded is decoded in any context, byte for byte, and encodings form a
prefix-free code. -/
theorem decode_encode_append (h : compile schema options = .ok codec) :
    (∀ value bytes, codec.encode value = .ok bytes →
      (∀ rest, codec.decode (bytes ++ rest) = .ok ⟨value, bytes.length⟩) ∧
        codec.parse bytes = .ok value) ∧
      ∀ value other bytes longer, codec.encode value = .ok bytes →
        codec.encode other = .ok longer → bytes <+: longer → value = other ∧ bytes = longer := by
  refine ⟨?_, ?_⟩
  · intro value bytes hencode
    exact ⟨decode_of_encode h hencode, parse_of_encode h hencode⟩
  · intro value other bytes longer hencode hother hshared
    exact eq_of_encode_prefix h hencode hother hshared

/-- Two flags behind their count, with another byte after them. -/
theorem decode_two_flags : ∃ codec, compile ⟨"flags", "bool[]", []⟩ {} = .ok codec ∧
    codec.encode (.array [.bool true, .bool false]) = .ok [0, 0, 0, 2, 1, 0] ∧
    codec.decode [0, 0, 0, 2, 1, 0, 9] = .ok ⟨.array [.bool true, .bool false], 6⟩ ∧
    codec.parse [0, 0, 0, 2, 1, 0] = .ok (.array [.bool true, .bool false]) ∧
    ∀ other, codec.encode other = .ok [0, 0, 0, 2, 1, 0] →
      other = .array [.bool true, .bool false] := by
  let shape : Shape := .array .dynamic (.leaf (.primitive .bool))
  have hcodec : compile ⟨"flags", "bool[]", []⟩ {} =
      .ok ⟨"flags", shape, [⟨"Flags", [⟨"flags", "bool[]"⟩]⟩], shape.program "flags"⟩ := rfl
  have hencode : shape.encode (.ofName "flags") (.array [.bool true, .bool false]) =
      .ok [0, 0, 0, 2, 1, 0] := rfl
  obtain ⟨hround, hshared⟩ := decode_encode_append hcodec
  obtain ⟨hdecode, hparse⟩ := hround _ _ hencode
  refine ⟨_, hcodec, hencode, hdecode [9], hparse, ?_⟩
  intro other hother
  exact (hshared _ _ _ _ hother hencode List.prefix_rfl).1

end Codec

end RecordCodec
