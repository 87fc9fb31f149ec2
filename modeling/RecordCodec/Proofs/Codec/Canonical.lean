import RecordCodec.Proofs.Codec.RoundTrip
import RecordCodec.Proofs.Encoding.Canonical

/-!
# Canonical inputs

Whatever a compiled codec decodes can be encoded again, to the bytes that were
decoded but for the flags among them. Where a schema has no flags, an input is
parsed exactly if it is the encoding of some value.
-/

namespace RecordCodec

namespace Codec

variable {schema : Schema} {options : Options} {codec : Codec}
variable {data : Bytes} {value : Value} {consumed : Nat}

theorem encode_of_decode (h : compile schema options = .ok codec)
    (hdecode : codec.decode data = .ok ⟨value, consumed⟩) :
    ∃ out, codec.encode value = .ok out ∧
      Bytes.Restored data 0 consumed (codec.shape.flagMask value) out := by
  obtain ⟨out, hout, hrestored⟩ :=
    (wellFormed_shape h).reencodes data (Nat.zero_le _) ((decode_eq_ok_iff h).mp hdecode)
  exact ⟨out, hout _, hrestored⟩

theorem encode_of_parse (h : compile schema options = .ok codec) (hflags : codec.shape.FlagFree)
    (hparse : codec.parse data = .ok value) : codec.encode value = .ok data := by
  obtain ⟨out, hout, hrestored⟩ := encode_of_decode h (parse_eq_ok_iff.mp hparse)
  rw [hrestored.eq_take (hflags.unmarked value), List.take_length] at hout
  exact hout

/-- Every decoded value is encoded again to as many bytes, and each of them is the
byte that was decoded, or the canonical one if it holds a flag. Without flags, the
inputs that parse are exactly the encodings. -/
theorem encode_decode (h : compile schema options = .ok codec) (data : Bytes) :
    (∀ value consumed, codec.decode data = .ok ⟨value, consumed⟩ →
      ∃ out, codec.encode value = .ok out ∧ out.length = consumed ∧
        consumed ≤ data.length ∧ (codec.shape.flagMask value).length = consumed ∧
        ∀ i < consumed, out[i]? = data[i]?.map fun byte =>
          if (codec.shape.flagMask value)[i]? = some true then
            if byte = 0 then 0 else 1
          else byte) ∧
      (codec.shape.FlagFree → ∀ value,
        codec.parse data = .ok value ↔ codec.encode value = .ok data) := by
  refine ⟨?_, ?_⟩
  · intro value consumed hdecode
    obtain ⟨out, hout, hrestored⟩ := encode_of_decode h hdecode
    have hmask : (codec.shape.flagMask value).length = consumed := by
      rw [hrestored.next_eq, Nat.zero_add]
    refine ⟨out, hout, ?_, hrestored.le, hmask, ?_⟩
    · rw [hrestored.length_out, hmask]
    · intro i hi
      exact hrestored.getElem? hi
  · intro hflags value
    constructor
    · exact encode_of_parse h hflags
    · exact parse_of_encode h

/-- Flags one of which is not the canonical byte, and byte strings without any. -/
theorem encode_decoded_flags :
    (∃ codec, compile ⟨"flags", "bool[]", []⟩ {} = .ok codec ∧
      codec.decode [0, 0, 0, 2, 5, 0, 9] = .ok ⟨.array [.bool true, .bool false], 6⟩ ∧
      ∃ out, codec.encode (.array [.bool true, .bool false]) = .ok out ∧ out.length = 6 ∧
        out[3]? = some 2 ∧ out[4]? = some 1 ∧ out[5]? = some 0) ∧
    ∃ codec, compile ⟨"items", "bytes1[]", []⟩ {} = .ok codec ∧ codec.shape.FlagFree ∧
      codec.parse [0, 0, 0, 1, 8] = .ok (.array [.fixedBytes [8]]) := by
  constructor
  · let shape : Shape := .array .dynamic (.leaf (.primitive .bool))
    have hcodec : compile ⟨"flags", "bool[]", []⟩ {} =
        .ok ⟨"flags", shape, [⟨"Flags", [⟨"flags", "bool[]"⟩]⟩], shape.program "flags"⟩ := rfl
    have hdecode := (decode_eq_ok_iff hcodec).mpr (show shape.read? [0, 0, 0, 2, 5, 0, 9] 0 =
      some (.array [.bool true, .bool false], 6) by cbv)
    obtain ⟨hdecoded, _⟩ := encode_decode hcodec [0, 0, 0, 2, 5, 0, 9]
    obtain ⟨out, hout, hlength, _, _, hbytes⟩ := hdecoded _ _ hdecode
    exact ⟨_, hcodec, hdecode, out, hout, hlength, (hbytes 3 (by decide)).trans rfl,
      (hbytes 4 (by decide)).trans rfl, (hbytes 5 (by decide)).trans rfl⟩
  · let shape : Shape := .array .dynamic (.leaf (.fixedBytes 1))
    have hcodec : compile ⟨"items", "bytes1[]", []⟩ {} =
        .ok ⟨"items", shape, [⟨"Items", [⟨"items", "bytes1[]"⟩]⟩], shape.program "items"⟩ := rfl
    have hflags : shape.FlagFree := .array (.leaf (by simp))
    obtain ⟨_, hexact⟩ := encode_decode hcodec [0, 0, 0, 1, 8]
    exact ⟨_, hcodec, hflags, (hexact hflags _).mpr rfl⟩

end Codec

end RecordCodec
