import RecordCodec.Proofs.Codec.Decoding
import RecordCodec.Proofs.Program.Alignment

/-!
# Decoding depends on what it consumes

The bytes behind a value have no part in decoding it. Any aligned program keeps its
result when more input follows. A compiled codec moreover decodes a value from just
the bytes it consumed, and from no fewer of them.
-/

namespace RecordCodec

namespace Codec

variable {schema : Schema} {options : Options} {codec : Codec}
variable {data other : Bytes} {value : Value} {consumed : Nat}

/-- The program of a compiled codec is aligned, as any emitted one. -/
theorem aligned_program (h : compile schema options = .ok codec) : codec.program.Aligned := by
  obtain ⟨_, _, hprogram⟩ := compile_eq_ok h
  rw [hprogram]
  exact (wellFormed_shape h).aligned_program schema.name

theorem consumed_le_length (h : compile schema options = .ok codec)
    (hdecode : codec.decode data = .ok ⟨value, consumed⟩) : consumed ≤ data.length := by
  obtain ⟨_, hlast⟩ :=
    (wellFormed_shape h).advances data (Nat.zero_le _) ((decode_eq_ok_iff h).mp hdecode)
  exact hlast

/-- Every input that begins with the bytes consumed is decoded alike. -/
theorem decode_of_shared (h : compile schema options = .ok codec)
    (hdecode : codec.decode data = .ok ⟨value, consumed⟩)
    (hshared : data.take consumed <+: other) :
    codec.decode other = .ok ⟨value, consumed⟩ := by
  have hread := (decode_eq_ok_iff h).mp hdecode
  exact (decode_eq_ok_iff h).mpr
    ((wellFormed_shape h).isLocal data other (Nat.zero_le _) hread hshared)

/-- An input cut short of what was consumed is rejected, since whatever it decoded to
would be decoded from the whole input too. -/
theorem decode_take_of_lt (h : compile schema options = .ok codec)
    (hdecode : codec.decode data = .ok ⟨value, consumed⟩) {k : Nat} (hk : k < consumed) :
    ∃ error, codec.decode (data.take k) = .error error := by
  cases hcut : codec.decode (data.take k) with
  | error error => exact ⟨error, rfl⟩
  | ok decoded =>
    obtain ⟨found, length⟩ := decoded
    have hlength := consumed_le_length h hcut
    have hshared : (data.take k).take length <+: data :=
      (List.take_prefix length _).trans (List.take_prefix k data)
    have hwhole := decode_of_shared h hcut hshared
    rw [hdecode] at hwhole
    injection hwhole with hdecoded
    injection hdecoded with _ hconsumed
    rw [List.length_take] at hlength
    omega

/-- A run of any aligned program survives more input. What a compiled codec consumes
is the shortest input from which it decodes the value. -/
theorem decode_consumed_prefix :
    (∀ (program : Program) (data rest : Bytes) (value : Value) (consumed : Nat),
      program.Aligned → program.run data = .ok ⟨value, consumed⟩ →
        program.run (data ++ rest) = .ok ⟨value, consumed⟩) ∧
      ∀ (schema : Schema) (options : Options) (codec : Codec) (data : Bytes) (value : Value)
        (consumed : Nat), compile schema options = .ok codec →
        codec.decode data = .ok ⟨value, consumed⟩ →
          codec.decode (data.take consumed) = .ok ⟨value, consumed⟩ ∧
          ∀ k < consumed, ∃ error, codec.decode (data.take k) = .error error := by
  constructor
  · intro program data rest value consumed hprogram hrun
    exact hprogram.persists_run data rest hrun
  · intro schema options codec data value consumed h hdecode
    refine ⟨decode_of_shared h hdecode List.prefix_rfl, ?_⟩
    intro k hk
    exact decode_take_of_lt h hdecode hk

/-- A program that reads the second byte of its window, and a compiled codec. -/
theorem run_second_byte :
    (Program.mk "b" .single
        ⟨[.fixedBytes ⟨"b", 0, 0, 8, 8⟩], 2⟩).run [1, 2, 3, 4] =
      .ok ⟨.fixedBytes [2], 2⟩ ∧
    ∃ codec, compile ⟨"items", "bytes1[]", []⟩ {} = .ok codec ∧
      codec.decode [0, 0, 0, 1, 8] = .ok ⟨.array [.fixedBytes [8]], 5⟩ ∧
      ∃ error, codec.decode [0, 0, 0, 1] = .error error := by
  obtain ⟨hlonger, hshorter⟩ := decode_consumed_prefix
  constructor
  · refine hlonger _ [1, 2] [3, 4] _ _ ?_ ?_
    · intro op hmem
      rw [List.mem_singleton.mp hmem]
      exact .fixedBytes ⟨by decide, by decide, by decide⟩
    · rfl
  · let shape : Shape := .array .dynamic (.leaf (.fixedBytes 1))
    have hcodec : compile ⟨"items", "bytes1[]", []⟩ {} =
        .ok ⟨"items", shape, [⟨"Items", [⟨"items", "bytes1[]"⟩]⟩], shape.program "items"⟩ := rfl
    have hdecode := (decode_eq_ok_iff hcodec).mpr (show shape.read? [0, 0, 0, 1, 8, 9] 0 =
      some (.array [.fixedBytes [8]], 5) by cbv)
    obtain ⟨hconsumed, hcut⟩ := hshorter _ _ _ _ _ _ hcodec hdecode
    exact ⟨_, hcodec, hconsumed, hcut 4 (by decide)⟩

end Codec

end RecordCodec
