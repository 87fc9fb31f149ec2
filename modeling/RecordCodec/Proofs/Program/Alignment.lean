import RecordCodec.Proofs.Program.Emission
import RecordCodec.Proofs.Program.Locality

/-!
# Compiled programs are aligned

Fields of a width take whole bytes of windows that start at whole bytes, so every
read of a compiled program is of whole bytes and lies inside its word. What is
known of aligned programs therefore holds of compiled ones at every depth.
-/

namespace RecordCodec

namespace Field

theorem aligned_elementRead? {element : Field} {read : ElementRead} (hplaced : element.Placed)
    (hread : element.elementRead? = some read) : (Payload.elements read).Aligned := by
  obtain ⟨name, kind, extraLevels, shift, components⟩ := element
  rcases elementRead?_eq_some hread with ⟨type, hkind, rfl⟩ | ⟨size, hkind, rfl⟩
  · cases hkind
    obtain ⟨⟨_, hbits, hle⟩, _⟩ := hplaced
    refine ⟨⟨?_, hbits, ?_⟩, trivial⟩
    · exact Nat.dvd_sub (by decide) hbits
    · exact Nat.le_of_eq (Nat.sub_add_cancel hle)
  · cases hkind
    obtain ⟨_, hle⟩ := hplaced
    refine ⟨⟨Nat.dvd_zero 8, Nat.dvd_mul_right 8 size, ?_⟩, hle⟩
    change 0 + 8 * size ≤ 256
    omega

end Field

namespace Op

mutual

theorem AllEmitted.aligned : (op : Op) → op.AllEmitted → op.Aligned
  | primitive type read, h => by
    cases h _ (List.mem_singleton_self _) with
    | @primitive _ name slot window htype hwindow hfit =>
      obtain ⟨_, hbits, _⟩ := htype
      refine .primitive ⟨?_, hbits, ?_⟩
      · exact Nat.dvd_sub (Nat.dvd_sub (by decide) hwindow.whole) hbits
      · change 256 - window.taken - type.bitSize + type.bitSize ≤ 256
        omega
  | fixedBytes read, h => by
    cases h _ (List.mem_singleton_self _) with
    | @fixedBytes size name slot window _ hwindow hfit =>
      exact .fixedBytes ⟨hwindow.whole, Nat.dvd_mul_right 8 size, hfit⟩
  | lengthPrefixed entry payload, h => by
    cases h _ (List.mem_singleton_self _) with
    | content hpayload => rcases hpayload with rfl | rfl <;> exact .lengthPrefixed trivial
    | elements hplaced hread => exact .lengthPrefixed (Field.aligned_elementRead? hplaced hread)
  | nested entry shape ⟨ops, tail⟩, h =>
    .nested (aligned_of_allEmitted ops fun op hmem inner hinner =>
      h inner (mem_all_nested.mpr (.inr ⟨op, hmem, hinner⟩)))

theorem aligned_of_allEmitted : (ops : List Op) → (∀ op ∈ ops, op.AllEmitted) →
    ∀ op ∈ ops, op.Aligned
  | [], _, op, hmem => by cases hmem
  | first :: ops, h, op, hmem => by
    rcases List.mem_cons.mp hmem with heq | hmem
    · rw [heq]
      exact AllEmitted.aligned first (h first (by simp))
    · exact aligned_of_allEmitted ops (fun other hother => h other (by simp [hother])) op hmem

end

end Op

theorem Program.Emitted.aligned {program : Program} (h : program.Emitted) : program.Aligned :=
  Op.aligned_of_allEmitted program.body.ops fun op hmem inner hinner =>
    h.ops inner (Op.mem_allIn.mpr ⟨op, hmem, hinner⟩)

/-- The program of a well-formed shape is aligned. -/
theorem Shape.WellFormed.aligned_program {shape : Shape} (hshape : shape.WellFormed)
    (name : String) : (shape.program name).Aligned :=
  (hshape.emitted_program name).aligned

end RecordCodec
