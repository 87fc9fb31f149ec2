import RecordCodec.Proofs.Encoding.Flags
import RecordCodec.Proofs.Encoding.Success
import RecordCodec.Proofs.Reading.Shape

/-!
# Encoding what was read

A value that was read from an input is encoded again, and to the bytes it was read
from, with its flags written as flags are. So every value that can be read is of
its shape, and every byte read belongs to just one header or leaf of it.
-/

namespace RecordCodec

namespace Input

variable {data : Bytes} {cursor next : Nat}

theorem encode_count? {count : Nat} (h : count? data cursor = some (count, next)) :
    ∃ header, (∀ path, Header.encode path count = .ok header) ∧
      Bytes.Restored data cursor next (List.replicate Header.size false) header := by
  obtain ⟨hinput, rfl, rfl⟩ := count?_eq_some.mp h
  have hlength : (data.slice cursor 4).length = Header.size := Bytes.length_slice hinput
  have hcount := Bytes.toNat_lt (data.slice cursor 4)
  rw [hlength] at hcount
  refine ⟨data.slice cursor 4, ?_, .of_slice hinput⟩
  intro path
  refine Header.encode_eq_ok.mpr ⟨hcount, ?_⟩
  rw [← hlength, Bytes.ofNat_toNat]

theorem encode_payload? {payload : Bytes} (h : payload? data cursor = some (payload, next)) :
    ∃ out, (∀ path, Leaf.encodeCounted path payload = .ok out) ∧
      Bytes.Restored data cursor next (List.replicate (Header.size + payload.length) false)
        out := by
  obtain ⟨count, start, hcount, hpayload⟩ := payload?_eq_some.mp h
  obtain ⟨header, hheader, hrestored⟩ := encode_count? hcount
  obtain ⟨hinput, rfl, rfl⟩ := take?_eq_some.mp hpayload
  have hlength := Bytes.length_slice hinput
  refine ⟨header ++ data.slice start count, ?_, ?_⟩
  · intro path
    rw [← hlength] at hheader
    exact Leaf.encodeCounted_eq_ok.mpr ⟨header, hheader path, rfl⟩
  · rw [hlength, ← List.replicate_append_replicate]
    exact hrestored.append (.of_slice hinput)

end Input

namespace Leaf

variable {path : Path} {bits : Nat} {field : Bytes}

/-- A number as wide as its bytes fits its width and is written as these bytes. -/
theorem encodeUnsigned_rightAligned (hbits : 8 ∣ bits) (hle : bits ≤ 256)
    (hlength : field.length = bits / 8) :
    encodeUnsigned path bits (.rightAligned field) = .ok field := by
  refine encodeUnsigned_eq_ok.mpr ⟨Word.fitsUnsigned_rightAligned hbits hle hlength, ?_⟩
  rw [← hlength, Word.ofNat_rightAligned (by omega)]

theorem encodeSigned_ofInt (hbits : 8 ∣ bits) (hle : bits ≤ 256) (hpos : 0 < bits)
    (hlength : field.length = bits / 8) :
    encodeSigned path bits (Word.ofInt field.toInt) = .ok field := by
  refine encodeSigned_eq_ok.mpr ⟨Word.fitsSigned_ofInt_toInt hbits hle hpos hlength, ?_⟩
  exact (Word.ofNat_ofInt_toInt hbits hle hlength).symm

/-- The bytes of a number, as they were read, are the bytes it is written as. -/
theorem encode_ofBytes {type : Primitive} (htype : type.WellFormed)
    (hlength : field.length = type.bitSize / 8) :
    (primitive type).encode path (type.ofBytes field) =
      .ok (field.withFlags (List.replicate (type.bitSize / 8) (decide (type = .bool)))) := by
  obtain ⟨hpos, hbits, hle⟩ := htype
  have hrestored := Bytes.withFlags_replicate_false hlength
  cases type with
  | uint bits =>
    rw [decide_eq_false (by simp), hrestored]
    exact encodeUnsigned_rightAligned hbits hle hlength
  | int bits =>
    rw [decide_eq_false (by simp), hrestored]
    exact encodeSigned_ofInt hbits hle hpos hlength
  | bool =>
    obtain ⟨byte, rfl⟩ := List.length_eq_one_iff.mp hlength
    by_cases hbyte : byte = 0
    · subst hbyte
      rfl
    · have hflag : [byte].any (· != 0) = true := by simp [hbyte]
      have hmasked : Bytes.withFlags [true] [byte] = [1] := by
        simp [Bytes.withFlags, Bytes.flagByte, hbyte]
      rw [Primitive.ofBytes, hflag]
      exact congrArg Except.ok hmasked.symm
  | address =>
    rw [decide_eq_false (by simp), hrestored]
    have hlt : field.toNat < 2 ^ 160 := by
      have hfield := Bytes.toNat_lt field
      rw [hlength] at hfield
      exact hfield
    change Except.ok (Bytes.ofNat 20 (BitVec.ofNat 160 field.toNat).toNat) = _
    rw [BitVec.toNat_ofNat, Nat.mod_eq_of_lt hlt]
    change field.length = 20 at hlength
    rw [← hlength, Bytes.ofNat_toNat]
  | fixedPoint signed bits decimals =>
    rw [decide_eq_false (by simp), hrestored]
    cases signed with
    | false => exact encodeUnsigned_rightAligned hbits hle hlength
    | true => exact encodeSigned_ofInt hbits hle hpos hlength

theorem encode_read? {data : Bytes} {cursor next : Nat} {type : Leaf} {value : Value}
    (htype : type.WellFormed) (h : type.read? data cursor = some (value, next)) :
    ∃ out, (∀ path, type.encode path value = .ok out) ∧
      Bytes.Restored data cursor next (type.flagMask value) out := by
  cases type with
  | primitive type =>
    obtain ⟨field, hfield, rfl⟩ := read?_primitive_eq_some.mp h
    obtain ⟨hinput, rfl, rfl⟩ := Input.take?_eq_some.mp hfield
    have hlength := Bytes.length_slice hinput
    refine ⟨_, fun path => encode_ofBytes htype hlength, ?_, hinput, ?_⟩
    · rw [flagMask, List.length_replicate]
    · rw [flagMask, List.length_replicate]
  | fixedBytes size =>
    obtain ⟨field, hfield, rfl⟩ := read?_fixedBytes_eq_some.mp h
    obtain ⟨hinput, rfl, rfl⟩ := Input.take?_eq_some.mp hfield
    refine ⟨data.slice cursor size, ?_, .of_slice hinput⟩
    intro path
    exact encode_fixedBytes_eq_ok.mpr ⟨rfl, Bytes.length_slice hinput⟩
  | bytes =>
    obtain ⟨payload, hpayload, rfl⟩ := read?_bytes_eq_some.mp h
    obtain ⟨out, hout, hrestored⟩ := Input.encode_payload? hpayload
    exact ⟨out, fun path => encode_bytes_eq_ok.mpr ⟨payload, rfl, hout path⟩, hrestored⟩
  | string =>
    obtain ⟨payload, text, hpayload, htext, rfl⟩ := read?_string_eq_some.mp h
    obtain ⟨out, hout, hrestored⟩ := Input.encode_payload? hpayload
    rw [← Text.utf8_of_ofUtf8? htext] at hout hrestored
    exact ⟨out, fun path => encode_string_eq_ok.mpr ⟨text, rfl, hout path⟩, hrestored⟩

end Leaf

namespace Dimension

theorem encodeCount_count? {data : Bytes} {cursor count next : Nat} {dim : Dimension}
    (hcursor : cursor ≤ data.length) (h : dim.count? data cursor = some (count, next)) :
    ∃ header, (∀ path, dim.encodeCount path count = .ok header) ∧
      Bytes.Restored data cursor next dim.headerMask header := by
  cases dim with
  | fixed size =>
    cases h
    exact ⟨[], fun path => encodeCount_fixed_eq_ok.mpr ⟨rfl, rfl⟩, .empty hcursor⟩
  | dynamic => exact Input.encode_count? h

end Dimension

namespace Shape

variable {data : Bytes}

/-- What the reader takes is encoded again, at any path, to the bytes it was taken from. -/
def Reencodes (data : Bytes) (encode : Path → Value → Except EncodeError Bytes)
    (mask : Value → List Bool) (read? : Nat → Option (Value × Nat)) : Prop :=
  ∀ ⦃cursor value next⦄, cursor ≤ data.length → read? cursor = some (value, next) →
    ∃ out, (∀ path, encode path value = .ok out) ∧
      Bytes.Restored data cursor next (mask value) out

theorem encodeElements_readElements? {encode : Path → Value → Except EncodeError Bytes}
    {mask : Value → List Bool} {read? : Nat → Option (Value × Nat)}
    (h : Reencodes data encode mask read?) {count cursor next : Nat} {values : List Value}
    (hcursor : cursor ≤ data.length)
    (hread : readElements? read? count cursor = some (values, next)) :
    values.length = count ∧ ∃ out, (∀ path i, encodeElements encode path i values = .ok out) ∧
      Bytes.Restored data cursor next (values.flatMap mask) out := by
  induction count generalizing cursor values with
  | zero =>
    cases hread
    exact ⟨rfl, [], fun _ _ => rfl, .empty hcursor⟩
  | succ count ih =>
    obtain ⟨first, middle, rest, hfirst, hrest, rfl⟩ := readElements?_succ_eq_some.mp hread
    obtain ⟨front, hfront, hfrontRestored⟩ := h hcursor hfirst
    obtain ⟨hlength, back, hback, hbackRestored⟩ := ih hfrontRestored.le hrest
    refine ⟨by rw [List.length_cons, hlength], front ++ back, ?_, ?_⟩
    · intro path i
      exact encodeElements_cons_eq_ok.mpr ⟨front, back, hfront _, hback path (i + 1), rfl⟩
    · exact hfrontRestored.append hbackRestored

theorem encodeComponents_readComponents? {components : List (String × Shape)}
    (h : ∀ component ∈ components,
      Reencodes data component.2.encode component.2.flagMask (component.2.read? data))
    {cursor next : Nat} {values : List Value} (hcursor : cursor ≤ data.length)
    (hread : readComponents? data components cursor = some (values, next)) :
    values.length = components.length ∧
      ∃ out, (∀ path, encodeComponents components path values = .ok out) ∧
        Bytes.Restored data cursor next (componentMask components values) out := by
  induction components generalizing cursor values with
  | nil =>
    rw [readComponents?] at hread
    cases hread
    refine ⟨rfl, [], ?_, ?_⟩
    · intro path
      rw [encodeComponents]
      simp
    · rw [componentMask]
      · exact .empty hcursor
      · simp
  | cons component components ih =>
    obtain ⟨name, shape⟩ := component
    obtain ⟨first, middle, rest, hfirst, hrest, rfl⟩ := readComponents?_cons_eq_some.mp hread
    obtain ⟨front, hfront, hfrontRestored⟩ := h (name, shape) (by simp) hcursor hfirst
    obtain ⟨hlength, back, hback, hbackRestored⟩ :=
      ih (fun other hmem => h other (by simp [hmem])) hfrontRestored.le hrest
    refine ⟨by rw [List.length_cons, List.length_cons, hlength], front ++ back, ?_, ?_⟩
    · intro path
      exact encodeComponents_cons_eq_ok.mpr ⟨front, back, hfront _, hback path, rfl⟩
    · rw [componentMask]
      exact hfrontRestored.append hbackRestored

/-- Whatever a well-formed shape is read as is encoded again, to the bytes that were
read but for the flags among them. -/
theorem WellFormed.reencodes {shape : Shape} (hshape : shape.WellFormed) (data : Bytes) :
    Reencodes data shape.encode shape.flagMask (shape.read? data) := by
  induction hshape with
  | leaf htype =>
    intro cursor value next _ h
    rw [read?] at h
    obtain ⟨out, hout, hrestored⟩ := Leaf.encode_read? htype h
    refine ⟨out, ?_, ?_⟩
    · intro path
      rw [Shape.encode, hout]
    · rw [flagMask]
      exact hrestored
  | tuple hne hcomponents ih =>
    intro cursor value next hcursor h
    obtain ⟨values, hvalues, rfl⟩ := read?_tuple_eq_some.mp h
    obtain ⟨hlength, out, hout, hrestored⟩ :=
      encodeComponents_readComponents? ih hcursor hvalues
    refine ⟨out, ?_, ?_⟩
    · intro path
      exact encode_tuple_eq_ok.mpr ⟨values, rfl, hlength, hout path⟩
    · rw [flagMask]
      exact hrestored
  | @array dim element hdim helement ih =>
    intro cursor value next hcursor h
    rw [read?] at h
    obtain ⟨count, start, values, hcount, hvalues, rfl⟩ := readArray?_eq_some.mp h
    obtain ⟨header, hheader, hheaderRestored⟩ := Dimension.encodeCount_count? hcursor hcount
    obtain ⟨rfl, elements, helements, helementsRestored⟩ :=
      encodeElements_readElements? ih hheaderRestored.le hvalues
    refine ⟨header ++ elements, ?_, ?_⟩
    · intro path
      exact encode_array_eq_ok.mpr
        ⟨values, header, elements, rfl, hheader path, helements path 0, rfl⟩
    · rw [flagMask]
      exact hheaderRestored.append helementsRestored

end Shape

end RecordCodec
