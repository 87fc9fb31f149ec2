import RecordCodec.Proofs.Encoding.Success
import RecordCodec.Proofs.Reading.Shape

/-!
# Reading back what was encoded

Wherever the bytes of an encoded value stand in an input, the direct reader takes
exactly these bytes and yields the value. Nothing is asked of the bytes around
them. The induction follows the shape; what one part leaves to read is where the
bytes of the next part stand.
-/

namespace RecordCodec

namespace Bytes

/-- The bytes stand in the input from the cursor on. -/
def HoldsAt (data bytes : Bytes) (cursor : Nat) : Prop :=
  ∃ front back, data = front ++ bytes ++ back ∧ front.length = cursor

namespace HoldsAt

variable {data bytes first rest : Bytes} {cursor : Nat}

theorem left (h : data.HoldsAt (first ++ rest) cursor) : data.HoldsAt first cursor := by
  obtain ⟨front, back, rfl, hfront⟩ := h
  exact ⟨front, rest ++ back, by simp, hfront⟩

theorem right (h : data.HoldsAt (first ++ rest) cursor) :
    data.HoldsAt rest (cursor + first.length) := by
  obtain ⟨front, back, rfl, hfront⟩ := h
  exact ⟨front ++ first, back, by simp, by rw [List.length_append, hfront]⟩

theorem take? (h : data.HoldsAt bytes cursor) :
    Input.take? data cursor bytes.length = some (bytes, cursor + bytes.length) := by
  obtain ⟨front, back, rfl, rfl⟩ := h
  refine Input.take?_eq_some.mpr ⟨?_, ?_, rfl⟩
  · simp only [List.length_append]
    omega
  · have hdrop : (front ++ bytes ++ back).drop front.length = bytes ++ back := by simp
    exact (slice_of_drop_eq hdrop).symm

end HoldsAt

end Bytes

namespace Input

variable {data : Bytes} {cursor : Nat}

theorem count?_encode {path : Path} {count : Nat} {header : Bytes}
    (h : Header.encode path count = .ok header) (hdata : data.HoldsAt header cursor) :
    count? data cursor = some (count, cursor + header.length) := by
  obtain ⟨hcount, rfl⟩ := Header.encode_eq_ok.mp h
  have htake := hdata.take?
  rw [Bytes.length_ofNat] at htake ⊢
  have hnumber : (Bytes.ofNat Header.size count).toNat = count := by
    rw [Bytes.toNat_ofNat, Nat.mod_eq_of_lt hcount]
  exact Outcome.map_value_eq_some.mpr ⟨_, htake, hnumber.symm⟩

theorem payload?_encodeCounted {path : Path} {payload out : Bytes}
    (h : Leaf.encodeCounted path payload = .ok out) (hdata : data.HoldsAt out cursor) :
    payload? data cursor = some (payload, cursor + out.length) := by
  obtain ⟨header, hheader, rfl⟩ := Leaf.encodeCounted_eq_ok.mp h
  refine payload?_eq_some.mpr ⟨payload.length, _, count?_encode hheader hdata.left, ?_⟩
  rw [hdata.right.take?, List.length_append, Nat.add_assoc]

end Input

namespace Leaf

variable {data out : Bytes} {path : Path} {value : Value} {cursor : Nat}

/-- The bytes of a number stand for the number that they were made from. -/
theorem ofBytes_of_encode {type : Primitive} (htype : type.WellFormed)
    (h : (primitive type).encode path value = .ok out) :
    out.length = type.bitSize / 8 ∧ type.ofBytes out = value := by
  obtain ⟨hpos, hbits, hle⟩ := htype
  cases type with
  | uint bits =>
    cases value with
    | uint word =>
      obtain ⟨hfits, rfl⟩ := encodeUnsigned_eq_ok.mp h
      exact ⟨Bytes.length_ofNat _ _, congrArg Value.uint (Word.rightAligned_ofNat hbits hfits)⟩
    | _ => cases h
  | int bits =>
    cases value with
    | int word =>
      obtain ⟨hfits, rfl⟩ := encodeSigned_eq_ok.mp h
      exact ⟨Bytes.length_ofNat _ _,
        congrArg Value.int (Word.ofInt_toInt_ofNat hbits hle hpos hfits)⟩
    | _ => cases h
  | bool =>
    cases value with
    | bool flag =>
      cases h
      cases flag <;> exact ⟨rfl, rfl⟩
    | _ => cases h
  | address =>
    cases value with
    | address account =>
      injection h with hout
      subst hout
      refine ⟨Bytes.length_ofNat _ _, congrArg Value.address ?_⟩
      have hlt : account.toNat < 256 ^ 20 := account.isLt
      rw [Bytes.toNat_ofNat, Nat.mod_eq_of_lt hlt, BitVec.ofNat_toNat, BitVec.setWidth_eq]
    | _ => cases h
  | fixedPoint signed bits decimals =>
    cases signed with
    | false =>
      cases value with
      | uint word =>
        obtain ⟨hfits, rfl⟩ := encodeUnsigned_eq_ok.mp h
        exact ⟨Bytes.length_ofNat _ _, congrArg Value.uint (Word.rightAligned_ofNat hbits hfits)⟩
      | _ => cases h
    | true =>
      cases value with
      | int word =>
        obtain ⟨hfits, rfl⟩ := encodeSigned_eq_ok.mp h
        exact ⟨Bytes.length_ofNat _ _,
          congrArg Value.int (Word.ofInt_toInt_ofNat hbits hle hpos hfits)⟩
      | _ => cases h

theorem read?_encode {type : Leaf} (htype : type.WellFormed)
    (h : type.encode path value = .ok out) (hdata : data.HoldsAt out cursor) :
    type.read? data cursor = some (value, cursor + out.length) := by
  cases type with
  | primitive type =>
    obtain ⟨hlength, rfl⟩ := ofBytes_of_encode htype h
    exact read?_primitive_eq_some.mpr ⟨out, by rw [← hlength, hdata.take?], rfl⟩
  | fixedBytes size =>
    obtain ⟨rfl, hlength⟩ := encode_fixedBytes_eq_ok.mp h
    exact read?_fixedBytes_eq_some.mpr ⟨out, by rw [← hlength, hdata.take?], rfl⟩
  | bytes =>
    obtain ⟨payload, rfl, hout⟩ := encode_bytes_eq_ok.mp h
    exact read?_bytes_eq_some.mpr ⟨payload, Input.payload?_encodeCounted hout hdata, rfl⟩
  | string =>
    obtain ⟨text, rfl, hout⟩ := encode_string_eq_ok.mp h
    exact read?_string_eq_some.mpr ⟨_, text, Input.payload?_encodeCounted hout hdata,
      Text.ofUtf8?_utf8 text, rfl⟩

end Leaf

namespace Dimension

theorem count?_encodeCount {data header : Bytes} {path : Path} {count cursor : Nat}
    {dim : Dimension} (h : dim.encodeCount path count = .ok header)
    (hdata : data.HoldsAt header cursor) :
    dim.count? data cursor = some (count, cursor + header.length) := by
  cases dim with
  | fixed size =>
    obtain ⟨rfl, rfl⟩ := encodeCount_fixed_eq_ok.mp h
    rfl
  | dynamic => exact Input.count?_encode h hdata

end Dimension

namespace Shape

variable {data : Bytes}

theorem readElements?_encodeElements {encode : Path → Value → Except EncodeError Bytes}
    {read? : Nat → Option (Value × Nat)}
    (h : ∀ ⦃path value out cursor⦄, encode path value = .ok out → data.HoldsAt out cursor →
      read? cursor = some (value, cursor + out.length))
    {path : Path} {i cursor : Nat} {values : List Value} {out : Bytes}
    (hencode : encodeElements encode path i values = .ok out) (hdata : data.HoldsAt out cursor) :
    readElements? read? values.length cursor = some (values, cursor + out.length) := by
  induction values generalizing i cursor out with
  | nil =>
    cases hencode
    rfl
  | cons value values ih =>
    obtain ⟨first, rest, hfirst, hrest, rfl⟩ := encodeElements_cons_eq_ok.mp hencode
    refine readElements?_succ_eq_some.mpr ⟨value, _, values, h hfirst hdata.left, ?_, rfl⟩
    rw [ih hrest hdata.right, List.length_append, Nat.add_assoc]

theorem readComponents?_encodeComponents {components : List (String × Shape)}
    (h : ∀ component ∈ components, ∀ ⦃path value out cursor⦄,
      component.2.encode path value = .ok out → data.HoldsAt out cursor →
        component.2.read? data cursor = some (value, cursor + out.length))
    {path : Path} {cursor : Nat} {values : List Value} {out : Bytes}
    (hlength : values.length = components.length)
    (hencode : encodeComponents components path values = .ok out)
    (hdata : data.HoldsAt out cursor) :
    readComponents? data components cursor = some (values, cursor + out.length) := by
  induction components generalizing values cursor out with
  | nil =>
    cases List.length_eq_zero_iff.mp hlength
    rw [encodeComponents] at hencode
    · cases hencode
      rw [readComponents?]
      rfl
    · simp
  | cons component components ih =>
    obtain ⟨name, shape⟩ := component
    cases values with
    | nil => cases hlength
    | cons value values =>
      obtain ⟨first, rest, hfirst, hrest, rfl⟩ := encodeComponents_cons_eq_ok.mp hencode
      have hothers := ih (fun other hmem => h other (by simp [hmem])) (Nat.succ.inj hlength)
        hrest hdata.right
      refine readComponents?_cons_eq_some.mpr ⟨value, _, values,
        h (name, shape) (by simp) hfirst hdata.left, ?_, rfl⟩
      rw [hothers, List.length_append, Nat.add_assoc]

/-- An encoded value is read back from where its bytes stand. -/
theorem WellFormed.read?_encode {shape : Shape} (hshape : shape.WellFormed) {path : Path}
    {value : Value} {out : Bytes} {cursor : Nat} (h : shape.encode path value = .ok out)
    (hdata : data.HoldsAt out cursor) :
    shape.read? data cursor = some (value, cursor + out.length) := by
  induction hshape generalizing path value out cursor with
  | leaf htype =>
    rw [Shape.encode] at h
    rw [read?]
    exact Leaf.read?_encode htype h hdata
  | tuple hne hcomponents ih =>
    obtain ⟨values, rfl, hlength, hvalues⟩ := encode_tuple_eq_ok.mp h
    exact read?_tuple_eq_some.mpr
      ⟨values, readComponents?_encodeComponents ih hlength hvalues hdata, rfl⟩
  | array hdim helement ih =>
    obtain ⟨values, header, elements, rfl, hheader, helements, rfl⟩ := encode_array_eq_ok.mp h
    rw [read?]
    refine readArray?_eq_some.mpr ⟨values.length, _, values,
      Dimension.count?_encodeCount hheader hdata.left, ?_, rfl⟩
    rw [readElements?_encodeElements (fun _ _ _ _ => ih) helements hdata.right,
      List.length_append, Nat.add_assoc]

end Shape

end RecordCodec
