import RecordCodec.Encoding
import RecordCodec.Proofs.Bytes.Number
import RecordCodec.Proofs.Outcome

/-!
# What encoding yields

Where encoding succeeds, the value is of the kind its shape asks for, and the
bytes are those of its parts in order. These equivalences take an encoded value
apart, one for each kind of shape.
-/

namespace RecordCodec

namespace Header

theorem encode_eq_ok {path : Path} {count : Nat} {header : Bytes} :
    encode path count = .ok header ↔ count < 256 ^ size ∧ header = Bytes.ofNat size count := by
  exact Outcome.check_eq_ok

end Header

namespace Leaf

variable {path : Path} {bits : Nat} {word : Word} {value : Value} {out : Bytes}

theorem encodeUnsigned_eq_ok : encodeUnsigned path bits word = .ok out ↔
    word.FitsUnsigned bits ∧ out = Bytes.ofNat (bits / 8) word.toNat := by
  rw [encodeUnsigned, Outcome.check_eq_ok]

theorem encodeSigned_eq_ok : encodeSigned path bits word = .ok out ↔
    word.FitsSigned bits ∧ out = Bytes.ofNat (bits / 8) word.toNat := by
  rw [encodeSigned, Outcome.check_eq_ok]

theorem encodeCounted_eq_ok {payload : Bytes} : encodeCounted path payload = .ok out ↔
    ∃ header, Header.encode path payload.length = .ok header ∧ header ++ payload = out := by
  simp [encodeCounted, Outcome.bind_eq_ok]

theorem encode_fixedBytes_eq_ok {size : Nat} : (fixedBytes size).encode path value = .ok out ↔
    value = .fixedBytes out ∧ out.length = size := by
  cases value with
  | fixedBytes payload =>
    rw [encode, Outcome.check_eq_ok]
    constructor
    · rintro ⟨hlength, rfl⟩
      exact ⟨rfl, hlength⟩
    · rintro ⟨⟨⟩, hlength⟩
      exact ⟨hlength, rfl⟩
  | _ => simp [encode]

theorem encode_bytes_eq_ok : bytes.encode path value = .ok out ↔
    ∃ payload, value = .bytes payload ∧ encodeCounted path payload = .ok out := by
  cases value <;> simp [encode]

theorem encode_string_eq_ok : string.encode path value = .ok out ↔
    ∃ text, value = .string text ∧ encodeCounted path (Text.utf8 text) = .ok out := by
  cases value <;> simp [encode]

end Leaf

namespace Dimension

theorem encodeCount_fixed_eq_ok {path : Path} {count size : Nat} {header : Bytes} :
    (fixed size).encodeCount path count = .ok header ↔ count = size ∧ header = [] := by
  rw [encodeCount, Outcome.check_eq_ok]

end Dimension

namespace Shape

variable {path : Path} {value : Value} {values : List Value} {out : Bytes}

theorem encodeElements_cons_eq_ok {encode : Path → Value → Except EncodeError Bytes} {i : Nat} :
    encodeElements encode path i (value :: values) = .ok out ↔
      ∃ first rest, encode (path.index i) value = .ok first ∧
        encodeElements encode path (i + 1) values = .ok rest ∧ first ++ rest = out := by
  simp [encodeElements, Outcome.bind_eq_ok]

theorem encode_tuple_eq_ok {components : List (String × Shape)} :
    (tuple components).encode path value = .ok out ↔
      ∃ values, value = .tuple values ∧ values.length = components.length ∧
        encodeComponents components path values = .ok out := by
  cases value with
  | tuple values =>
    rw [encode]
    split
    · rename_i hlength
      simp [hlength]
    · rename_i hlength
      simp [hlength]
  | _ => simp [encode]

theorem encode_array_eq_ok {dim : Dimension} {element : Shape} :
    (array dim element).encode path value = .ok out ↔
      ∃ values header elements, value = .array values ∧
        dim.encodeCount path values.length = .ok header ∧
        encodeElements element.encode path 0 values = .ok elements ∧
        header ++ elements = out := by
  cases value with
  | array values => simp [encode, Outcome.bind_eq_ok]
  | _ => simp [encode]

theorem encodeComponents_cons_eq_ok {name : String} {shape : Shape}
    {components : List (String × Shape)} :
    encodeComponents ((name, shape) :: components) path (value :: values) = .ok out ↔
      ∃ first rest, shape.encode (path.component name) value = .ok first ∧
        encodeComponents components path values = .ok rest ∧ first ++ rest = out := by
  simp [encodeComponents, Outcome.bind_eq_ok]

end Shape

end RecordCodec
