import RecordCodec.Encoding
import RecordCodec.Proofs.Json.Hex
import RecordCodec.Proofs.Outcome

/-!
# Values survive the way through JSON

A value of the kind that its shape asks for in every place is written as JSON from
which the shape reads the same value again. Widths and the lengths of arrays and byte
strings play no part in this. Numbers travel in one of three forms, as JSON numbers or
as the hexadecimal digits of a magnitude with or without a sign, and each of them is
read as the word it was written for.
-/

namespace RecordCodec

namespace Shape

mutual

/-- The value has the kind that the shape asks for in every place, and tuples have a
value for each component. -/
def Admits : Shape → Value → Prop
  | leaf type, value => value.kind = type.kind
  | tuple components, .tuple values => AdmitsAll components values
  | array _ element, .array values => ∀ value ∈ values, element.Admits value
  | _, _ => False

def AdmitsAll : List (String × Shape) → List Value → Prop
  | [], [] => True
  | (_, shape) :: components, value :: values =>
    shape.Admits value ∧ AdmitsAll components values
  | _, _ => False

end

theorem length_eq_of_admitsAll {components : List (String × Shape)} {values : List Value}
    (h : AdmitsAll components values) : values.length = components.length := by
  induction components generalizing values with
  | nil => cases values <;> simp [AdmitsAll] at h ⊢
  | cons component components ih =>
    cases values with
    | nil => simp [AdmitsAll] at h
    | cons value values =>
      rw [AdmitsAll] at h
      exact congrArg Nat.succ (ih h.2)

end Shape

namespace Json

theorem toUnsigned_unsignedToJson (w : Word) : (Value.unsignedToJson w).toUnsigned = .ok w := by
  have hhex : (Json.string (markHex w.hexDigits)).toUnsigned = .ok w := by
    rw [toUnsigned, markHex, String.toList_ofList]
    exact wordOfHex_hexDigits w
  rw [Value.unsignedToJson]
  cases hlow : w.toUnsigned64? with
  | none => exact hhex
  | some low =>
    have hlt := low.isLt
    have hword : Word.ofInt (low.toNat : Int) = w := by
      rw [Word.ofInt, BitVec.ofInt_natCast, BitVec.ofNat_toNat]
      exact Word.setWidth_of_toUnsigned64? hlow
    have hnumber : (Json.int low.toNat).toUnsigned = .ok w := by
      rw [toUnsigned, if_pos ⟨by omega, by exact_mod_cast hlt⟩, hword]
    dsimp only
    split
    · exact hnumber
    · exact hhex

/-- A sign in front of the magnitude is read as the negation that it was written for. -/
theorem signedWordOfHex_signedHex (w : Word) :
    signedWordOfHex (Value.signedHex w).toList = .ok w := by
  unfold Value.signedHex
  split
  · rw [signedWordOfHex_minus_markHex, wordOfHex_hexDigits, Outcome.ok_bind, Word.negate_eq,
      BitVec.neg_neg]
    rfl
  · rw [signedWordOfHex_markHex, wordOfHex_hexDigits]

theorem toSigned_signedToJson (w : Word) : (Value.signedToJson w).toSigned = .ok w := by
  have hhex : (Json.string (Value.signedHex w)).toSigned = .ok w := signedWordOfHex_signedHex w
  rw [Value.signedToJson]
  cases hlow : w.toSigned64? with
  | none => exact hhex
  | some low =>
    have hrange : -Int.pow 2 63 ≤ low.toInt ∧ low.toInt < Int.pow 2 63 :=
      ⟨BitVec.le_toInt low, BitVec.toInt_lt⟩
    have hwide : -2 ^ 127 ≤ low.toInt ∧ low.toInt < 2 ^ 127 := by
      change -2 ^ 63 ≤ low.toInt ∧ low.toInt < 2 ^ 63 at hrange
      omega
    have hnumber : (Json.int low.toInt).toSigned = .ok w := by
      rw [toSigned, if_pos hrange, Word.ofSigned128_ofInt hwide]
      exact congrArg Except.ok (Word.signExtend_of_toSigned64? hlow)
    dsimp only
    split
    · exact hnumber
    · exact hhex

theorem toBytes_encode (payload : Bytes) :
    (Json.string (markHex (Hex.encode payload))).toBytes = .ok payload := by
  rw [toBytes, markHex, String.toList_ofList, bytesOfHex]
  simp only [hexDigits?, Hex.decode?_encode]

end Json

/-- Leaves whose values are numbers, with or without a sign. -/
def Primitive.IsInteger : Primitive → Prop
  | bool | address => False
  | _ => True

namespace Leaf

theorem kind_of_isInteger {type : Primitive} (h : type.IsInteger) :
    (primitive type).kind = if type.isSigned then .int else .uint := by
  cases type <;> first | rfl | exact h.elim

/-- Numbers are read by whether they have a sign, whatever their width. -/
theorem ofJson_of_isInteger {type : Primitive} (h : type.IsInteger) (json : Json) :
    (primitive type).ofJson json =
      if type.isSigned then json.toSigned.map .int else json.toUnsigned.map .uint := by
  cases type <;> first | rfl | exact h.elim

theorem ofJson_toJson_integer {type : Primitive} (htype : type.IsInteger) {value : Value}
    (h : value.kind = (primitive type).kind) :
    (primitive type).ofJson value.toJson = .ok value := by
  rw [kind_of_isInteger htype] at h
  rw [ofJson_of_isInteger htype]
  split at h
  · rename_i hsigned
    rw [if_pos hsigned]
    cases value with
    | int word =>
      rw [Value.toJson, Json.toSigned_signedToJson]
      rfl
    | _ => cases h
  · rename_i hsigned
    rw [if_neg hsigned]
    cases value with
    | uint word =>
      rw [Value.toJson, Json.toUnsigned_unsignedToJson]
      rfl
    | _ => cases h

theorem ofJson_toJson_address (account : Address) :
    (primitive .address).ofJson (Value.address account).toJson = .ok (.address account) := by
  have hlength : (Bytes.ofNat 20 account.toNat).length = 20 := Bytes.length_ofNat 20 _
  have haccount : BitVec.ofNat 160 (Bytes.toNat (Bytes.ofNat 20 account.toNat)) = account := by
    apply BitVec.eq_of_toNat_eq
    have hlt : account.toNat < 256 ^ 20 := account.isLt
    rw [Bytes.toNat_ofNat, BitVec.toNat_ofNat, Nat.mod_eq_of_lt hlt, Nat.mod_eq_of_lt account.isLt]
  rw [Value.toJson, ofJson, Json.toBytes_encode, Outcome.ok_bind, if_pos hlength, haccount]

/-- What a value of the leaf's kind is written as is read as the value. -/
theorem ofJson_toJson {type : Leaf} {value : Value} (h : value.kind = type.kind) :
    type.ofJson value.toJson = .ok value := by
  cases type with
  | primitive type =>
    cases type with
    | bool =>
      cases value with
      | bool flag => rfl
      | _ => cases h
    | address =>
      cases value with
      | address account => exact ofJson_toJson_address account
      | _ => cases h
    | uint | int | fixedPoint => exact ofJson_toJson_integer (by trivial) h
  | fixedBytes size =>
    cases value with
    | fixedBytes payload =>
      rw [Value.toJson, ofJson, Json.toBytes_encode]
      rfl
    | _ => cases h
  | bytes =>
    cases value with
    | bytes payload =>
      rw [Value.toJson, ofJson, Json.toBytes_encode]
      rfl
    | _ => cases h
  | string =>
    cases value with
    | string text => rfl
    | _ => cases h

end Leaf

namespace Shape

theorem itemsOfJson_listToJson {element : Shape} {values : List Value}
    (h : ∀ value ∈ values, ∀ path, element.ofJson path value.toJson = .ok value) (path : Path)
    (i : Nat) : itemsOfJson element.ofJson path i (Value.listToJson values) = .ok values := by
  induction values generalizing i with
  | nil => rfl
  | cons value values ih =>
    have hrest := ih (fun other hmem => h other (by simp [hmem])) (i + 1)
    rw [Value.listToJson, itemsOfJson, h value (by simp), Outcome.ok_bind, hrest, Outcome.ok_bind]
    rfl

theorem length_listToJson (values : List Value) :
    (Value.listToJson values).length = values.length := by
  induction values with
  | nil => rfl
  | cons value values ih => rw [Value.listToJson, List.length_cons, List.length_cons, ih]

mutual

/-- A value that the shape admits is read from the JSON that it is written as. -/
theorem ofJson_of_admits : (shape : Shape) → (path : Path) → (value : Value) →
    shape.Admits value → shape.ofJson path value.toJson = .ok value
  | leaf type, path, value, h => by
    rw [Admits] at h
    rw [ofJson, Leaf.ofJson_toJson h]
  | tuple components, path, value, h => by
    cases value with
    | tuple values =>
      rw [Admits] at h
      have hlength : (Value.listToJson values).length = components.length := by
        rw [length_listToJson, length_eq_of_admitsAll h]
      rw [Value.toJson, ofJson, if_pos hlength, listedOfJson_of_admitsAll components path values h]
      rfl
    | _ => simp [Admits] at h
  | array dim element, path, value, h => by
    cases value with
    | array values =>
      rw [Admits] at h
      rw [Value.toJson, ofJson, itemsOfJson_listToJson fun value hmem path =>
        ofJson_of_admits element path value (h value hmem)]
      rfl
    | _ => simp [Admits] at h

theorem listedOfJson_of_admitsAll : (components : List (String × Shape)) → (path : Path) →
    (values : List Value) → AdmitsAll components values →
      listedOfJson components path (Value.listToJson values) = .ok values
  | [], path, [], h => rfl
  | [], path, _ :: _, h => by simp [AdmitsAll] at h
  | _ :: _, path, [], h => by simp [AdmitsAll] at h
  | (name, shape) :: components, path, value :: values, h => by
    rw [AdmitsAll] at h
    rw [Value.listToJson, listedOfJson, ofJson_of_admits shape _ value h.1, Outcome.ok_bind,
      listedOfJson_of_admitsAll components path values h.2]
    rfl

end

/-- Reading inverts writing: at any path, a shape reads back each value that it admits,
and it admits no other value that is written the same. -/
theorem ofJson_inverts_toJson (shape : Shape) (path : Path) (value : Value)
    (h : shape.Admits value) :
    shape.ofJson path value.toJson = .ok value ∧
      ∀ other, shape.Admits other → other.toJson = value.toJson → other = value := by
  have hread := ofJson_of_admits shape path value h
  refine ⟨hread, ?_⟩
  intro other hother hjson
  have hreadOther := ofJson_of_admits shape path other hother
  rw [hjson, hread] at hreadOther
  exact (Except.ok.inj hreadOther).symm

/-- The least signed number, zeros in front of a byte string, and an odd count of digits. -/
theorem ofJson_inverts_toJson_tuple :
    let shape : Shape := .tuple [("debt", .leaf (.primitive (.int 8))),
      ("mark", .leaf (.fixedBytes 2)), ("sums", .array .dynamic (.leaf (.primitive (.uint 8))))]
    let value : Value := .tuple [.int (BitVec.intMin 256), .fixedBytes [0, 0, 7],
      .array [.uint (BitVec.ofNat 256 (2 ^ 56)), .uint 0]]
    shape.Admits value ∧ shape.ofJson (Path.ofName "entry") value.toJson = .ok value := by
  intro shape value
  have hadmits : shape.Admits value := by
    simp [shape, value, Admits, AdmitsAll, Value.kind, Leaf.kind, Primitive.isSigned]
  exact ⟨hadmits, (ofJson_inverts_toJson shape (Path.ofName "entry") value hadmits).1⟩

end Shape

end RecordCodec
