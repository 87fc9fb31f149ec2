import RecordCodec.Layout.Field

/-!
# Assignment of word positions

Within a scope, which is a list of sibling fields, leaves of a fixed width fill
words from the high end in order. The running width `used` says how far. A
number never crosses the end of a word: one that would not fit starts a new
word. A byte string may cross; its shift is the running width itself, negated,
and the reader decides where its window begins.

Dynamic leaves and nested scopes end a run, so what follows them starts at zero
again. A nested scope is a scope of its own.
-/

namespace RecordCodec

namespace Layout

/-- The running width stops growing here. -/
def maxUsed : Nat := 65535

end Layout

namespace Field

mutual

/-- Assigns the position of a field behind `used` bits of its scope, and returns
the running width behind it. -/
def assign : Field → (used : Nat) → Field × Nat
  | ⟨name, kind, extraLevels, shift, components⟩, used =>
    match kind with
    | .leaf (.primitive type) =>
      let start := if 256 < used + type.bitSize then 0 else used
      (⟨name, kind, extraLevels, some (256 - start - type.bitSize), components⟩,
        start + type.bitSize)
    | .leaf (.fixedBytes size) =>
      (⟨name, kind, extraLevels, some (-used), components⟩, min (used + 8 * size) Layout.maxUsed)
    | .leaf .bytes | .leaf .string => (⟨name, kind, extraLevels, none, components⟩, 0)
    | .tuple | .fixedArray _ | .dynamicArray =>
      (⟨name, kind, extraLevels, shift, assignFrom components 0⟩, 0)

/-- Assigns the positions of sibling fields behind `used` bits. -/
def assignFrom : List Field → (used : Nat) → List Field
  | [], _ => []
  | field :: fields, used =>
    let (first, used) := field.assign used
    first :: assignFrom fields used

end

/-- Assigns all positions of a scope. -/
def assignScope (fields : List Field) : List Field := assignFrom fields 0

end Field

end RecordCodec
