import RecordCodec.Json.Basic
import RecordCodec.Text.Hex
import RecordCodec.Text.Numeral

/-!
# Reading JSON

Strict JSON text: nothing but blanks around the one value, no comments, no
trailing commas, no leading zeros, and no control characters in strings. The
readers of this module take what stands at the front of the text and return the
rest behind it.

Escapes of surrogates must come in pairs to spell a character. A string in which
they do not is still skipped over correctly, but its content is lost.
-/

namespace RecordCodec

namespace Json

/-- The blanks that may stand between tokens. -/
def isBlank (c : Char) : Bool := c == ' ' || c == '\n' || c == '\t' || c == '\r'

def skipBlanks (text : List Char) : List Char := text.dropWhile isBlank

/-- The number of four hexadecimal digits. -/
def unit? (a b c d : Char) : Option Nat := do
  let a ← Hex.value? a
  let b ← Hex.value? b
  let c ← Hex.value? c
  let d ← Hex.value? d
  return ((a * 16 + b) * 16 + c) * 16 + d

def isHighSurrogate (unit : Nat) : Bool := 0xD800 ≤ unit && unit < 0xDC00

def isLowSurrogate (unit : Nat) : Bool := 0xDC00 ≤ unit && unit < 0xE000

/-- The character of a surrogate pair. -/
def ofSurrogates (high low : Nat) : Char :=
  Char.ofNat (0x10000 + (high - 0xD800) * 0x400 + (low - 0xDC00))

/-- The character of an escape with one letter. -/
def escape? : Char → Option Char
  | '"' => some '"'
  | '\\' => some '\\'
  | '/' => some '/'
  | 'b' => some '\x08'
  | 'f' => some '\x0c'
  | 'n' => some '\n'
  | 'r' => some '\r'
  | 't' => some '\t'
  | _ => none

/-- Reads a string from behind its opening quote up to the closing one. The
content is missing if a surrogate has no partner. -/
def stringTail? : List Char → Option (Option (List Char) × List Char)
  | [] => none
  | '"' :: rest => some (some [], rest)
  | '\\' :: 'u' :: a :: b :: c :: d :: rest => do
    let unit ← unit? a b c d
    if isHighSurrogate unit then
      match rest with
      | '\\' :: 'u' :: e :: f :: g :: h :: rest => do
        let next ← unit? e f g h
        let (content, rest) ← stringTail? rest
        if isLowSurrogate next then some (content.map (ofSurrogates unit next :: ·), rest)
        else some (none, rest)
      | rest => do
        let (_, rest) ← stringTail? rest
        some (none, rest)
    else
      let (content, rest) ← stringTail? rest
      if isLowSurrogate unit then some (none, rest)
      else some (content.map (Char.ofNat unit :: ·), rest)
  | '\\' :: letter :: rest => do
    let c ← escape? letter
    let (content, rest) ← stringTail? rest
    some (content.map (c :: ·), rest)
  | c :: rest => do
    if c.toNat < 0x20 then none
    else
      let (content, rest) ← stringTail? rest
      some (content.map (c :: ·), rest)

/-- Reads one or more digits. -/
def digits? (text : List Char) : Option (List Char × List Char) :=
  match text.takeWhile Char.isDigit with
  | [] => none
  | digits => some (digits, text.dropWhile Char.isDigit)

/-- Reads a fraction, which may be absent. -/
def fraction? : List Char → Option (List Char × List Char)
  | '.' :: rest => do
    let (digits, rest) ← digits? rest
    some ('.' :: digits, rest)
  | text => some ([], text)

/-- Reads an exponent, which may be absent. -/
def exponent? : List Char → Option (List Char × List Char)
  | mark :: rest => do
    if mark = 'e' ∨ mark = 'E' then
      match rest with
      | sign :: tail =>
        if sign = '+' ∨ sign = '-' then
          let (digits, rest) ← digits? tail
          some (mark :: sign :: digits, rest)
        else
          let (digits, rest) ← digits? rest
          some (mark :: digits, rest)
      | [] => none
    else some ([], mark :: rest)
  | [] => some ([], [])

/-- Reads a number whose sign has been read. -/
def unsigned? (negative : Bool) (text : List Char) : Option (Json × List Char) := do
  let (digits, rest) ← digits? text
  let n ← Numeral.parse? digits
  let (fraction, rest) ← fraction? rest
  let (exponent, rest) ← exponent? rest
  if fraction.isEmpty && exponent.isEmpty && !(negative && n == 0) then
    some (.int (if negative then -n else n), rest)
  else
    let literal := digits ++ fraction ++ exponent
    some (.real (String.ofList (if negative then '-' :: literal else literal)), rest)

def number? : List Char → Option (Json × List Char)
  | '-' :: rest => unsigned? true rest
  | text => unsigned? false text

/-- The words that stand for values. -/
def words : List (List Char × Json) :=
  [("null".toList, .null), ("true".toList, .bool true), ("false".toList, .bool false)]

def word? (text : List Char) : Option (Json × List Char) :=
  words.findSome? fun (word, value) => (word.isPrefixOf? text).map fun rest => (value, rest)

mutual

/-- Reads a value. The fuel bounds the number of values and parts of them. -/
def value? : (fuel : Nat) → List Char → Option (Json × List Char)
  | 0, _ => none
  | fuel + 1, text =>
    match skipBlanks text with
    | '"' :: rest => do
      let (content, rest) ← stringTail? rest
      some ((content.map fun cs => Json.string (String.ofList cs)).getD .unreadable, rest)
    | '[' :: rest =>
      match skipBlanks rest with
      | ']' :: rest => some (.array [], rest)
      | rest => do
        let (items, rest) ← items? fuel rest
        some (.array items, rest)
    | '{' :: rest =>
      match skipBlanks rest with
      | '}' :: rest => some (.object [], rest)
      | rest => do
        let (members, rest) ← members? fuel rest
        some ((members.map Json.object).getD .unreadable, rest)
    | text => (word? text).or (number? text)

/-- Reads the items of an array up to its end, of which there is at least one. -/
def items? : (fuel : Nat) → List Char → Option (List Json × List Char)
  | 0, _ => none
  | fuel + 1, text => do
    let (item, rest) ← value? fuel text
    match skipBlanks rest with
    | ']' :: rest => some ([item], rest)
    | ',' :: rest => do
      let (items, rest) ← items? fuel rest
      some (item :: items, rest)
    | _ => none

/-- Reads the members of an object up to its end, of which there is at least
one. They are missing if a name spells no text. -/
def members? : (fuel : Nat) → List Char → Option (Option (List (String × Json)) × List Char)
  | 0, _ => none
  | fuel + 1, text =>
    match skipBlanks text with
    | '"' :: rest => do
      let (name, rest) ← stringTail? rest
      match skipBlanks rest with
      | ':' :: rest => do
        let (value, rest) ← value? fuel rest
        let member := name.map fun cs => (String.ofList cs, value)
        match skipBlanks rest with
        | '}' :: rest => some (member.map ([·]), rest)
        | ',' :: rest => do
          let (members, rest) ← members? fuel rest
          some (member.bind fun member => members.map (member :: ·), rest)
        | _ => none
      | _ => none
    | _ => none

end

/-- Reads a whole text as one value. Every value and every part takes a
character at least, so the fuel does not run out. -/
def parse? (text : String) : Option Json := do
  let chars := text.toList
  let (value, rest) ← value? (2 * chars.length + 1) chars
  if (skipBlanks rest).isEmpty then some value else none

end Json

end RecordCodec
