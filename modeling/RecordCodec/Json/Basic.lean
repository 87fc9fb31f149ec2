/-!
# JSON values

JSON as it is written, as far as it matters to its readers: the members of an
object keep their order and may repeat, and a number is an integer exactly if it
is written without a fraction and an exponent and is not minus zero.
-/

namespace RecordCodec

inductive Json where
  | null
  | bool (flag : Bool)
  | int (n : Int)
  /-- Any other number, kept as it is written. -/
  | real (literal : String)
  | string (text : String)
  | array (items : List Json)
  | object (members : List (String × Json))
  /-- A string, or an object with a member name, whose escapes spell no text. -/
  | unreadable

namespace Json

/-- The value of an object's member. The last of several members counts. -/
def member? (members : List (String × Json)) (name : String) : Option Json :=
  members.reverse.lookup name

/-- The values of all members of one name, in order. -/
def membersNamed (members : List (String × Json)) (name : String) : List Json :=
  members.filterMap fun (other, value) => if other = name then some value else none

end Json

end RecordCodec
