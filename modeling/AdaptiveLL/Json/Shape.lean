import AdaptiveLL.Json.Basic

/-!
# The shapes that descriptions use

How a JSON value describes data.  An integer lies in the range of its kind.  A record is an
object with a field per part, where other fields do not matter but a repeated one is refused; or
a list of the parts in order, of which the last may be missing.  A variant is the name of a case
that has no payload, or an object with that name as its only key and the payload under it; a
case without payload may also be written with the payload null.

`nestingLimit` bounds how deep records, lists and variants may lie within each other.
-/

namespace AdaptiveLL
namespace Json

/-- How many records, lists and variants may lie within each other. -/
def nestingLimit : Nat := 127

/-- A number or an index: less than two to the power of 64. -/
def asNat? : Json → Option Nat
  | int n => if 0 ≤ n && n < 18446744073709551616 then some n.toNat else none
  | _ => none

/-- A symbol, channel or level: an integer of 32 bits with sign. -/
def asInt32? : Json → Option Int
  | int n => if -2147483648 ≤ n && n < 2147483648 then some n else none
  | _ => none

/-- A truth value. -/
def asBool? : Json → Option Bool
  | bool b => some b
  | _ => none

/-- A text. -/
def asString? : Json → Option String
  | string s => some s
  | _ => none

/-- Nothing, or what `f` reads. -/
def asNullable? {α : Type} (f : Json → Option α) : Json → Option (Option α)
  | null => some none
  | j => (f j).map some

/-- A list of what `f` reads. -/
def asList? {α : Type} (f : Json → Option α) : Json → Option (List α)
  | array items => items.mapM f
  | _ => none

/-- An array of what `f` reads. -/
def asArray? {α : Type} (f : Json → Option α) (j : Json) : Option (Array α) :=
  (asList? f j).map List.toArray

/-- Two things in a list. -/
def asPair? {α β : Type} (f : Json → Option α) (g : Json → Option β) : Json → Option (α × β)
  | array [a, b] => do pure (← f a, ← g b)
  | _ => none

/-- The parts of a record with the given field names, a missing part being none. -/
def asRecord? (names : List String) : Json → Option (List (Option Json))
  | object fields =>
    names.mapM fun name =>
      match fields.filter (·.1 == name) with
      | [] => some none
      | [(_, v)] => some (some v)
      | _ => none
  | array items =>
    if items.length ≤ names.length then
      some (items.map some ++ List.replicate (names.length - items.length) none)
    else none
  | _ => none

/-- A part that must be there. -/
def required {α : Type} (f : Json → Option α) (part : Option Json) : Option α := part.bind f

/-- A part that has a value if it is missing. -/
def optional {α : Type} (default : α) (f : Json → Option α) : Option Json → Option α
  | none => some default
  | some j => f j

/-- The case of a variant, with its payload. -/
def asVariant? : Json → Option (String × Option Json)
  | string name => some (name, none)
  | object [(name, payload)] => some (name, some payload)
  | _ => none

/-- Whether a payload is that of a case without payload. -/
def isBare : Option Json → Bool
  | none | some null => true
  | _ => false

end Json
end AdaptiveLL
