/-! Values as a host hands them over: configuration, and references in transit. -/
namespace Settle

inductive Value where
  | null
  | boolean (value : Bool)
  | integer (value : Int)
  /-- A number written with a fraction: `mantissa / 10 ^ places`. -/
  | decimal (mantissa : Int) (places : Nat)
  | text (value : String)
  | list (items : List Value)
  | object (fields : List (String × Value))
  deriving Inhabited

namespace Value

/-- A field of an object; other values have no fields. -/
def field? (name : String) : Value → Option Value
  | object fields => fields.lookup name
  | _ => none

/-- A text that says something. -/
def nonEmptyText? : Value → Option String
  | text value => if value.isEmpty then none else some value
  | _ => none

end Value
end Settle
