/-!
# JSON values

The members of an object stand in the order of their keys, and a key occurs once : where a
document repeats one, the last value counts. Whole numbers of up to 64 bits are kept exactly;
all other numbers are floating-point numbers.
-/

namespace HttpServer

/-- A JSON value. -/
inductive Json where
  | null
  | bool (b : Bool)
  | int (n : Int)
  | float (x : Float)
  | string (s : String)
  | array (items : List Json)
  /-- The members, in the order of their keys. -/
  | object (members : List (String × Json))
deriving Inhabited

namespace Json

/-- Members with the value of a key set, in place or where the key belongs. -/
def insertMember (k : String) (v : Json) : List (String × Json) → List (String × Json)
  | [] => [(k, v)]
  | m :: l =>
    if k < m.1 then (k, v) :: m :: l
    else if k = m.1 then (k, v) :: l
    else m :: insertMember k v l

/-- The object with the given members; of equal keys the last counts. -/
def ofMembers (l : List (String × Json)) : Json :=
  .object (l.foldl (fun acc m => insertMember m.1 m.2 acc) [])

/-- The value of a key of an object. -/
def get? (j : Json) (k : String) : Option Json :=
  match j with
  | object l => l.lookup k
  | _ => none

end Json

end HttpServer
