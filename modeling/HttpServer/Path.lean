import HttpServer.Bytes

/-!
# Request paths

A path is stored in one written form : it begins with a slash, and it ends with one only if
it is the root. `Path.clean` brings any path into that form, so that two spellings of a
path lead to the same route.
-/

namespace HttpServer.Path

/-- The path without the slashes at its end. -/
def trimSlashes (p : Bytes) : Bytes := (p.reverse.dropWhile (· = slash)).reverse

/-- The written form of a path : no slash at the end, one at the front, and the root for a
path of slashes alone. -/
def clean (p : Bytes) : Bytes :=
  match trimSlashes p with
  | [] => [slash]
  | b :: l => if b = slash then b :: l else slash :: b :: l

end HttpServer.Path
