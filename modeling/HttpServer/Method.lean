import HttpServer.Bytes

/-!
# Request methods

The eight methods that a start line may name, in the order that comparison follows, and
`invalid` for a request that names none of them.
-/

namespace HttpServer

/-- The method of a request. -/
inductive Method where
  | get
  | post
  | put
  | delete
  | head
  | options
  | trace
  | patch
  /-- No method has been read, or an unknown one. -/
  | invalid
deriving DecidableEq, Repr, Ord, Inhabited

namespace Method

/-- The written form of a method. -/
def text : Method → String
  | get => "GET"
  | post => "POST"
  | put => "PUT"
  | delete => "DELETE"
  | head => "HEAD"
  | options => "OPTIONS"
  | trace => "TRACE"
  | patch => "PATCH"
  | invalid => "INVALID"

/-- The methods that a start line may name. -/
def named : List Method := [get, post, put, delete, head, options, trace, patch]

/-- The token of a method on the wire. -/
def token (m : Method) : Bytes := utf8 m.text

/-- The method with the given token. -/
def ofToken (t : Bytes) : Method := (named.find? fun m => m.token == t).getD invalid

theorem ofToken_token {m : Method} (h : m ∈ named) : ofToken m.token = m := by
  revert m
  decide

theorem token_ne_nil {m : Method} : m.token ≠ [] := by
  cases m <;> decide

theorem token_alpha {m : Method} : ∀ b ∈ m.token, isAlpha b :=
  List.all_eq_true.1 (by cases m <;> decide)

theorem invalid_not_mem_named : invalid ∉ named := by decide

theorem mem_named_of_ne_invalid {m : Method} (h : m ≠ invalid) : m ∈ named := by
  cases m <;> first | decide | contradiction

/-- A token that names a method is the token of that method. -/
theorem of_ofToken_ne_invalid {t : Bytes} (h : ofToken t ≠ invalid) :
    ofToken t ∈ named ∧ (ofToken t).token = t := by
  unfold ofToken at h ⊢
  cases hf : named.find? fun m => m.token == t with
  | none => simp [hf] at h
  | some m => exact ⟨List.mem_of_find?_eq_some hf, by simpa using List.find?_some hf⟩

end Method

end HttpServer
