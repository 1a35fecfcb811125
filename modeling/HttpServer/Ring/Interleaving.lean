import HttpServer.Ring

/-!
# Calls that come between each other

Any number of puts and takes work on one ring at a time. `Step` lets a call begin, or one of
the calls that have begun do its next thing, in any order. A call that has ended keeps its
place in the list, so that the list tells what came of every call.
-/

namespace HttpServer.Ring

variable {α : Type}

/-- A call on a ring. -/
inductive Call (α : Type) where
  /-- The put of a value. -/
  | push (v : α) (phase : PushPhase)
  /-- A take. -/
  | pop (phase : PopPhase α)
deriving DecidableEq, Repr

namespace Call

/-- The next thing that a call does. -/
def step (unlucky : Bool) (r : Ring α) : Call α → Call α × Ring α
  | push v phase => (push v (pushStep v unlucky r phase).1, (pushStep v unlucky r phase).2)
  | pop phase => (pop (popStep unlucky r phase).1, (popStep unlucky r phase).2)

/-- The call has ended. -/
def hasEnded : Call α → Bool
  | push _ (.ended _) => true
  | pop (.ended _) => true
  | pop .empty => true
  | _ => false

/-- The position that a call has claimed. -/
def claimed? : Call α → Option UInt64
  | push _ (.claimed pos) => some pos
  | push _ (.stored pos) => some pos
  | pop (.claimed pos) => some pos
  | pop (.fetched pos _) => some pos
  | _ => none

end Call

/-- A ring with the calls on it. -/
structure Shared (α : Type) where
  /-- The ring. -/
  ring : Ring α
  /-- The calls that have begun, in the order in which they did. -/
  calls : List (Call α) := []
deriving DecidableEq, Repr

namespace Shared

/-- The ring when the call with the given number has done its next thing. -/
def advance (s : Shared α) (i : Nat) (unlucky : Bool) : Shared α :=
  match s.calls[i]? with
  | none => s
  | some c =>
    { ring := (c.step unlucky s.ring).2, calls := s.calls.set i (c.step unlucky s.ring).1 }

/-- One thing happens. -/
inductive Step : Shared α → Shared α → Prop where
  | beginPush (s : Shared α) (v : α) :
    Step s { s with calls := s.calls ++ [.push v .start] }
  | beginPop (s : Shared α) :
    Step s { s with calls := s.calls ++ [.pop .start] }
  | advance (s : Shared α) (i : Nat) (unlucky : Bool) : Step s (s.advance i unlucky)

/-- What can come of an empty ring. -/
inductive Reachable (capacity : Nat) : Shared α → Prop where
  | start : Reachable capacity { ring := Ring.withCapacity capacity }
  | step {s t : Shared α} : Reachable capacity s → Step s t → Reachable capacity t

/-- No call is under way. -/
def IsQuiet (s : Shared α) : Prop := ∀ c ∈ s.calls, c.hasEnded = true

end Shared

end HttpServer.Ring
