/-!
# Log lines

What the library says about its work is part of the result of each operation : a list of
lines, in the order in which they are said. A `Logger` decides what becomes of a line, and
a `Filter` which of them a reader sees.
-/

namespace HttpServer

/-- How much a line matters. -/
inductive Level where
  | error
  | warn
  | info
  | debug
  | trace
deriving DecidableEq, Repr, Inhabited

namespace Level

/-- The name of a level in front of a line. -/
def name : Level → String
  | error => "ERROR"
  | warn => "WARN"
  | info => "INFO"
  | debug => "DEBUG"
  | trace => "TRACE"

/-- How chatty a level is. -/
def rank : Level → Nat
  | error => 1
  | warn => 2
  | info => 3
  | debug => 4
  | trace => 5

end Level

/-- A line of a log. -/
structure LogLine where
  /-- How much it matters. -/
  level : Level
  /-- What it says. -/
  message : String
deriving DecidableEq, Repr, Inhabited

/-- A line for the listeners of the whole program, with the part of the program that says
it. -/
structure Event where
  /-- What is said. -/
  line : LogLine
  /-- Who says it, if anyone in particular. -/
  component? : Option String := none
deriving DecidableEq, Repr, Inhabited

/-- The line with its level in front and who said it behind. -/
def Event.text (e : Event) : String :=
  s!"{e.line.level.name} {e.line.message}" ++
    match e.component? with
    | some c => s!" component=\"{c}\""
    | none => ""

/-- What becomes of the lines of a part of the program. -/
inductive Logger where
  /-- They are lost. -/
  | silent
  /-- They are kept in a log of their own. -/
  | recording
  /-- They go to the listeners of the whole program, under the name of the part. -/
  | forwarding (component : String)
deriving DecidableEq, Repr

namespace Logger

/-- What a line adds to a log of its own. -/
def kept : Logger → List LogLine → List LogLine
  | recording, l => l
  | _, _ => []

/-- What the listeners of the whole program hear of a line. -/
def events : Logger → List LogLine → List Event
  | forwarding component, l => l.map fun line => { line, component? := some component }
  | _, _ => []

end Logger

/-- Which lines a reader sees : those up to a level, or none at all. -/
inductive Filter where
  | off
  | upTo (level : Level)
deriving DecidableEq, Repr

namespace Filter

/-- The filter used where none is named. -/
def usual : Filter := .upTo .info

/-- The levels from the most to the least important. -/
def levels : List Level := [.error, .warn, .info, .debug, .trace]

/-- The filter with the given name, in any case of its letters. -/
def ofName? (s : String) : Option Filter :=
  let name := s.map Char.toUpper
  if name = "OFF" then some off else (levels.find? fun l => l.name = name).map upTo

/-- The line is seen. -/
def passes : Filter → Level → Bool
  | off, _ => false
  | upTo most, l => l.rank ≤ most.rank

end Filter

end HttpServer
