import HttpServer.Demo.PingEcho

/-!
# The program on the command line

Takes the name of an engine and a port, and a filter for its log from the environment. It
has no network of its own, so every attempt to listen is refused.
-/

open HttpServer

/-- Runs the program and writes what it says. -/
def main (args : List String) : IO Unit := do
  let name? ← IO.getEnv "LOG"
  let filter := (name?.bind Filter.ofName?).getD Filter.usual
  let refused : IoError := { kind := .other, text := "no network" }
  let out := Demo.PingEcho.run 1 args filter { listen := fun _ => .error refused }
  for line in out.lines do
    IO.println line
  if let some e := out.error? then
    IO.eprintln e.message
