import HttpServer.Dispatcher

/-!
# A page with a greeting
-/

namespace HttpServer.Demo.HelloWorld

/-- Greets. -/
def hello : Handler := do
  Handling.respond fun r => r.withText "Hello, world!"
  return .ok

/-- The routes of the program. -/
def routes : List Route := [⟨utf8 "/", .get, hello⟩]

end HttpServer.Demo.HelloWorld
