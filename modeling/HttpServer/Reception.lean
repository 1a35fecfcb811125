import HttpServer.Context
import HttpServer.Parse.Bytewise

/-!
# Receptions

A request that comes in bit by bit over a stream that never waits. Whenever something has
arrived, `advance?` takes all of it and tells whether the request is complete; then `finish`
makes the context. Where the parser panics there is no answer; `advance` is the same without a
bound on the room for a body.
-/

namespace HttpServer

/-- A request that is being received. -/
structure Reception where
  /-- The stream with what was read ahead. -/
  reader : Reader Stream
  /-- The parser with what was read of the request. -/
  parser : ByteParser
  /-- Where the connection comes from. -/
  peer? : Option Address := none

namespace Reception

/-- The start of a reception. -/
def ofStream (limits : Limits) (stream : Stream) (peer? : Option Address) : Reception :=
  { reader := Reader.ofSource stream, parser := ByteParser.ofLimits limits, peer? }

/-- The stream of the connection. -/
def stream (r : Reception) : Stream := r.reader.source

/-- The stream stands on a descriptor that readiness can be asked of. -/
def hasDescriptor (r : Reception) : Bool := r.stream.hasDescriptor

/-- Takes what has arrived, without a bound on the room for a body. The answer is pending if the
stream has nothing more at the moment. An end of the stream inside the body is a body of the
wrong length; any other end or failure is a failure to read. -/
def advance (r : Reception) : Except ParseError Progress × Reception :=
  match _h : r.reader.readByte with
  | (.byte b, reader) =>
    match r.parser.feed b with
    | (.ok .pending, parser) => advance { r with reader, parser }
    | (x, parser) => (x, { r with reader, parser })
  | (.wouldBlock, reader) => (.ok .pending, { r with reader })
  | (.eof, reader) => (.error r.parser.endError, { r with reader })
  | (.error _, reader) => (.error .read, { r with reader })
termination_by r.reader.remaining
decreasing_by exact Reader.remaining_readByte_byte _h

theorem advance_eq (r : Reception) :
    r.advance =
      match r.reader.readByte with
      | (.byte b, reader) =>
        match r.parser.feed b with
        | (.ok .pending, parser) => advance { r with reader, parser }
        | (x, parser) => (x, { r with reader, parser })
      | (.wouldBlock, reader) => (.ok .pending, { r with reader })
      | (.eof, reader) => (.error r.parser.endError, { r with reader })
      | (.error _, reader) => (.error .read, { r with reader }) := by
  rw [advance]
  split
  · rename_i hread
    rw [hread]
  all_goals simp only [*]

/-- Takes what has arrived. It is a panic if there can be no room for the body. -/
def advance? (r : Reception) : Option (Except ParseError Progress × Reception) :=
  match _h : r.reader.readByte with
  | (.byte b, reader) =>
    match r.parser.feed? b with
    | none => none
    | some (.ok .pending, parser) => advance? { r with reader, parser }
    | some (x, parser) => some (x, { r with reader, parser })
  | (.wouldBlock, reader) => some (.ok .pending, { r with reader })
  | (.eof, reader) => some (.error r.parser.endError, { r with reader })
  | (.error _, reader) => some (.error .read, { r with reader })
termination_by r.reader.remaining
decreasing_by exact Reader.remaining_readByte_byte _h

theorem advance?_eq (r : Reception) :
    r.advance? =
      match r.reader.readByte with
      | (.byte b, reader) =>
        match r.parser.feed? b with
        | none => none
        | some (.ok .pending, parser) => advance? { r with reader, parser }
        | some (x, parser) => some (x, { r with reader, parser })
      | (.wouldBlock, reader) => some (.ok .pending, { r with reader })
      | (.eof, reader) => some (.error r.parser.endError, { r with reader })
      | (.error _, reader) => some (.error .read, { r with reader }) := by
  rw [advance?]
  split
  · rename_i hread
    rw [hread]
  all_goals simp only [*]

/-- The context of the request, or of its rejection. -/
def finish (r : Reception) (error? : Option ParseError) : Context :=
  match error? with
  | none => Context.ofParsed (.ok r.parser.takeRequest.1) r.reader.intoSource r.peer?
  | some e => Context.ofParsed (.error e) r.reader.intoSource r.peer?

/-- Gives the connection up. -/
def abort (r : Reception) : Stream := r.reader.intoSource.close

end Reception

end HttpServer
