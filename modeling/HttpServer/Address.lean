import HttpServer.Bytes

/-!
# Network addresses

The text of the address a connection comes from. An IPv6 address is written with the
longest run of two or more zero groups left out, the first such run if several are equally
long, and an address that stands for an IPv4 one ends in its dotted form.
-/

namespace HttpServer

/-- The address of a host. -/
inductive IpAddress where
  /-- Four numbers below 256. -/
  | v4 (a b c d : UInt8)
  /-- Eight groups of 16 bits. -/
  | v6 (groups : List UInt16)
deriving DecidableEq, Repr

namespace IpAddress

/-- A group in hexadecimal, without leading zeros. -/
def groupText (g : UInt16) : String := String.ofList (Nat.toDigits 16 g.toNat)

def dotted (a b c d : UInt8) : String := s!"{a.toNat}.{b.toNat}.{c.toNat}.{d.toNat}"

/-- Groups with a colon between each two. -/
def groupsText (l : List UInt16) : String := ":".intercalate (l.map groupText)

/-- The start and the length of the longest run of zeros, the first of several. The
arguments before the list are the position, the run that ends there and the best run so
far. -/
def longestZeros (pos start len bestStart bestLen : Nat) : List UInt16 → Nat × Nat
  | [] => (bestStart, bestLen)
  | g :: l =>
    if g = 0 then
      let start := if len = 0 then pos else start
      let len := len + 1
      if bestLen < len then longestZeros (pos + 1) start len start len l
      else longestZeros (pos + 1) start len bestStart bestLen l
    else longestZeros (pos + 1) 0 0 bestStart bestLen l

/-- The text of an address. -/
def text : IpAddress → String
  | v4 a b c d => dotted a b c d
  | v6 [0, 0, 0, 0, 0, 0xFFFF, x, y] =>
    s!"::ffff:{dotted (x >>> 8).toUInt8 x.toUInt8 (y >>> 8).toUInt8 y.toUInt8}"
  | v6 groups =>
    let (start, len) := longestZeros 0 0 0 0 0 groups
    if 1 < len then s!"{groupsText (groups.take start)}::{groupsText (groups.drop (start + len))}"
    else groupsText groups

end IpAddress

/-- Where a connection comes from. -/
structure Address where
  /-- The host. -/
  ip : IpAddress
  /-- The port on that host. -/
  port : Nat
  /-- The zone of an IPv6 address, zero for none. -/
  scope : Nat
deriving DecidableEq, Repr

namespace Address

/-- Host and port; an IPv6 address stands in brackets, with its zone if it has one. -/
def text (a : Address) : String :=
  match a.ip with
  | .v4 .. => s!"{a.ip.text}:{a.port}"
  | .v6 _ =>
    if a.scope = 0 then s!"[{a.ip.text}]:{a.port}" else s!"[{a.ip.text}%{a.scope}]:{a.port}"

/-- The address in the form of a `Host` header : the port is left out where it says
nothing. -/
def hostText (a : Address) : String :=
  if a.port = 0 ∨ a.port = 80 then a.ip.text else a.text

/-- The address as the bytes of a `Host` header. -/
def host (a : Address) : Bytes := utf8 a.hostText

end Address

end HttpServer
