import Handshake.Layout
import Handshake.Verilog.Module

/-!
# Handshake ports

A handshake port `p` stands for several ports of a module: the payload `p`,
unless it is empty, one `p_s` for each extra signal `s`, then `p_valid`, which
travels with the payload, and `p_ready`, which travels against it. An array of
`n` such ports has the same names, with `n` channels side by side in each, the
first channel lowest.

A group is checked on its own for having a channel, if it is an array, and for
carrying the extra signals of its unit. That no two ports have one name is
checked for all groups of a wrapper together: the port of an extra signal may
turn out to be named like a handshake signal, or like the port of another group.
-/

namespace Handshake

/-- A handshake port, or an array of them. -/
structure PortGroup where
  /-- The name of the payload, and the stem of all other names. -/
  name : String
  /-- The width of the payload of one channel. -/
  width : Nat
  /-- The extra signals of each channel. -/
  extra : ExtraSignals
  /-- The number of channels of an array; `none` for a single port. -/
  size : Option Nat := none
deriving DecidableEq

namespace PortGroup

/-- The number of channels. -/
def channels (g : PortGroup) : Nat := g.size.getD 1

/-- The name of the valid signal. -/
def valid (g : PortGroup) : String := g.name ++ "_valid"

/-- The name of the ready signal. -/
def ready (g : PortGroup) : String := g.name ++ "_ready"

/-- The name of the port of an extra signal. -/
def extraName (g : PortGroup) (signal : String) : String := g.name ++ "_" ++ signal

/-- The name of the port that holds a field. -/
def fieldName (g : PortGroup) : Field → String
  | .primary => g.name
  | .extra signal => g.extraName signal

/--
Checks that an array has a channel, and that the port carries exactly the given
extra signals.
-/
def validate (g : PortGroup) (extra : ExtraSignals) : Except Error Unit :=
  if g.size = some 0 then
    .error (.invalidParameter "size" ("array port " ++ Error.mark g.name ++ " has no channel"))
  else if g.extra = extra then .ok ()
  else .error (ExtraSignals.refusal
    ("port " ++ Error.mark g.name ++ " does not carry the unit's extra signals"))

/-- The ports of a group whose payload travels in the given direction. -/
def ports (g : PortGroup) (direction : Direction) : List Port :=
  (if 0 < g.width then [⟨direction, g.channels * g.width, g.name⟩] else []) ++
    g.extra.signals.map (fun s => ⟨direction, g.channels * s.width, g.extraName s.name⟩) ++
    [⟨direction, g.channels, g.valid⟩, ⟨direction.flip, g.channels, g.ready⟩]

/-- The layout of one channel. -/
def layout (g : PortGroup) : Except Error Layout := Layout.of g.width g.extra

end PortGroup

/-- The ports of a handshake port without extra signals. -/
def handshakePorts (direction : Direction) (name : String) (width channels : Nat) : List Port :=
  PortGroup.ports ⟨name, width, .empty, some channels⟩ direction

/-- The clock and the reset. -/
def clockPorts : List Port := [Port.input 1 "clk", Port.input 1 "rst"]

/--
Checks that no name among `names` is repeated or stands in `seen`; the first
that does is reported.
-/
def checkDistinct (seen : List String) : List String → Except Error Unit
  | [] => .ok ()
  | name :: rest =>
    if seen.contains name then .error (.nameCollision name) else checkDistinct (name :: seen) rest

/-- Checks that ports have distinct names. -/
def checkPorts (ports : List Port) : Except Error Unit := checkDistinct [] (ports.map Port.name)

end Handshake
