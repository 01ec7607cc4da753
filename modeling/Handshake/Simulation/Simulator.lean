import Handshake.Simulation.Eval

/-!
# Simulating a module, cycle by cycle

Continuous assigns are evaluated one after the other, again and again, until a
whole pass changes nothing. If assigns do not depend on each other in a circle,
each pass settles one more of them at least, so one pass more than there are
assigns must be quiet. A clock edge first settles, then runs all processes on
the settled values, then writes what they scheduled, in order, and settles
again. Instances are passed over: a module with submodules is flattened first.

A simulator is a circuit and the values of its signals. Setting a signal cuts
the value to the declared width. Nothing distinguishes inputs from other
signals; a value that is set on a driven signal lasts until assigns are settled.
-/

namespace Handshake

/-- What of a module matters to a simulation. -/
structure Circuit where
  /-- The name of the module. -/
  name : String
  /-- The declared widths. -/
  widths : Widths
  /-- The continuous assigns, in order. -/
  assigns : List Assign
  /-- The processes, in order. -/
  processes : List (List Statement)

namespace Module

/-- The declared signals of a module with their widths, in order: ports, then declarations. -/
def signals (m : Module) : List (String × Nat) :=
  m.ports.map (fun p => (p.name, p.width)) ++ (Item.declsOf m.items).map fun d => (d.name, d.width)

/-- A module as a circuit. Of two declarations of one name, the later one counts. -/
def circuit (m : Module) : Circuit where
  name := m.name
  widths := ⟨m.signals.reverse⟩
  assigns := Item.drivesOf m.items
  processes := Item.processesOf m.items

end Module

namespace Circuit

variable (c : Circuit)

/-- Evaluates one assign. -/
def assign (values : Valuation) (a : Assign) : Except Fault Valuation := do
  let bits ← a.value.eval c.widths values
  a.target.write c.widths values bits.value

/-- Evaluates all assigns once, in order. -/
def pass (values : Valuation) : Except Fault Valuation := c.assigns.foldlM c.assign values

/-- Evaluates all assigns until a pass changes nothing, with a limit on the number of passes. -/
def settleWithin : Nat → Valuation → Except Fault Valuation
  | 0, _ => .error (.unsettled c.name)
  | n + 1, values => do
    let next ← c.pass values
    if next = values then return next else settleWithin n next

/-- Settles the continuous assigns. -/
def settle (values : Valuation) : Except Fault Valuation :=
  c.settleWithin (c.assigns.length + 1) values

mutual
/-- What a statement schedules. -/
def schedule (values : Valuation) : Statement → Except Fault (List (Expr × Word))
  | .branch test onTrue onFalse => do
    let bits ← test.eval c.widths values
    if bits.value = 0 then scheduleAll values onFalse else scheduleAll values onTrue
  | .nonblocking target value => do
    let bits ← value.eval c.widths values
    return [(target, bits.value)]
/-- What statements schedule, in order. -/
def scheduleAll (values : Valuation) : List Statement → Except Fault (List (Expr × Word))
  | [] => .ok []
  | s :: rest => do
    let first ← schedule values s
    let later ← scheduleAll values rest
    return first ++ later
end

/-- What all processes schedule, in order. -/
def scheduled (values : Valuation) : Except Fault (List (Expr × Word)) :=
  c.scheduleAll values c.processes.flatten

/-- Writes what was scheduled, in order. -/
def commit (values : Valuation) (pending : List (Expr × Word)) : Except Fault Valuation :=
  pending.foldlM (fun v (target, value) => target.write c.widths v value) values

/-- A rising edge of the clock. -/
def tick (values : Valuation) : Except Fault Valuation := do
  let settled ← c.settle values
  let pending ← c.scheduled settled
  let written ← c.commit settled pending
  c.settle written

/-- Drives a declared signal from outside; the value is cut to the signal's width. -/
def set (values : Valuation) (name : String) (value : Word) : Except Fault Valuation := do
  let width ← c.widths.get name
  return values.put name (value.low width)

end Circuit

/-- A circuit together with the values of its signals. -/
structure Simulator where
  /-- The circuit. -/
  circuit : Circuit
  /-- The values. -/
  values : Valuation

namespace Simulator

/-- A simulator of a module, with every signal at zero. -/
def start (m : Module) : Simulator := ⟨m.circuit, .zero⟩

/-- The value of a signal. -/
def get (s : Simulator) (name : String) : Word := s.values.get name

/-- Replaces the values. -/
def withValues (s : Simulator) (values : Valuation) : Simulator := { s with values }

/-- Drives a signal. -/
def set (s : Simulator) (name : String) (value : Word) : Except Fault Simulator :=
  (s.circuit.set s.values name value).map s.withValues

/-- Settles the continuous assigns. -/
def settle (s : Simulator) : Except Fault Simulator := (s.circuit.settle s.values).map s.withValues

/-- A rising edge of the clock. -/
def tick (s : Simulator) : Except Fault Simulator := (s.circuit.tick s.values).map s.withValues

end Simulator

end Handshake
