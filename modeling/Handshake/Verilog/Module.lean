import Handshake.Verilog.Expr

/-!
# Modules

A module has a name, ports and items. Items are declarations, continuous
assigns, instances of other modules, clocked processes, and groups of items
under a line comment. A comment may hold comments, so everything that looks
through the items of a module looks through its comments as well.

Statements are nonblocking assignments and branches, and an instance connects
ports by name, leaving some of them open. No widths are checked here and no
names resolved: a module is what can be written down, and what it means is said
by the simulator.
-/

namespace Handshake

/-- The side of a module on which a signal enters or leaves it. -/
inductive Direction where
  /-- Into the module. -/
  | input
  /-- Out of the module. -/
  | output
deriving DecidableEq

/-- The other direction. -/
def Direction.flip : Direction → Direction
  | .input => .output
  | .output => .input

/-- A port of a module. -/
structure Port where
  /-- Which way the port's signal travels. -/
  direction : Direction
  /-- Its width in bits. -/
  width : Nat
  /-- Its name. -/
  name : String
deriving DecidableEq

/-- Whether a declared signal is driven all the time or holds what a process gave it. -/
inductive Storage where
  /-- Driven by a continuous assign or by an instance. -/
  | net
  /-- Assigned by a process. -/
  | reg
deriving DecidableEq

/-- A signal declared inside a module. -/
structure Decl where
  /-- Net or register. -/
  storage : Storage
  /-- Its width in bits. -/
  width : Nat
  /-- Its name. -/
  name : String
deriving DecidableEq

/-- A continuous assign. -/
structure Assign where
  /-- What is driven. -/
  target : Expr
  /-- What drives it. -/
  value : Expr
deriving DecidableEq

/-- A statement of a process. -/
inductive Statement where
  /-- Runs one of two lists of statements. -/
  | branch (test : Expr) (onTrue onFalse : List Statement)
  /-- Schedules a value for a signal, to take effect when all processes have run. -/
  | nonblocking (target value : Expr)

/-- An instance of a module inside another one. -/
structure Instance where
  /-- The name of the instantiated module. -/
  moduleName : String
  /-- The name of the instance. -/
  name : String
  /-- What each named port is connected to; `none` leaves the port open. -/
  connections : List (String × Option Expr)
deriving DecidableEq

/-- An item of a module. -/
inductive Item where
  /-- Declarations, one a line. -/
  | declarations (list : List Decl)
  /-- Continuous assigns, one a line. -/
  | assigns (list : List Assign)
  /-- An instance of another module. -/
  | inst (placed : Instance)
  /-- A process, run at an event. -/
  | always (event : String) (body : List Statement)
  /-- Items below a line comment. -/
  | commented (comment : String) (items : List Item)

/-- A module. -/
structure Module where
  /-- Its name. -/
  name : String
  /-- Its ports, in the order of declaration. -/
  ports : List Port
  /-- Its items, in order. -/
  items : List Item

/-! ## Equality -/

namespace Statement

mutual
/-- Whether two statements are the same. -/
def same : Statement → Statement → Bool
  | .branch c t e, .branch d u f => c == d && sameAll t u && sameAll e f
  | .nonblocking a b, .nonblocking c d => a == c && b == d
  | _, _ => false
/-- Whether two lists of statements are the same. -/
def sameAll : List Statement → List Statement → Bool
  | [], [] => true
  | s :: ss, t :: ts => same s t && sameAll ss ts
  | _, _ => false
end

mutual
theorem same_iff : ∀ s t : Statement, same s t = true ↔ s = t
  | .branch _ t e, s => by cases s <;> simp [same, sameAll_iff t, sameAll_iff e, and_assoc]
  | .nonblocking _ _, s => by cases s <;> simp [same]
theorem sameAll_iff : ∀ ss ts : List Statement, sameAll ss ts = true ↔ ss = ts
  | [], ts => by cases ts <;> simp [sameAll]
  | s :: ss, ts => by cases ts <;> simp [sameAll, same_iff s, sameAll_iff ss]
end

instance : DecidableEq Statement := fun s t => decidable_of_iff (same s t = true) (same_iff s t)

end Statement

namespace Item

mutual
/-- Whether two items are the same. -/
def same : Item → Item → Bool
  | .declarations ds, .declarations es => ds == es
  | .assigns xs, .assigns ys => xs == ys
  | .inst i, .inst j => i == j
  | .always e ss, .always f ts => e == f && ss == ts
  | .commented c is, .commented d js => c == d && sameAll is js
  | _, _ => false
/-- Whether two lists of items are the same. -/
def sameAll : List Item → List Item → Bool
  | [], [] => true
  | i :: is, j :: js => same i j && sameAll is js
  | _, _ => false
end

mutual
theorem same_iff : ∀ i j : Item, same i j = true ↔ i = j
  | .declarations _, j => by cases j <;> simp [same]
  | .assigns _, j => by cases j <;> simp [same]
  | .inst _, j => by cases j <;> simp [same]
  | .always _ _, j => by cases j <;> simp [same]
  | .commented _ is, j => by cases j <;> simp [same, sameAll_iff is]
theorem sameAll_iff : ∀ is js : List Item, sameAll is js = true ↔ is = js
  | [], js => by cases js <;> simp [sameAll]
  | i :: is, js => by cases js <;> simp [sameAll, same_iff i, sameAll_iff is]
end

instance : DecidableEq Item := fun i j => decidable_of_iff (same i j = true) (same_iff i j)

end Item

deriving instance DecidableEq for Module

/-! ## Building items -/

/-- An input port. -/
def Port.input (width : Nat) (name : String) : Port := ⟨.input, width, name⟩

/-- An output port. -/
def Port.output (width : Nat) (name : String) : Port := ⟨.output, width, name⟩

/-- A declared net. -/
def Decl.net (width : Nat) (name : String) : Decl := ⟨.net, width, name⟩

/-- A declared register. -/
def Decl.reg (width : Nat) (name : String) : Decl := ⟨.reg, width, name⟩

/-- A process run at every rising edge of `clk`. -/
def Item.clocked (body : List Statement) : Item := .always "always @(posedge clk)" body

/-! ## Looking through items -/

namespace Item

mutual
/-- The instances of an item, in order. -/
def instances : Item → List Instance
  | .inst i => [i]
  | .commented _ items => instancesOf items
  | .declarations _ | .assigns _ | .always _ _ => []
/-- The instances of some items, in order. -/
def instancesOf : List Item → List Instance
  | [] => []
  | item :: rest => item.instances ++ instancesOf rest
end

mutual
/-- The declarations of an item, in order. -/
def decls : Item → List Decl
  | .declarations ds => ds
  | .commented _ items => declsOf items
  | .assigns _ | .inst _ | .always _ _ => []
/-- The declarations of some items, in order. -/
def declsOf : List Item → List Decl
  | [] => []
  | item :: rest => item.decls ++ declsOf rest
end

mutual
/-- The continuous assigns of an item, in order. -/
def drives : Item → List Assign
  | .assigns xs => xs
  | .commented _ items => drivesOf items
  | .declarations _ | .inst _ | .always _ _ => []
/-- The continuous assigns of some items, in order. -/
def drivesOf : List Item → List Assign
  | [] => []
  | item :: rest => item.drives ++ drivesOf rest
end

mutual
/-- The processes of an item, in order. -/
def processes : Item → List (List Statement)
  | .always _ body => [body]
  | .commented _ items => processesOf items
  | .declarations _ | .assigns _ | .inst _ => []
/-- The processes of some items, in order. -/
def processesOf : List Item → List (List Statement)
  | [] => []
  | item :: rest => item.processes ++ processesOf rest
end

end Item

namespace Module

/-- The first port of the given name. -/
def port? (m : Module) (name : String) : Option Port := m.ports.find? fun p => p.name == name

/-- The modules that a module instantiates, each once, in the order of first instantiation. -/
def instantiated (m : Module) : List String :=
  ((Item.instancesOf m.items).map Instance.moduleName).foldl
    (fun seen name => if seen.contains name then seen else seen ++ [name]) []

end Module

end Handshake
