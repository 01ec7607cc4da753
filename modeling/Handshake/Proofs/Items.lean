import Handshake.Manager.Concat

/-!
# Looking through lists of items

A module is a list of items, and four things are collected from it: what it
declares, drives with assigns, stores in processes, and instantiates. Each of
them is found in a list of items part by part, in order, and a group of items
that is left out because it is empty would have contributed nothing. Tagged for
simp, these facts compute the four of any module that is written down as a
sequence of groups.

The wrapper that puts payload and extra signals on one bus is built that way
throughout, and each of its groups is empty for some ports. What the wrapper
consists of is stated here once: buses, assigns in two directions, no process,
and a single instance at the end.
-/

namespace Handshake

namespace Item

/-- What a list of items declares is declared by its parts, one after the other. -/
@[simp] theorem declsOf_append (xs ys : List Item) :
    declsOf (xs ++ ys) = declsOf xs ++ declsOf ys := by
  induction xs with
  | nil => rfl
  | cons x xs ih => rw [List.cons_append, declsOf, declsOf, ih, List.append_assoc]

@[simp] theorem drivesOf_append (xs ys : List Item) :
    drivesOf (xs ++ ys) = drivesOf xs ++ drivesOf ys := by
  induction xs with
  | nil => rfl
  | cons x xs ih => rw [List.cons_append, drivesOf, drivesOf, ih, List.append_assoc]

@[simp] theorem processesOf_append (xs ys : List Item) :
    processesOf (xs ++ ys) = processesOf xs ++ processesOf ys := by
  induction xs with
  | nil => rfl
  | cons x xs ih => rw [List.cons_append, processesOf, processesOf, ih, List.append_assoc]

@[simp] theorem instancesOf_append (xs ys : List Item) :
    instancesOf (xs ++ ys) = instancesOf xs ++ instancesOf ys := by
  induction xs with
  | nil => rfl
  | cons x xs ih => rw [List.cons_append, instancesOf, instancesOf, ih, List.append_assoc]

/-! An item that is left out when its list is empty would have contributed nothing. -/

open Manager

/-- Leaving out an empty group of declarations declares nothing less. -/
@[simp] theorem declsOf_unlessEmpty (ds : List Decl) :
    declsOf (unlessEmpty ds .declarations) = ds := by
  cases ds <;> simp [unlessEmpty, declsOf, decls]

@[simp] theorem declsOf_unlessEmpty_assigns (xs : List Assign) :
    declsOf (unlessEmpty xs .assigns) = [] := by
  cases xs <;> rfl

/-- Leaving out an empty group of assigns drives nothing less. -/
@[simp] theorem drivesOf_unlessEmpty (xs : List Assign) :
    drivesOf (unlessEmpty xs .assigns) = xs := by
  cases xs <;> simp [unlessEmpty, drivesOf, drives]

@[simp] theorem processesOf_unlessEmpty (xs : List Assign) :
    processesOf (unlessEmpty xs .assigns) = [] := by
  cases xs <;> rfl

@[simp] theorem instancesOf_unlessEmpty (xs : List Assign) :
    instancesOf (unlessEmpty xs .assigns) = [] := by
  cases xs <;> rfl

@[simp] theorem drivesOf_unlessEmpty_decls (ds : List Decl) :
    drivesOf (unlessEmpty ds .declarations) = [] := by
  cases ds <;> rfl

@[simp] theorem processesOf_unlessEmpty_decls (ds : List Decl) :
    processesOf (unlessEmpty ds .declarations) = [] := by
  cases ds <;> rfl

@[simp] theorem instancesOf_unlessEmpty_decls (ds : List Decl) :
    instancesOf (unlessEmpty ds .declarations) = [] := by
  cases ds <;> rfl

section Commented

variable (xs : List Assign) (comment : String)

@[simp] theorem declsOf_unlessEmpty_commented :
    declsOf (unlessEmpty xs fun xs => .commented comment [.assigns xs]) = [] := by
  cases xs <;> rfl

/-- A comment above a group of assigns is not seen in what they drive. -/
@[simp] theorem drivesOf_unlessEmpty_commented :
    drivesOf (unlessEmpty xs fun xs => .commented comment [.assigns xs]) = xs := by
  cases xs <;> simp [unlessEmpty, drivesOf, drives]

@[simp] theorem processesOf_unlessEmpty_commented :
    processesOf (unlessEmpty xs fun xs => .commented comment [.assigns xs]) = [] := by
  cases xs <;> rfl

@[simp] theorem instancesOf_unlessEmpty_commented :
    instancesOf (unlessEmpty xs fun xs => .commented comment [.assigns xs]) = [] := by
  cases xs <;> rfl

end Commented

end Item

/-!
The wrapper that carries extra signals through a unit: buses, what drives them,
and one instance.
-/

namespace Manager

variable (inner : String) (ports : List Port) (ins outs : List LaidOut)

/-- The wrapper declares the bus of each of its groups, unless that bus is empty. -/
theorem declsOf_concatBody :
    Item.declsOf (concatBody inner ports ins outs).items =
      (ins ++ outs).flatMap LaidOut.busDecl := by
  simp [concatBody, anonymous, Item.declsOf, Item.decls]

/--
The wrapper drives the buses of its inputs from its ports, and its output ports
from their buses.
-/
theorem drivesOf_concatBody :
    Item.drivesOf (concatBody inner ports ins outs).items =
      ins.flatMap LaidOut.encode ++ outs.flatMap LaidOut.decode := by
  simp [concatBody, anonymous, Item.drivesOf, Item.drives]

/-- The wrapper has no state of its own. -/
theorem processesOf_concatBody : Item.processesOf (concatBody inner ports ins outs).items = [] := by
  simp [concatBody, anonymous, Item.processesOf, Item.processes]

/-- The one part of the wrapper is the unit it wraps, on the buses in place of the payloads. -/
theorem instancesOf_concatBody :
    Item.instancesOf (concatBody inner ports ins outs).items =
      [⟨inner, Role.inner.token, clockWires ++ (ins ++ outs).flatMap LaidOut.wires⟩] := by
  simp [concatBody, anonymous, Item.instancesOf, Item.instances]

/-- The instance is the last item. -/
theorem items_concatBody :
    ∃ own, (concatBody inner ports ins outs).items =
      own ++ [.inst ⟨inner, Role.inner.token, clockWires ++ (ins ++ outs).flatMap LaidOut.wires⟩] ∧
        Item.instancesOf own = [] :=
  ⟨_, rfl, by simp⟩

end Manager

end Handshake
