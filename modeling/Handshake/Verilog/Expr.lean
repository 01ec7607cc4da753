/-!
# Expressions

The expressions of generated modules: literals, whole signals and selects of
them, concatenations, and a handful of operators. A literal keeps its text,
since the text is what a reader of the module sees; what it is worth is decided
only when it is evaluated.

Text has no tree, so parentheses are part of the expression. The operators below
(`complement`, `apply` and what is built on them) put them in: an operand of a
binary operator is a primary or a negated primary, apart from the left operand
of a chain of one operator, which stays flat. Trees built in any other way are
rendered as they stand.
-/

namespace Handshake

/-- The binary operators of generated modules. -/
inductive BinaryOp where
  /-- Product. -/
  | mul
  /-- Bitwise disjunction. -/
  | or
  /-- Bitwise conjunction. -/
  | and
deriving DecidableEq

/-- An expression. -/
inductive Expr where
  /-- A literal, as written. -/
  | number (literal : String)
  /-- A whole signal. -/
  | ident (name : String)
  /-- One bit of a signal. -/
  | index (name : String) (position : Expr)
  /-- The bits of a signal from `base` on, `length` of them. -/
  | slice (name : String) (base length : Expr)
  /-- Parts side by side, the most significant first. -/
  | concat (parts : List Expr)
  /-- An expression in parentheses. -/
  | paren (inner : Expr)
  /-- Bitwise negation. -/
  | not (operand : Expr)
  /-- A binary operation. -/
  | binary (op : BinaryOp) (lhs rhs : Expr)
  /-- A choice between two expressions. -/
  | cond (test onTrue onFalse : Expr)
deriving Inhabited

namespace Expr

/-! ## Equality -/

mutual
/-- Whether two expressions are the same tree. -/
def same : Expr → Expr → Bool
  | .number l, .number m => l == m
  | .ident n, .ident m => n == m
  | .index n i, .index m j => n == m && same i j
  | .slice n b l, .slice m c k => n == m && same b c && same l k
  | .concat ps, .concat qs => sameAll ps qs
  | .paren e, .paren f => same e f
  | .not e, .not f => same e f
  | .binary o a b, .binary p c d => o == p && same a c && same b d
  | .cond c t e, .cond d u f => same c d && same t u && same e f
  | _, _ => false
/-- Whether two lists of expressions are the same. -/
def sameAll : List Expr → List Expr → Bool
  | [], [] => true
  | e :: es, f :: fs => same e f && sameAll es fs
  | _, _ => false
end

mutual
theorem same_iff : ∀ e f : Expr, same e f = true ↔ e = f
  | .number _, f => by cases f <;> simp [same]
  | .ident _, f => by cases f <;> simp [same]
  | .index _ i, f => by cases f <;> simp [same, same_iff i]
  | .slice _ b l, f => by cases f <;> simp [same, same_iff b, same_iff l, and_assoc]
  | .concat ps, f => by cases f <;> simp [same, sameAll_iff ps]
  | .paren e, f => by cases f <;> simp [same, same_iff e]
  | .not e, f => by cases f <;> simp [same, same_iff e]
  | .binary _ a b, f => by cases f <;> simp [same, same_iff a, same_iff b, and_assoc]
  | .cond c t e, f => by cases f <;> simp [same, same_iff c, same_iff t, same_iff e, and_assoc]
theorem sameAll_iff : ∀ es fs : List Expr, sameAll es fs = true ↔ es = fs
  | [], fs => by cases fs <;> simp [sameAll]
  | e :: es, fs => by cases fs <;> simp [sameAll, same_iff e, sameAll_iff es]
end

instance : DecidableEq Expr := fun e f => decidable_of_iff (same e f = true) (same_iff e f)

/-! ## Leaves and selects -/

/-- A name stands for the whole signal. -/
instance : Coe String Expr := ⟨Expr.ident⟩

/-- A literal of one bit. -/
def bit (b : Bool) : Expr := .number (if b then "1'b1" else "1'b0")

/-- A plain decimal literal. -/
def decimal (n : Nat) : Expr := .number n.repr

/-- Takes one bit of a whole signal. Anything else is returned unchanged. -/
def indexed : Expr → Expr → Expr
  | .ident name, position => .index name position
  | e, _ => e

/-- Takes a run of bits of a whole signal. Anything else is returned unchanged. -/
def sliced : Expr → Expr → Expr → Expr
  | .ident name, base, length => .slice name base length
  | e, _, _ => e

/--
The `width` bits from `lo` on of the signal `name`, which is `total` bits wide.
Selecting the whole signal gives the bare name, so that a signal of one bit is
never indexed.
-/
def select (name : String) (total lo width : Nat) : Expr :=
  if lo = 0 ∧ width = total then .ident name
  else if width = 1 then .index name (decimal lo)
  else .slice name (decimal lo) (decimal width)

/-! ## Operators -/

/-- An expression that stands alone: a literal, a signal or part of one, or a bracketed whole. -/
def isPrimary : Expr → Bool
  | .number _ | .ident _ | .index _ _ | .slice _ _ _ | .concat _ | .paren _ => true
  | .not _ | .binary _ _ _ | .cond _ _ _ => false

/-- An expression that a binary operator takes without parentheses. -/
def isOperand : Expr → Bool
  | .not _ => true
  | e => e.isPrimary

/-- A chain of one operator, which its left operand may continue. -/
def isChainOf (op : BinaryOp) : Expr → Bool
  | .binary p _ _ => p == op
  | _ => false

/-- Negates every bit. -/
def complement (e : Expr) : Expr := .not (if e.isPrimary then e else .paren e)

/-- Combines two expressions, in parentheses where the text needs them. -/
def apply (op : BinaryOp) (lhs rhs : Expr) : Expr :=
  .binary op (if lhs.isOperand || lhs.isChainOf op then lhs else .paren lhs)
    (if rhs.isOperand then rhs else .paren rhs)

/-- Bitwise conjunction. -/
def and (lhs rhs : Expr) : Expr := apply .and lhs rhs

/-- Bitwise disjunction. -/
def or (lhs rhs : Expr) : Expr := apply .or lhs rhs

/-- Product. -/
def mul (lhs rhs : Expr) : Expr := apply .mul lhs rhs

/-- Conjunction of all, true of none. -/
def all : List Expr → Expr
  | [] => bit true
  | e :: rest => rest.foldl and e

/-- Disjunction of all, false of none. -/
def any : List Expr → Expr
  | [] => bit false
  | e :: rest => rest.foldl or e

/-! ## Text -/

end Expr

/-- An operator's sign. -/
def BinaryOp.render : BinaryOp → String
  | .mul => "*"
  | .or => "|"
  | .and => "&"

namespace Expr

mutual
/-- The text of an expression. -/
def render : Expr → String
  | .number literal => literal
  | .ident name => name
  | .index name position => name ++ "[" ++ position.render ++ "]"
  | .slice name base length => name ++ "[" ++ base.render ++ " +: " ++ length.render ++ "]"
  | .concat parts => "\x7b" ++ ", ".intercalate (renderAll parts) ++ "\x7d"
  | .paren inner => "(" ++ inner.render ++ ")"
  | .not operand => "~" ++ operand.render
  | .binary op lhs rhs => lhs.render ++ " " ++ op.render ++ " " ++ rhs.render
  | .cond test onTrue onFalse =>
    test.render ++ " ? " ++ onTrue.render ++ " : " ++ onFalse.render
/-- The text of each expression. -/
def renderAll : List Expr → List String
  | [] => []
  | e :: rest => e.render :: renderAll rest
end

end Expr

end Handshake
