import Handshake.Proofs.Blocks
import Handshake.Proofs.Arbitration

/-!
# Widths, without running anything

The width of an expression follows from the widths of the signals it mentions.
Here it exists only for expressions that a careful reader would pass: every name
is declared, selects are made of signals of several bits and stay inside them,
the operands of an operator agree, and what is tested is one bit. A module is
balanced if the two sides of its assignments agree in width, and so do its
connections with the ports they belong to. In a balanced module everything that
is mentioned is declared and every select is in range.

None of this refers to the simulator, whose own idea of a width is laxer: it
cuts and pads where the two sides of an assignment differ. The widths here are
what a tool that only reads the text can compute, so positions and lengths have
to be numbers that are written out. The constructors of expressions respect
them, which is one lemma for each constructor at the end of the first part.
-/

namespace Handshake

/-! ## Literals -/

namespace Literal

/-- A decimal digit read in base ten is worth its distance from zero. -/
theorem digit?_of_isDigit {c : Char} (h : c.isDigit = true) :
    digit? 10 c = some (c.toNat - '0'.toNat) := by
  obtain ⟨hzero, hnine⟩ := Char.isDigit_iff_toNat.mp h
  have hten : '9'.toNat - '0'.toNat < 10 := by decide
  rw [digit?, if_pos ⟨h, by omega⟩]

/-- Reading digits one at a time never fails on decimal ones, and gives the number they spell. -/
theorem foldlM_digit? {cs : List Char} (h : ∀ c ∈ cs, c.isDigit = true) (value : Nat) :
    cs.foldlM (fun value c => (digit? 10 c).map fun d => 10 * value + d) value =
      some (Nat.ofDigitChars 10 cs value) := by
  induction cs generalizing value with
  | nil => rfl
  | cons c cs ih =>
      obtain ⟨hc, hcs⟩ := List.forall_mem_cons.mp h
      rw [List.foldlM_cons, digit?_of_isDigit hc, Nat.ofDigitChars_cons]
      exact ih hcs _

/-- The digits of a number make that number. -/
theorem digits?_repr (n : Nat) : digits? 10 n.repr.toList = some n := by
  have hdigits : ∀ c ∈ Nat.toDigits 10 n, c.isDigit = true := fun c hc =>
    Nat.isDigit_of_mem_toDigits (by decide) (by decide) hc
  have hsome : (Nat.toDigits 10 n).isEmpty = false :=
    List.isEmpty_eq_false_iff.mpr Nat.toDigits_ne_nil
  rw [digits?, Nat.toList_repr, hsome, foldlM_digit? hdigits, Nat.ofDigitChars_ten_toDigits]
  rfl

end Literal

/-! ## Expressions -/

namespace Expr

/-- The number that a plain decimal literal spells. -/
def count? : Expr → Option Nat
  | .number literal => Literal.digits? 10 literal.toList
  | _ => none

/-- A number that a constructor writes out reads back as itself. -/
theorem count?_decimal (n : Nat) : (decimal n).count? = some n := Literal.digits?_repr n

/-- What reads as a number is a literal, so it mentions no signal. -/
theorem names_of_count {e : Expr} {n : Nat} (h : e.count? = some n) : e.names = [] := by
  cases e with
  | number => rfl
  | _ => exact absurd h (by simp [count?])

section

variable (declared : String → Option Nat)

mutual
/-- The width of an expression, from those of the declared signals. -/
def width? : Expr → Option Nat
  | .number literal => (Literal.parse? literal).map Bits.width
  | .ident name => declared name
  | .index name position =>
    match declared name, position.count? with
    | some total, some lo => if 1 < total ∧ lo < total then some 1 else none
    | _, _ => none
  | .slice name base length =>
    match declared name, base.count?, length.count? with
    | some total, some lo, some count => if 1 < total ∧ 0 < count ∧
        lo + count ≤ total then some count else none
    | _, _, _ => none
  | .concat parts => widthAll? parts
  | .paren inner => width? inner
  | .not operand => width? operand
  | .binary _ lhs rhs => if width? lhs = width? rhs then width? lhs else none
  | .cond test onTrue onFalse =>
    if width? test = some 1 ∧ width? onTrue = width? onFalse then width? onTrue else none
/-- The width of expressions side by side. -/
def widthAll? : List Expr → Option Nat
  | [] => some 0
  | part :: rest =>
    match width? part, widthAll? rest with
    | some width, some others => some (width + others)
    | _, _ => none
end

/--
What must hold of an expression at its root: a select stays inside its signal,
which has several bits, and a condition is one bit.
-/
def Sound : Expr → Prop
  | .index name position =>
    ∃ total lo, declared name = some total ∧ position.count? = some lo ∧ 1 < total ∧ lo < total
  | .slice name base length =>
    ∃ total lo count, declared name = some total ∧ base.count? = some lo ∧
      length.count? = some count ∧
      1 < total ∧ 0 < count ∧ lo + count ≤ total
  | .cond test _ _ => width? declared test = some 1
  | .number _ | .ident _ | .concat _ | .paren _ | .not _ | .binary _ _ _ => True

end

mutual
/-- An expression and all expressions inside of it. -/
def subterms : Expr → List Expr
  | .number literal => [.number literal]
  | .ident name => [.ident name]
  | .index name position => .index name position :: subterms position
  | .slice name base length => .slice name base length :: (subterms base ++ subterms length)
  | .concat parts => .concat parts :: subtermsAll parts
  | .paren inner => .paren inner :: subterms inner
  | .not operand => .not operand :: subterms operand
  | .binary op lhs rhs => .binary op lhs rhs :: (subterms lhs ++ subterms rhs)
  | .cond test onTrue onFalse =>
      .cond test onTrue onFalse :: (subterms test ++ (subterms onTrue ++ subterms onFalse))
/-- All expressions inside of some expressions. -/
def subtermsAll : List Expr → List Expr
  | [] => []
  | part :: rest => subterms part ++ subtermsAll rest
end

variable {declared : String → Option Nat} {name : String} {width : Nat}

/-! What it means that an expression has a width, constructor by constructor. -/

/-- A single bit is selected from inside of a signal that has several. -/
theorem width?_index {position : Expr} :
    (index name position).width? declared = some width ↔
      width = 1 ∧ ∃ total lo, declared name = some total ∧ position.count? = some lo ∧ 1 < total ∧
        lo < total := by
  unfold width?
  split
  · rename_i total lo htotal hlo
    simp [htotal, hlo, eq_comm, and_comm]
  · rename_i hnone
    simp only [reduceCtorEq, false_iff, not_and, not_exists]
    intro _ total lo htotal hlo
    exact absurd hlo (hnone total lo htotal)

/-- A selected part is not empty, and lies inside of a signal that has several bits. -/
theorem width?_slice {base length : Expr} :
    (slice name base length).width? declared = some width ↔
      length.count? = some width ∧ ∃ total lo, declared name = some total ∧ base.count? = some lo ∧
        1 < total ∧ 0 < width ∧ lo + width ≤ total := by
  unfold width?
  split
  · rename_i total lo count htotal hlo hcount
    simp only [htotal, hlo, hcount, Option.some.injEq, Option.ite_none_right_eq_some]
    constructor
    · rintro ⟨hrange, rfl⟩
      exact ⟨rfl, total, lo, rfl, rfl, hrange⟩
    · rintro ⟨rfl, _, _, rfl, rfl, hrange⟩
      exact ⟨hrange, rfl⟩
  · rename_i hnone
    simp only [reduceCtorEq, false_iff, not_and, not_exists]
    intro hlength total lo htotal hlo
    exact absurd hlength (hnone total lo width htotal hlo)

/-- Operands are as wide as each other, and the result is as wide as they are. -/
theorem width?_binary {op : BinaryOp} {lhs rhs : Expr} :
    (binary op lhs rhs).width? declared = some width ↔
      lhs.width? declared = some width ∧ rhs.width? declared = some width := by
  rw [width?, Option.ite_none_right_eq_some]
  constructor
  · intro h
    exact ⟨h.2, h.1 ▸ h.2⟩
  · intro h
    exact ⟨h.1.trans h.2.symm, h.1⟩

/-- A test is one bit, and its outcomes are as wide as each other. -/
theorem width?_cond {test onTrue onFalse : Expr} :
    (cond test onTrue onFalse).width? declared = some width ↔
      test.width? declared = some 1 ∧ onTrue.width? declared = some width ∧
        onFalse.width? declared = some width := by
  rw [width?, Option.ite_none_right_eq_some]
  constructor
  · intro h
    exact ⟨h.1.1, h.2, h.1.2 ▸ h.2⟩
  · intro h
    exact ⟨⟨h.1, h.2.1.trans h.2.2.symm⟩, h.2.1⟩

theorem widthAll?_cons {part : Expr} {rest : List Expr} :
    widthAll? declared (part :: rest) = some width ↔
      ∃ first others, part.width? declared = some first ∧ widthAll? declared rest = some others ∧
        width = first + others := by
  rw [widthAll?]
  split
  · rename_i first others hfirst hothers
    simp [hfirst, hothers, eq_comm]
  · rename_i hnone
    simp only [reduceCtorEq, false_iff, not_exists, not_and]
    intro first others hfirst hothers
    exact absurd hothers (hnone first others hfirst)

/-!
An expression that has a width mentions declared signals only, and all of its
parts are sound.
-/

mutual
/-- An expression that has a width mentions declared signals only. -/
theorem declared_of_width : ∀ (e : Expr) {width : Nat}, e.width? declared = some width →
    ∀ name ∈ e.names, ∃ total, declared name = some total
  | .number _, _, _, _, hname => absurd hname List.not_mem_nil
  | .ident _, width, h, _, hname => List.mem_singleton.mp hname ▸ ⟨width, h⟩
  | .index _ _, _, h, _, hname => by
      obtain ⟨-, total, lo, htotal, hlo, -⟩ := width?_index.mp h
      rw [names, names_of_count hlo] at hname
      exact List.mem_singleton.mp hname ▸ ⟨total, htotal⟩
  | .slice _ _ _, _, h, _, hname => by
      obtain ⟨hlength, total, lo, htotal, hlo, -⟩ := width?_slice.mp h
      rw [names, names_of_count hlo, names_of_count hlength] at hname
      exact List.mem_singleton.mp hname ▸ ⟨total, htotal⟩
  | .concat parts, _, h, name, hname => declared_of_widthAll parts h name hname
  | .paren inner, _, h, name, hname => declared_of_width inner h name hname
  | .not operand, _, h, name, hname => declared_of_width operand h name hname
  | .binary _ lhs rhs, _, h, name, hname => by
      obtain ⟨hl, hr⟩ := width?_binary.mp h
      exact (List.mem_append.mp hname).elim (declared_of_width lhs hl name)
        (declared_of_width rhs hr name)
  | .cond test onTrue onFalse, _, h, name, hname => by
      obtain ⟨htest, htrue, hfalse⟩ := width?_cond.mp h
      rcases List.mem_append.mp hname with hname | hname
      · exact declared_of_width test htest name hname
      · exact (List.mem_append.mp hname).elim (declared_of_width onTrue htrue name)
          (declared_of_width onFalse hfalse name)
theorem declared_of_widthAll :
    ∀ (parts : List Expr) {width : Nat}, widthAll? declared parts = some width →
    ∀ name ∈ namesAll parts, ∃ total, declared name = some total
  | [], _, _, _, hname => absurd hname List.not_mem_nil
  | part :: rest, _, h, name, hname => by
      obtain ⟨first, others, hfirst, hothers, -⟩ := widthAll?_cons.mp h
      exact (List.mem_append.mp hname).elim (declared_of_width part hfirst name)
        (declared_of_widthAll rest hothers name)
end

theorem sound_of_count {e : Expr} {n : Nat} (h : e.count? = some n) :
    ∀ s ∈ e.subterms, s.Sound declared := by
  cases e with
  | number => exact List.forall_mem_singleton.mpr trivial
  | _ => exact absurd h (by simp [count?])

mutual
/--
An expression that has a width is sound all the way down: none of its subterms
selects outside of a signal or tests more than one bit.
-/
theorem sound_of_width : ∀ (e : Expr) {width : Nat}, e.width? declared = some width →
    ∀ s ∈ e.subterms, s.Sound declared
  | .number _, _, _ => List.forall_mem_singleton.mpr trivial
  | .ident _, _, _ => List.forall_mem_singleton.mpr trivial
  | .index _ _, _, h => by
      obtain ⟨-, total, lo, htotal, hlo, hrange⟩ := width?_index.mp h
      exact List.forall_mem_cons.mpr ⟨⟨total, lo, htotal, hlo, hrange⟩, sound_of_count hlo⟩
  | .slice _ _ _, _, h => by
      obtain ⟨hlength, total, lo, htotal, hlo, hrange⟩ := width?_slice.mp h
      exact List.forall_mem_cons.mpr ⟨⟨total, lo, _, htotal, hlo, hlength, hrange⟩,
        List.forall_mem_append.mpr ⟨sound_of_count hlo, sound_of_count hlength⟩⟩
  | .concat parts, _, h => List.forall_mem_cons.mpr ⟨trivial, sound_of_widthAll parts h⟩
  | .paren inner, _, h => List.forall_mem_cons.mpr ⟨trivial, sound_of_width inner h⟩
  | .not operand, _, h => List.forall_mem_cons.mpr ⟨trivial, sound_of_width operand h⟩
  | .binary _ lhs rhs, _, h => by
      obtain ⟨hl, hr⟩ := width?_binary.mp h
      exact List.forall_mem_cons.mpr ⟨trivial,
        List.forall_mem_append.mpr ⟨sound_of_width lhs hl, sound_of_width rhs hr⟩⟩
  | .cond test onTrue onFalse, _, h => by
      obtain ⟨htest, htrue, hfalse⟩ := width?_cond.mp h
      exact List.forall_mem_cons.mpr ⟨htest, List.forall_mem_append.mpr ⟨sound_of_width test htest,
        List.forall_mem_append.mpr ⟨sound_of_width onTrue htrue, sound_of_width onFalse hfalse⟩⟩⟩
theorem sound_of_widthAll :
    ∀ (parts : List Expr) {width : Nat}, widthAll? declared parts = some width →
    ∀ s ∈ subtermsAll parts, s.Sound declared
  | [], _, _ => fun _ hs => absurd hs List.not_mem_nil
  | part :: rest, _, h => by
      obtain ⟨first, others, hfirst, hothers, -⟩ := widthAll?_cons.mp h
      exact List.forall_mem_append.mpr ⟨sound_of_width part hfirst, sound_of_widthAll rest hothers⟩
end

/-! The widths of what generators write. -/

@[simp] theorem width?_bit (b : Bool) : (bit b).width? declared = some 1 := by
  have hparse : ∀ b : Bool,
      (Literal.parse? (if b then "1'b1" else "1'b0")).map Bits.width = some 1 := by
    decide +kernel
  exact hparse b

/-- A select has the width it asks for, if it stays inside of its signal. -/
theorem width?_select {total lo : Nat} (hname : declared name = some total) (hpos : 0 < width)
    (hreach : lo + width ≤ total) : (select name total lo width).width? declared = some width := by
  unfold select
  -- a select of less than the signal shows that the signal has several bits
  by_cases hwhole : lo = 0 ∧ width = total
  · rw [if_pos hwhole, hwhole.2]
    exact hname
  · rw [if_neg hwhole]
    by_cases hone : width = 1
    · rw [if_pos hone]
      exact width?_index.mpr ⟨hone, total, lo, hname, count?_decimal lo, by omega, by omega⟩
    · rw [if_neg hone]
      exact width?_slice.mpr
        ⟨count?_decimal width, total, lo, hname, count?_decimal lo, by omega, hpos, hreach⟩

@[simp] theorem width?_complement (e : Expr) :
    e.complement.width? declared = e.width? declared := by
  unfold complement
  by_cases h : e.isPrimary <;> simp [h, width?]

theorem width?_apply {op : BinaryOp} {lhs rhs : Expr} (hl : lhs.width? declared = some width)
    (hr : rhs.width? declared = some width) : (apply op lhs rhs).width? declared = some width := by
  unfold apply
  refine width?_binary.mpr ⟨?_, ?_⟩
  · split
    · exact hl
    · exact hl
  · split
    · exact hr
    · exact hr

theorem width?_all {es : List Expr} (h : ∀ e ∈ es, e.width? declared = some 1) :
    (all es).width? declared = some 1 :=
  all_induction (P := fun e => e.width? declared = some 1) (width?_bit true)
    (fun _ _ => width?_apply) h

theorem width?_any {es : List Expr} (h : ∀ e ∈ es, e.width? declared = some 1) :
    (any es).width? declared = some 1 :=
  any_induction (P := fun e => e.width? declared = some 1) (width?_bit false)
    (fun _ _ => width?_apply) h

end Expr

/-! ## Statements, assigns and connections -/

section

variable (declared : String → Option Nat)

/-- Both sides of an assign have the same width. -/
def Assign.Balanced (x : Assign) : Prop :=
  ∃ width, x.target.width? declared = some width ∧ x.value.width? declared = some width

namespace Statement

mutual
/-- Tests are of one bit, and both sides of each assignment have the same width. -/
def Balanced : Statement → Prop
  | .branch test onTrue onFalse => test.width? declared = some 1 ∧ BalancedAll onTrue ∧
      BalancedAll onFalse
  | .nonblocking target value => ∃ width, target.width? declared = some width ∧
      value.width? declared = some width
/-- The same of some statements. -/
def BalancedAll : List Statement → Prop
  | [] => True
  | s :: rest => Balanced s ∧ BalancedAll rest
end

end Statement

/--
The connections of an instance name each of the ports once, and what a port is
connected to has its width.
-/
structure Instance.Fits (i : Instance) (ports : List Port) : Prop where
  once : (i.connections.map Prod.fst).Perm (ports.map Port.name)
  widths : ∀ c ∈ i.connections, ∀ e, c.2 = some e →
    ∃ p ∈ ports, p.name = c.1 ∧ e.width? declared = some p.width

end

namespace Statement

mutual
/-- The expressions of a statement: tests, targets and values. -/
def exprs : Statement → List Expr
  | .branch test onTrue onFalse => test :: (exprsAll onTrue ++ exprsAll onFalse)
  | .nonblocking target value => [target, value]
/-- The expressions of some statements. -/
def exprsAll : List Statement → List Expr
  | [] => []
  | s :: rest => exprs s ++ exprsAll rest
end

variable {declared : String → Option Nat}

theorem balancedAll_iff {ss : List Statement} :
    BalancedAll declared ss ↔ ∀ s ∈ ss, s.Balanced declared := by
  induction ss with
  | nil => simp [BalancedAll]
  | cons s rest ih => rw [BalancedAll, ih, List.forall_mem_cons]

mutual
/-- Every expression of a balanced statement has a width. -/
theorem width_of_balanced :
    ∀ (s : Statement), s.Balanced declared → ∀ e ∈ s.exprs, ∃ width, e.width? declared = some width
  | .branch _ onTrue onFalse, h => by
      obtain ⟨htest, htrue, hfalse⟩ := h
      exact List.forall_mem_cons.mpr ⟨⟨1, htest⟩, List.forall_mem_append.mpr
        ⟨width_of_balancedAll onTrue htrue, width_of_balancedAll onFalse hfalse⟩⟩
  | .nonblocking _ _, h => by
      obtain ⟨width, htarget, hvalue⟩ := h
      exact List.forall_mem_cons.mpr
        ⟨⟨width, htarget⟩, List.forall_mem_singleton.mpr ⟨width, hvalue⟩⟩
theorem width_of_balancedAll : ∀ (ss : List Statement), BalancedAll declared ss →
    ∀ e ∈ exprsAll ss, ∃ width, e.width? declared = some width
  | [], _ => fun _ he => absurd he List.not_mem_nil
  | s :: rest, h =>
      List.forall_mem_append.mpr ⟨width_of_balanced s h.1, width_of_balancedAll rest h.2⟩
end

variable {register : Nat → String} {length : Nat}

theorem balanced_clear (h : ∀ i < length, declared (register i) = some 1) :
    BalancedAll declared (clear register length) := by
  refine balancedAll_iff.mpr (List.forall_mem_map.mpr fun i hi => ?_)
  exact ⟨1, h i (List.mem_range.mp hi), Expr.width?_bit false⟩

/-- A chain of registers is balanced if all of them are as wide as what enters it. -/
theorem balanced_shift {input : String} {width : Nat} (hinput : declared input = some width)
    (h : ∀ i < length, declared (register i) = some width) :
    BalancedAll declared (shift input register length) := by
  refine balancedAll_iff.mpr (List.forall_mem_map.mpr fun i hi => ?_)
  have hi := List.mem_range.mp hi
  refine ⟨width, h i hi, ?_⟩
  by_cases hzero : i = 0
  · rw [if_pos hzero]
    exact hinput
  · rw [if_neg hzero]
    exact h (i - 1) (by omega)

end Statement

/-! ## Modules -/

namespace Module

/-- The width that a name is declared with. -/
def width? (m : Module) (name : String) : Option Nat := m.signals.lookup name

/--
The expressions of a module: both sides of its assigns, those of its processes,
and its connections.
-/
def exprs (m : Module) : List Expr :=
  (Item.drivesOf m.items).flatMap (fun x => [x.target, x.value]) ++
    (Item.processesOf m.items).flatMap Statement.exprsAll ++
    (Item.instancesOf m.items).flatMap fun i => i.connections.filterMap Prod.snd

/--
Assignments and connections of a module agree in width. Of the ports of external
modules nothing is known.
-/
structure Balanced (a : Artifact) (m : Module) : Prop where
  assigns : ∀ x ∈ Item.drivesOf m.items, x.Balanced m.width?
  processes : ∀ body ∈ Item.processesOf m.items, Statement.BalancedAll m.width? body
  clock : Item.processesOf m.items ≠ [] → ("clk", 1) ∈ m.signals
  instances : ∀ i ∈ Item.instancesOf m.items,
    (i.moduleName ∈ a.externals ∧ ∀ c ∈ i.connections, ∀ e, c.2 = some e →
      ∃ width, e.width? m.width? = some width) ∨
      ∃ ports, a.Offers i.moduleName ports ∧ i.Fits m.width? ports

variable {a : Artifact} {m : Module}

theorem width?_of_mem (hdistinct : (m.signals.map Prod.fst).Nodup) {name : String} {width : Nat}
    (h : (name, width) ∈ m.signals) : m.width? name = some width :=
  lookup_of_mem hdistinct h

theorem mem_of_width? {name : String} {width : Nat} (h : m.width? name = some width) :
    name ∈ m.signals.map Prod.fst := by
  by_contra hnot
  have hnone := lookup_eq_none_of_forall_ne fun s hs heq => hnot (List.mem_map.mpr ⟨s, hs, heq⟩)
  rw [width?, hnone] at h
  exact absurd h (by simp)

/-- Every expression of a balanced module has a width. -/
theorem Balanced.width_exprs (h : m.Balanced a) :
    ∀ e ∈ m.exprs, ∃ width, e.width? m.width? = some width := by
  refine List.forall_mem_append.mpr ⟨List.forall_mem_append.mpr ⟨?_, ?_⟩, ?_⟩
  · intro e he
    obtain ⟨x, hx, he⟩ := List.mem_flatMap.mp he
    obtain ⟨width, htarget, hvalue⟩ := h.assigns x hx
    rcases List.mem_pair.mp he with rfl | rfl
    · exact ⟨width, htarget⟩
    · exact ⟨width, hvalue⟩
  · intro e he
    obtain ⟨body, hbody, he⟩ := List.mem_flatMap.mp he
    exact Statement.width_of_balancedAll body (h.processes body hbody) e he
  · intro e he
    obtain ⟨i, hi, he⟩ := List.mem_flatMap.mp he
    obtain ⟨c, hc, he⟩ := List.mem_filterMap.mp he
    rcases h.instances i hi with ⟨-, hexternal⟩ | ⟨ports, -, hfits⟩
    · exact hexternal c hc e he
    · obtain ⟨p, -, -, hwidth⟩ := hfits.widths c hc e he
      exact ⟨p.width, hwidth⟩

end Module

end Handshake
