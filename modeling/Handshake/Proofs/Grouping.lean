import Mathlib.Data.List.TakeWhile
import Handshake.Proofs.Naming
import Handshake.Verilog.Expr

/-!
# Conditionals and their grouping

The constructors of expressions put parentheses around every operand that would
need them, with one exception: the test of a conditional is written as it is,
even if it is a conditional itself. So `(a ? b : c) ? d : e` and `a ? b : (c ? d
: e)` have one text, and which of the two a reader takes it for is settled by
the language, where conditionals group to the right.

`regrouped` does the same to an expression. It keeps the text, and leaves alone
every expression in which no test is a bare conditional.

Two properties of expressions meet here. `Shaped` says that parentheses stand
where the grammar wants them, and holds of all that the constructors make;
`Grouped` says that no test is a bare conditional, and need not. What the text
of an expression reads back as is its regrouping, so an expression that is both
reads back as itself.
-/

namespace Handshake

/--
A literal as generated text has them: `<digits>`, `<digits>'b<binary digits>` or
`<digits>'d<digits>`.
-/
def isLiteralText (text : String) : Bool :=
  !(text.toList.takeWhile Char.isDigit).isEmpty &&
    match text.toList.dropWhile Char.isDigit with
    | [] => true
    | '\x27' :: 'b' :: digits => !digits.isEmpty && digits.all fun c => c == '0' || c == '1'
    | '\x27' :: 'd' :: digits => !digits.isEmpty && digits.all Char.isDigit
    | _ => false

namespace Expr

/-- An expression that the constructors make of identifiers and literals. -/
inductive Built : Expr → Prop where
  | number {literal : String} : isLiteralText literal = true → Built (.number literal)
  | ident {name : String} : isIdentifier name = true → Built (.ident name)
  | bit (b : Bool) : Built (bit b)
  | select {name : String} (total lo width : Nat) : isIdentifier name = true →
      Built (select name total lo width)
  | indexed {e position : Expr} : Built e → Built position → Built (e.indexed position)
  | sliced {e base length : Expr} : Built e → Built base → Built length →
      Built (e.sliced base length)
  | concat {parts : List Expr} : (∀ e ∈ parts, Built e) → Built (.concat parts)
  | paren {e : Expr} : Built e → Built (.paren e)
  | complement {e : Expr} : Built e → Built e.complement
  | apply (op : BinaryOp) {lhs rhs : Expr} : Built lhs → Built rhs → Built (apply op lhs rhs)
  | all {es : List Expr} : (∀ e ∈ es, Built e) → Built (all es)
  | any {es : List Expr} : (∀ e ∈ es, Built e) → Built (any es)
  | cond {test onTrue onFalse : Expr} : Built test → Built onTrue → Built onFalse →
      Built (.cond test onTrue onFalse)

/-! ## Shape -/

mutual
/-- The shape of expressions with their parentheses in place. -/
def Shaped : Expr → Prop
  | .number literal => isLiteralText literal = true
  | .ident name => isIdentifier name = true
  | .index name position => isIdentifier name = true ∧ Shaped position
  | .slice name base length => isIdentifier name = true ∧ Shaped base ∧ Shaped length
  | .concat parts => ShapedAll parts
  | .paren inner => Shaped inner
  | .not operand => operand.isPrimary = true ∧ Shaped operand
  | .binary op lhs rhs =>
    (lhs.isOperand = true ∨ lhs.isChainOf op = true) ∧ rhs.isOperand = true ∧ Shaped lhs ∧
      Shaped rhs
  | .cond test onTrue onFalse => Shaped test ∧ Shaped onTrue ∧ Shaped onFalse
/-- The same for some expressions. -/
def ShapedAll : List Expr → Prop
  | [] => True
  | e :: rest => Shaped e ∧ ShapedAll rest
end

theorem shapedAll_iff {es : List Expr} : ShapedAll es ↔ ∀ e ∈ es, Shaped e := by
  induction es with
  | nil => simp [ShapedAll]
  | cons e rest ih => simp [ShapedAll, ih]

/-- A number written in decimal is a literal. -/
theorem isLiteralText_repr (n : Nat) : isLiteralText n.repr = true := by
  have hdigits : ∀ d ∈ Nat.toDigits 10 n, d.isDigit = true := fun d hd =>
    Nat.isDigit_of_mem_toDigits (by decide) (by decide) hd
  rw [isLiteralText, Nat.toList_repr, List.dropWhile_eq_nil_iff.mpr hdigits,
    List.takeWhile_eq_self_iff.mpr hdigits]
  simp

/-- An operator puts parentheses around operands that need them, and so keeps the shape. -/
theorem Shaped.apply {lhs rhs : Expr} (hl : Shaped lhs) (hr : Shaped rhs) (op : BinaryOp) :
    Shaped (Expr.apply op lhs rhs) := by
  unfold Expr.apply
  refine ⟨?_, ?_, ?_, ?_⟩
  · split
    · rename_i h
      exact Bool.or_eq_true _ _ ▸ h
    · exact Or.inl rfl
  · split
    · assumption
    · rfl
  · split <;> exact hl
  · split <;> exact hr

/-- A chain of one operator keeps the shape, however long it is. -/
theorem Shaped.foldl_apply {e : Expr} (he : Shaped e) (op : BinaryOp) {rest : List Expr}
    (h : ∀ f ∈ rest, Shaped f) : Shaped (rest.foldl (Expr.apply op) e) := by
  induction rest generalizing e with
  | nil => exact he
  | cons f rest ih =>
      rw [List.forall_mem_cons] at h
      exact ih (he.apply h.1 op) h.2

theorem shaped_bit (b : Bool) : Shaped (bit b) := by
  cases b
  · show isLiteralText "1'b0" = true
    decide
  · show isLiteralText "1'b1" = true
    decide

/-- The constructors put the parentheses in place. -/
theorem Built.shaped {e : Expr} (h : e.Built) : e.Shaped := by
  induction h with
  | number h => exact h
  | ident h => exact h
  | bit b => exact shaped_bit b
  | select total lo width h =>
      unfold Expr.select
      split
      · exact h
      · split
        · exact ⟨h, isLiteralText_repr lo⟩
        · exact ⟨h, isLiteralText_repr lo, isLiteralText_repr width⟩
  | @indexed e _ _ _ he hp =>
      cases e with
      | ident name => exact ⟨he, hp⟩
      | _ => exact he
  | @sliced e _ _ _ _ _ he hb hl =>
      cases e with
      | ident name => exact ⟨he, hb, hl⟩
      | _ => exact he
  | concat _ ih => exact shapedAll_iff.mpr ih
  | paren _ ih => exact ih
  | complement _ ih =>
      unfold Expr.complement
      refine ⟨?_, ?_⟩
      · split
        · assumption
        · rfl
      · split <;> exact ih
  | apply op _ _ hl hr => exact hl.apply hr op
  | @all es _ ih =>
      cases es with
      | nil => exact shaped_bit true
      | cons e rest =>
          rw [List.forall_mem_cons] at ih
          exact ih.1.foldl_apply .and ih.2
  | @any es _ ih =>
      cases es with
      | nil => exact shaped_bit false
      | cons e rest =>
          rw [List.forall_mem_cons] at ih
          exact ih.1.foldl_apply .or ih.2
  | cond _ _ _ ht ha hb => exact ⟨ht, ha, hb⟩

/-! ## Grouping -/

/-- A conditional that stands bare. -/
def isCond : Expr → Bool
  | .cond _ _ _ => true
  | _ => false

mutual
/-- No test is a bare conditional, anywhere in the expression. -/
def Grouped : Expr → Prop
  | .number _ | .ident _ => True
  | .index _ position => Grouped position
  | .slice _ base length => Grouped base ∧ Grouped length
  | .concat parts => GroupedAll parts
  | .paren inner => Grouped inner
  | .not operand => Grouped operand
  | .binary _ lhs rhs => Grouped lhs ∧ Grouped rhs
  | .cond test onTrue onFalse => test.isCond = false ∧ Grouped test ∧ Grouped onTrue ∧
      Grouped onFalse
/-- The same for some expressions. -/
def GroupedAll : List Expr → Prop
  | [] => True
  | e :: rest => Grouped e ∧ GroupedAll rest
end

/--
A conditional with a test that may be one: what is chosen becomes part of its
last alternative.
-/
def attach (onTrue onFalse : Expr) : Expr → Expr
  | .cond test yes no => .cond test yes (attach onTrue onFalse no)
  | test => .cond test onTrue onFalse

mutual
/-- An expression with its conditionals grouped to the right. -/
def regrouped : Expr → Expr
  | .number literal => .number literal
  | .ident name => .ident name
  | .index name position => .index name (regrouped position)
  | .slice name base length => .slice name (regrouped base) (regrouped length)
  | .concat parts => .concat (regroupedAll parts)
  | .paren inner => .paren (regrouped inner)
  | .not operand => .not (regrouped operand)
  | .binary op lhs rhs => .binary op (regrouped lhs) (regrouped rhs)
  | .cond test onTrue onFalse => attach (regrouped onTrue) (regrouped onFalse) (regrouped test)
/-- The same for some expressions. -/
def regroupedAll : List Expr → List Expr
  | [] => []
  | e :: rest => regrouped e :: regroupedAll rest
end

section Attach

variable {onTrue onFalse : Expr}

/-- A test that is no conditional stays the test. -/
theorem attach_of_not_cond {test : Expr} (h : test.isCond = false) :
    attach onTrue onFalse test = .cond test onTrue onFalse := by
  cases test with
  | cond => exact absurd h (by simp [isCond])
  | _ => rfl

theorem isCond_of_ne {test : Expr} (h : ∀ t a b, test = .cond t a b → False) :
    test.isCond = false := by
  cases test with
  | cond t a b => exact (h t a b rfl).elim
  | _ => rfl

/-- Attaching outcomes always gives a conditional. -/
theorem exists_attach_eq (onTrue onFalse test : Expr) :
    ∃ t a b, attach onTrue onFalse test = .cond t a b := by
  cases test <;> exact ⟨_, _, _, rfl⟩

/--
**Attaching outcomes to a test, at whatever depth, is written as the conditional
on that test.**
-/
theorem render_attach (test : Expr) : (attach onTrue onFalse test).render =
    test.render ++ " ? " ++ onTrue.render ++ " : " ++ onFalse.render := by
  induction test using attach.induct with
  | case1 test yes no ih => simp [attach, render, ih, String.append_assoc]
  | case2 test h => rw [attach_of_not_cond (isCond_of_ne h), render]

theorem shaped_attach (ha : onTrue.Shaped) (hb : onFalse.Shaped) {test : Expr} (ht : test.Shaped) :
    (attach onTrue onFalse test).Shaped := by
  induction test using attach.induct with
  | case1 test yes no ih => exact ⟨ht.1, ht.2.1, ih ht.2.2⟩
  | case2 test h =>
      rw [attach_of_not_cond (isCond_of_ne h)]
      exact ⟨ht, ha, hb⟩

/-- Attached outcomes leave no conditional bare in a test. -/
theorem grouped_attach (ha : onTrue.Grouped) (hb : onFalse.Grouped) {test : Expr}
    (ht : test.Grouped) : (attach onTrue onFalse test).Grouped := by
  induction test using attach.induct with
  | case1 test yes no ih => exact ⟨ht.1, ht.2.1, ht.2.2.1, ih ht.2.2.2⟩
  | case2 test h =>
      rw [attach_of_not_cond (isCond_of_ne h)]
      exact ⟨isCond_of_ne h, ht, ha, hb⟩

end Attach

/-! ### What regrouping keeps -/

/-- Regrouping does not change what kind of expression it is. -/
theorem kind_regrouped (e : Expr) :
    e.regrouped.isPrimary = e.isPrimary ∧ e.regrouped.isOperand = e.isOperand ∧
    ∀ op, e.regrouped.isChainOf op = e.isChainOf op := by
  cases e with
  | cond test onTrue onFalse =>
      obtain ⟨t, a, b, heq⟩ := exists_attach_eq onTrue.regrouped onFalse.regrouped test.regrouped
      rw [regrouped, heq]
      exact ⟨rfl, rfl, fun _ => rfl⟩
  | _ => exact ⟨rfl, rfl, fun _ => rfl⟩

mutual
theorem Shaped.regrouped : ∀ {e : Expr}, e.Shaped → e.regrouped.Shaped
  | .number _, h | .ident _, h => h
  | .index _ position, h => ⟨h.1, Shaped.regrouped (e := position) h.2⟩
  | .slice _ _ _, h => ⟨h.1, h.2.1.regrouped, h.2.2.regrouped⟩
  | .concat _, h => ShapedAll.regrouped h
  | .paren inner, h => Shaped.regrouped (e := inner) h
  | .not operand, h => ⟨(kind_regrouped operand).1.trans h.1, h.2.regrouped⟩
  | .binary op lhs rhs, ⟨hchain, hoperand, hl, hr⟩ => by
      obtain ⟨-, hloperand, hlchain⟩ := kind_regrouped lhs
      refine ⟨?_, (kind_regrouped rhs).2.1.trans hoperand, hl.regrouped, hr.regrouped⟩
      rwa [hloperand, hlchain op]
  | .cond _ _ _, h => shaped_attach h.2.1.regrouped h.2.2.regrouped h.1.regrouped
theorem ShapedAll.regrouped : ∀ {es : List Expr}, ShapedAll es → ShapedAll (regroupedAll es)
  | [], _ => trivial
  | _ :: _, h => ⟨h.1.regrouped, ShapedAll.regrouped h.2⟩
end

mutual
/-- **Regrouping does not show in the text.** -/
theorem render_regrouped : ∀ e : Expr, e.regrouped.render = e.render
  | .number _ | .ident _ => rfl
  | .index _ position => by simp [regrouped, render, render_regrouped position]
  | .slice _ base length => by
      simp [regrouped, render, render_regrouped base, render_regrouped length]
  | .concat parts => by simp [regrouped, render, renderAll_regrouped parts]
  | .paren inner => by simp [regrouped, render, render_regrouped inner]
  | .not operand => by simp [regrouped, render, render_regrouped operand]
  | .binary _ lhs rhs => by simp [regrouped, render, render_regrouped lhs, render_regrouped rhs]
  | .cond test onTrue onFalse => by
      rw [regrouped, render_attach, render_regrouped test, render_regrouped onTrue,
        render_regrouped onFalse, render]
theorem renderAll_regrouped : ∀ es : List Expr, renderAll (regroupedAll es) = renderAll es
  | [] => rfl
  | e :: rest => by simp [regroupedAll, renderAll, render_regrouped e, renderAll_regrouped rest]
end

mutual
/-- After regrouping no test is a bare conditional. -/
theorem grouped_regrouped : ∀ e : Expr, e.regrouped.Grouped
  | .number _ | .ident _ => trivial
  | .index _ position => grouped_regrouped position
  | .slice _ base length => ⟨grouped_regrouped base, grouped_regrouped length⟩
  | .concat parts => groupedAll_regrouped parts
  | .paren inner => grouped_regrouped inner
  | .not operand => grouped_regrouped operand
  | .binary _ lhs rhs => ⟨grouped_regrouped lhs, grouped_regrouped rhs⟩
  | .cond test onTrue onFalse =>
      grouped_attach (grouped_regrouped onTrue) (grouped_regrouped onFalse) (grouped_regrouped test)
theorem groupedAll_regrouped : ∀ es : List Expr, GroupedAll (regroupedAll es)
  | [] => trivial
  | e :: rest => ⟨grouped_regrouped e, groupedAll_regrouped rest⟩
end

mutual
/-- Regrouping has nothing to do where no test is a bare conditional. -/
theorem Grouped.regrouped_eq : ∀ {e : Expr}, e.Grouped → e.regrouped = e
  | .number _, _ | .ident _, _ => rfl
  | .index _ position, h => congrArg _ (Grouped.regrouped_eq (e := position) h)
  | .slice _ _ _, h => congrArg₂ _ h.1.regrouped_eq h.2.regrouped_eq
  | .concat _, h => congrArg _ (GroupedAll.regrouped_eq h)
  | .paren inner, h => congrArg _ (Grouped.regrouped_eq (e := inner) h)
  | .not operand, h => congrArg _ (Grouped.regrouped_eq (e := operand) h)
  | .binary _ _ _, h => congrArg₂ _ h.1.regrouped_eq h.2.regrouped_eq
  | .cond test onTrue onFalse, ⟨hcond, ht, ha, hb⟩ => by
      rw [regrouped, ht.regrouped_eq, ha.regrouped_eq, hb.regrouped_eq, attach_of_not_cond hcond]
theorem GroupedAll.regrouped_eq : ∀ {es : List Expr}, GroupedAll es → regroupedAll es = es
  | [], _ => rfl
  | _ :: _, h => congrArg₂ _ h.1.regrouped_eq (GroupedAll.regrouped_eq h.2)
end

end Expr

end Handshake
