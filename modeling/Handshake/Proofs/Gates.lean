import Handshake.Proofs.Registers

/-!
# Expressions of one bit

The conditions of a unit are made of single bits, with complement, conjunction
and disjunction. What such an expression is worth is one bit again, its truth,
and the operators act on truths as they do on Booleans.

The constructors may put parentheses around their operands, and a long
conjunction or disjunction is a chain of two-place ones. For each constructor it
is said what it reads, when its evaluation does not fail, how wide it is and
what it is worth, so that no later proof has to look at parentheses or chains.
`truth_all` and `truth_any` are the ones that are used most: every bit is set,
or some bit is.
-/

namespace Handshake

theorem Word.low_one_eq_zero (w : Word) : w.low 1 = 0 ↔ w.getLsbD 0 = false := by
  constructor
  · intro h
    have hbit := Word.getLsbD_low w 1 0
    rw [h] at hbit
    simpa using hbit.symm
  · intro h
    refine BitVec.eq_of_getLsbD_eq fun i _ => ?_
    rw [Word.getLsbD_low]
    cases i with
    | zero => simpa using h
    | succ i => simp

namespace Expr

variable {widths : Widths} {width : String → Nat} {x : State}

/-- The lowest bit of what an expression is worth. -/
def truth (width : String → Nat) (x : State) (e : Expr) : Bool := (e.value width x).getLsbD 0

/-- An operator is as wide as its wider operand; parentheses do not count. -/
theorem size_apply (op : BinaryOp) (lhs rhs : Expr) :
    (apply op lhs rhs).size width = max (lhs.size width) (rhs.size width) := by
  unfold apply
  split <;> split <;> rfl

/-- What an operator gives is computed from the values and widths of its operands. -/
theorem value_apply (op : BinaryOp) (lhs rhs : Expr) :
    (apply op lhs rhs).value width x =
      (op.eval ⟨lhs.value width x, lhs.size width⟩ ⟨rhs.value width x, rhs.size width⟩).value := by
  unfold apply
  split <;> split <;> rfl

/-- An operator on bits gives a bit. -/
theorem size_apply_bits {op : BinaryOp} {lhs rhs : Expr} (hl : lhs.size width = 1)
    (hr : rhs.size width = 1) : (apply op lhs rhs).size width = 1 := by
  rw [size_apply, hl, hr, Nat.max_self]

theorem typed_apply {op : BinaryOp} {lhs rhs : Expr} (hl : lhs.Typed widths)
    (hr : rhs.Typed widths) : (apply op lhs rhs).Typed widths := by
  unfold apply
  split <;> split <;> exact ⟨hl, hr⟩

theorem reads_apply (op : BinaryOp) (lhs rhs : Expr) :
    (apply op lhs rhs).reads = lhs.reads ++ rhs.reads := by
  unfold apply
  split <;> split <;> rfl

theorem mem_reads_apply {op : BinaryOp} {lhs rhs : Expr} {names : List String}
    (hl : ∀ name ∈ lhs.reads, name ∈ names) (hr : ∀ name ∈ rhs.reads, name ∈ names) :
    ∀ name ∈ (apply op lhs rhs).reads, name ∈ names := by
  rw [reads_apply]
  exact List.forall_mem_append.mpr ⟨hl, hr⟩

theorem size_complement (e : Expr) : e.complement.size width = e.size width := by
  unfold complement
  split <;> rfl

theorem value_complement (e : Expr) :
    e.complement.value width x = (~~~e.value width x).low (e.size width) := by
  unfold complement
  split <;> rfl

theorem typed_complement {e : Expr} (h : e.Typed widths) : e.complement.Typed widths := by
  unfold complement
  split <;> exact h

theorem reads_complement (e : Expr) : e.complement.reads = e.reads := by
  unfold complement
  split <;> rfl

/-- The complement of a bit is its negation. -/
theorem truth_complement {e : Expr} (h : e.size width = 1) :
    e.complement.truth width x = !e.truth width x := by
  have hpos : 0 < wordBits := by decide
  rw [truth, value_complement, Word.getLsbD_low, h]
  simp [truth, hpos]

/-- The conjunction of bits is that of their truths. -/
theorem truth_and {lhs rhs : Expr} (hl : lhs.size width = 1) (hr : rhs.size width = 1) :
    (Expr.and lhs rhs).truth width x = (lhs.truth width x && rhs.truth width x) := by
  simp [truth, Expr.and, value_apply, BinaryOp.eval, hl, hr, Word.getLsbD_low]

/-- A conjunction, taken as a test, fails unless both bits are set. -/
theorem and_eq_zero_iff {lhs rhs : Expr} (hl : lhs.size width = 1) (hr : rhs.size width = 1) :
    (Expr.and lhs rhs).value width x = 0 ↔ (lhs.truth width x && rhs.truth width x) = false := by
  have hvalue : (Expr.and lhs rhs).value width x =
      (lhs.value width x &&& rhs.value width x).low 1 := by
    simp [Expr.and, value_apply, BinaryOp.eval, hl, hr]
  rw [hvalue, Word.low_one_eq_zero, ← truth_and hl hr, truth, hvalue]
  simp [Word.getLsbD_low]

/-- The disjunction of bits is that of their truths. -/
theorem truth_or {lhs rhs : Expr} (hl : lhs.size width = 1) (hr : rhs.size width = 1) :
    (Expr.or lhs rhs).truth width x = (lhs.truth width x || rhs.truth width x) := by
  simp [truth, Expr.or, value_apply, BinaryOp.eval, hl, hr, Word.getLsbD_low]

/-- What holds of expressions and is kept by an operator holds of a chain of that operator. -/
theorem foldl_induction {P : Expr → Prop} {op : Expr → Expr → Expr}
    (hop : ∀ lhs rhs, P lhs → P rhs → P (op lhs rhs)) {first : Expr} {rest : List Expr}
    (hfirst : P first) (hrest : ∀ e ∈ rest, P e) : P (rest.foldl op first) := by
  induction rest generalizing first with
  | nil => exact hfirst
  | cons second rest ih =>
      obtain ⟨hsecond, hrest⟩ := List.forall_mem_cons.mp hrest
      exact ih (hop first second hfirst hsecond) hrest

/-- What holds of bits and is kept by disjunction holds of the disjunction of any number of bits. -/
theorem any_induction {P : Expr → Prop} (hbit : P (bit false))
    (hor : ∀ lhs rhs, P lhs → P rhs → P (Expr.or lhs rhs)) {es : List Expr} (h : ∀ e ∈ es, P e) :
    P (any es) := by
  cases es with
  | nil => exact hbit
  | cons first rest =>
      obtain ⟨hfirst, hrest⟩ := List.forall_mem_cons.mp h
      exact foldl_induction hor hfirst hrest

/-- What holds of bits and is kept by conjunction holds of the conjunction of any number of bits. -/
theorem all_induction {P : Expr → Prop} (hbit : P (bit true))
    (hand : ∀ lhs rhs, P lhs → P rhs → P (Expr.and lhs rhs)) {es : List Expr} (h : ∀ e ∈ es, P e) :
    P (all es) := by
  cases es with
  | nil => exact hbit
  | cons first rest =>
      obtain ⟨hfirst, hrest⟩ := List.forall_mem_cons.mp h
      exact foldl_induction hand hfirst hrest

theorem size_any {es : List Expr} (h : ∀ e ∈ es, e.size width = 1) : (any es).size width = 1 :=
  any_induction (P := fun e => e.size width = 1) rfl (fun _ _ => size_apply_bits) h

theorem typed_any {es : List Expr} (h : ∀ e ∈ es, e.Typed widths) : (any es).Typed widths :=
  any_induction (typed_bit widths false) (fun _ _ => typed_apply) h

theorem typed_all {es : List Expr} (h : ∀ e ∈ es, e.Typed widths) : (all es).Typed widths :=
  all_induction (typed_bit widths true) (fun _ _ => typed_apply) h

theorem reads_any {es : List Expr} {names : List String}
    (h : ∀ e ∈ es, ∀ name ∈ e.reads, name ∈ names) : ∀ name ∈ (any es).reads, name ∈ names :=
  any_induction (P := fun e => ∀ name ∈ e.reads, name ∈ names)
    (fun _ hname => absurd hname List.not_mem_nil)
    (fun _ _ => mem_reads_apply) h

/-- A long conjunction reads what its members read. -/
theorem reads_all {es : List Expr} {names : List String}
    (h : ∀ e ∈ es, ∀ name ∈ e.reads, name ∈ names) : ∀ name ∈ (all es).reads, name ∈ names :=
  all_induction (P := fun e => ∀ name ∈ e.reads, name ∈ names)
    (fun _ hname => absurd hname List.not_mem_nil)
    (fun _ _ => mem_reads_apply) h

/-- A chain of an operator on bits is worth what the operator on truth values makes of the bits. -/
theorem truth_foldl {op : Expr → Expr → Expr} {f : Bool → Bool → Bool} {q : List Expr → Bool}
    (hsize : ∀ lhs rhs, lhs.size width = 1 → rhs.size width = 1 → (op lhs rhs).size width = 1)
    (htruth : ∀ lhs rhs, lhs.size width = 1 → rhs.size width = 1 →
      (op lhs rhs).truth width x = f (lhs.truth width x) (rhs.truth width x))
    (hnil : ∀ b, f b (q []) = b)
    (hcons : ∀ b e rest, f (f b (e.truth width x)) (q rest) = f b (q (e :: rest)))
    {first : Expr} {rest : List Expr} (hfirst : first.size width = 1)
    (hrest : ∀ e ∈ rest, e.size width = 1) :
    (rest.foldl op first).truth width x = f (first.truth width x) (q rest) := by
  induction rest generalizing first with
  | nil => exact (hnil _).symm
  | cons second rest ih =>
      obtain ⟨hsecond, hrest⟩ := List.forall_mem_cons.mp hrest
      rw [List.foldl_cons, ih (hsize _ _ hfirst hsecond) hrest, htruth _ _ hfirst hsecond, hcons]

/-- A disjunction of bits is true if one of them is. -/
theorem truth_any {es : List Expr} (h : ∀ e ∈ es, e.size width = 1) :
    (any es).truth width x = es.any (truth width x) := by
  cases es with
  | nil => simp [any, truth]
  | cons first rest =>
      obtain ⟨hfirst, hrest⟩ := List.forall_mem_cons.mp h
      exact truth_foldl (q := fun es => es.any (truth width x)) (fun _ _ => size_apply_bits)
        (fun _ _ => truth_or) Bool.or_false (fun _ _ _ => Bool.or_assoc _ _ _) hfirst hrest

/-- A conjunction of bits is true if all of them are. -/
theorem truth_all {es : List Expr} (h : ∀ e ∈ es, e.size width = 1) :
    (all es).truth width x = es.all (truth width x) := by
  have hpos : 0 < wordBits := by decide
  cases es with
  | nil => simp [all, truth, hpos]
  | cons first rest =>
      obtain ⟨hfirst, hrest⟩ := List.forall_mem_cons.mp h
      exact truth_foldl (q := fun es => es.all (truth width x)) (fun _ _ => size_apply_bits)
        (fun _ _ => truth_and) Bool.and_true (fun _ _ _ => Bool.and_assoc _ _ _) hfirst hrest

end Expr

end Handshake
