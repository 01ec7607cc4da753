import Handshake.Proofs.Outcome
import Handshake.Simulation.Flatten
import Handshake.Simulation.Simulator

/-!
# What expressions denote

Evaluation can fail: a name may be undeclared, a literal malformed, a position
out of reach. Whether it does is a matter of the expression and of the declared
widths, not of the values of signals. So evaluation splits in three. `Typed`
says that it does not fail, `size` is the width of what it gives, and `value` is
its worth in a state, which is just a word for each name. Of these only the last
one looks at values, and only at those of the names in `reads`.

Renaming the signals of an expression is the same as looking at the state
through the renaming.

The two main facts are `eval_eq`, by which nothing later has to speak of the
evaluator and its errors, and `value_renamed`, by which an instance that was
copied into its parent means what it meant on its own.
-/

namespace Handshake

/-- The values of all signals. -/
abbrev State : Type := String → Word

namespace Widths

/-- The width of a signal; zero if it is not declared. -/
def width (widths : Widths) (name : String) : Nat := (widths.entries.lookup name).getD 0

/-- The signal is declared. -/
def Declares (widths : Widths) (name : String) : Prop := (widths.entries.lookup name).isSome = true

/-- Looking up the width of a declared name does not fail. -/
theorem get_of_declares {widths : Widths} {name : String} (h : widths.Declares name) :
    widths.get name = .ok (widths.width name) := by
  obtain ⟨width, hwidth⟩ := Option.isSome_iff_exists.mp h
  simp [get, Widths.width, hwidth]

/-- Every declared signal stands under another name among other declarations, with its width. -/
def Embeds (inner : Widths) (rename : String → String) (outer : Widths) : Prop :=
  ∀ name, inner.Declares name →
    outer.Declares (rename name) ∧ outer.width (rename name) = inner.width name

end Widths

namespace Expr

/-- The position, or the number of bits, that a literal stands for. -/
def position : Expr → Nat
  | .number literal => ((Literal.parse? literal).map fun bits => bits.value.toIndex).getD 0
  | _ => 0

/-- A literal that is worth something. -/
def IsLiteral : Expr → Prop
  | .number literal => (Literal.parse? literal).isSome = true
  | _ => False

section

variable (width : String → Nat) (state : State)

mutual
/-- The width of an expression. -/
def size : Expr → Nat
  | .number literal => ((Literal.parse? literal).map Bits.width).getD 0
  | .ident name => width name
  | .index _ _ => 1
  | .slice _ _ length => length.position
  | .concat parts => sizeAll parts
  | .paren inner => size inner
  | .not operand => size operand
  | .binary _ lhs rhs => max (size lhs) (size rhs)
  | .cond _ onTrue onFalse => max (size onTrue) (size onFalse)
/-- The width of parts side by side. -/
def sizeAll : List Expr → Nat
  | [] => 0
  | part :: rest => size part + sizeAll rest
end

mutual
/-- The worth of an expression. -/
def value : Expr → Word
  | .number literal => ((Literal.parse? literal).map Bits.value).getD 0
  | .ident name => state name
  | .index name position => ((state name).down position.position).low 1
  | .slice name base length => ((state name).down base.position).low length.position
  | .concat parts => valueAll 0 parts
  | .paren inner => value inner
  | .not operand => (~~~value operand).low (operand.size width)
  | .binary op lhs rhs => (op.eval ⟨value lhs, lhs.size width⟩ ⟨value rhs, rhs.size width⟩).value
  | .cond test onTrue onFalse => if value test = 0 then value onFalse else value onTrue
/-- The worth of parts side by side, below what stands above them. -/
def valueAll (above : Word) : List Expr → Word
  | [] => above
  | part :: rest => valueAll (above.up (part.size width) ||| value part) rest
end

end

mutual
/-- The names whose values an expression looks at. -/
def reads : Expr → List String
  | .number _ => []
  | .ident name => [name]
  | .index name _ => [name]
  | .slice name _ _ => [name]
  | .concat parts => readsAll parts
  | .paren inner => reads inner
  | .not operand => reads operand
  | .binary _ lhs rhs => reads lhs ++ reads rhs
  | .cond test onTrue onFalse => reads test ++ (reads onTrue ++ reads onFalse)
/-- The names whose values some expressions look at. -/
def readsAll : List Expr → List String
  | [] => []
  | part :: rest => reads part ++ readsAll rest
end

section

variable (widths : Widths)

mutual
/--
An expression that can be evaluated, whatever the values of signals: its names
are declared, its literals well formed, and what it selects or puts side by side
lies within reach.
-/
def Typed : Expr → Prop
  | .number literal => IsLiteral (.number literal)
  | .ident name => widths.Declares name
  | .index name position => widths.Declares name ∧ position.IsLiteral ∧ position.position < wordBits
  | .slice name base length =>
    widths.Declares name ∧ base.IsLiteral ∧ length.IsLiteral ∧ base.position < wordBits
  | .concat parts => TypedAll parts
  | .paren inner => Typed inner
  | .not operand => Typed operand
  | .binary _ lhs rhs => Typed lhs ∧ Typed rhs
  | .cond test onTrue onFalse => Typed test ∧ Typed onTrue ∧ Typed onFalse
/-- Parts that can be evaluated side by side. -/
def TypedAll : List Expr → Prop
  | [] => True
  | part :: rest => Typed part ∧ part.size widths.width < wordBits ∧ TypedAll rest
end

end

/-! ## Evaluation -/

/-- A literal evaluates to its position, in any state. -/
theorem eval_literal {e : Expr} (widths : Widths) (values : Valuation) (h : e.IsLiteral) :
    ∃ bits, e.eval widths values = .ok bits ∧ bits.value.toIndex = e.position := by
  cases e with
  | number literal =>
      obtain ⟨bits, hbits⟩ := Option.isSome_iff_exists.mp h
      exact ⟨bits, by simp [eval, hbits], by simp [position, hbits]⟩
  | _ => exact absurd h (by simp [IsLiteral])

/-- A part of a word can be taken if it begins inside the word. -/
theorem field_ok {w : Word} {lo : Nat} (length : Nat) (h : lo < wordBits) :
    w.field lo length = .ok ⟨(w.down lo).low length, length⟩ := by
  simp [Word.field, checkShift, h]

mutual
/-- A typed expression has its value and its size. -/
theorem eval_eq {widths : Widths} (values : Valuation) : ∀ {e : Expr}, e.Typed widths →
    e.eval widths values = .ok ⟨e.value widths.width values.get, e.size widths.width⟩
  | .number literal, h => by
      obtain ⟨bits, hbits⟩ := Option.isSome_iff_exists.mp h
      simp [eval, hbits, value, size]
  | .ident name, h => by
      simp [eval, Widths.get_of_declares h, value, size]
  | .index name position, ⟨_, hlit, hreach⟩ => by
      obtain ⟨bits, hbits, hindex⟩ := eval_literal widths values hlit
      simp [eval, hbits, hindex, field_ok 1 hreach, value, size]
  | .slice name base length, ⟨_, hbase, hlength, hreach⟩ => by
      obtain ⟨lo, hlo, hloIndex⟩ := eval_literal widths values hbase
      obtain ⟨len, hlen, hlenIndex⟩ := eval_literal widths values hlength
      simp [eval, hlo, hlen, hloIndex, hlenIndex, field_ok _ hreach, value, size]
  | .concat parts, h => by
      have hparts := evalParts_eq values 0 0 (show TypedAll widths parts from h)
      rw [eval, hparts, value, size, Nat.zero_add]
  | .paren inner, h => by
      rw [eval, eval_eq values (show inner.Typed widths from h), value, size]
  | .not operand, h => by
      rw [eval, eval_eq values (show operand.Typed widths from h), value, size]
      rfl
  | .binary op lhs rhs, ⟨hl, hr⟩ => by
      simp [eval, eval_eq values hl, eval_eq values hr, value, size, BinaryOp.eval]
  | .cond test onTrue onFalse, ⟨hc, ht, hf⟩ => by
      simp [eval, eval_eq values hc, eval_eq values ht, eval_eq values hf, value, size]
/-- Parts side by side are evaluated from the most significant down, on top of what came before. -/
theorem evalParts_eq {widths : Widths} (values : Valuation) (above : Word) (room : Nat) :
    ∀ {parts : List Expr}, TypedAll widths parts →
    evalParts widths values ⟨above, room⟩ parts =
      .ok ⟨valueAll widths.width values.get above parts, room + sizeAll widths.width parts⟩
  | [], _ => by simp [evalParts, valueAll, sizeAll]
  | part :: rest, ⟨hpart, hreach, hrest⟩ => by
      -- what stands above moves up by the size of this part
      simp [evalParts, eval_eq values hpart, Bits.above, checkShift, hreach,
        evalParts_eq values _ _ hrest, valueAll, sizeAll, Nat.add_assoc]
end

mutual
/-- An expression is worth the same in states that agree on what it reads. -/
theorem value_congr {width : String → Nat} {s t : State} : ∀ {e : Expr},
    (∀ name ∈ e.reads, s name = t name) → e.value width s = e.value width t
  | .number _, _ => rfl
  | .ident name, h => h name (by simp [reads])
  | .index name position, h => by simp [value, h name (by simp [reads])]
  | .slice name base length, h => by simp [value, h name (by simp [reads])]
  | .concat parts, h => by
      simp only [value]
      exact valueAll_congr 0 h
  | .paren inner, h => by
      simp only [value]
      exact value_congr h
  | .not operand, h => by
      have hoperand : operand.value width s = operand.value width t := value_congr h
      simp only [value, hoperand]
  | .binary op lhs rhs, h => by
      have hl : lhs.value width s = lhs.value width t :=
        value_congr fun name hname => h name (List.mem_append_left _ hname)
      have hr : rhs.value width s = rhs.value width t :=
        value_congr fun name hname => h name (List.mem_append_right _ hname)
      simp only [value, hl, hr]
  | .cond test onTrue onFalse, h => by
      have hc : test.value width s = test.value width t :=
        value_congr fun name hname => h name (List.mem_append_left _ hname)
      have ht : onTrue.value width s = onTrue.value width t :=
        value_congr fun name hname =>
          h name (List.mem_append_right _ (List.mem_append_left _ hname))
      have hf : onFalse.value width s = onFalse.value width t :=
        value_congr fun name hname =>
          h name (List.mem_append_right _ (List.mem_append_right _ hname))
      simp only [value, hc, ht, hf]
theorem valueAll_congr {width : String → Nat} {s t : State} (above : Word) : ∀ {parts : List Expr},
    (∀ name ∈ readsAll parts, s name = t name) →
    valueAll width s above parts = valueAll width t above parts
  | [], _ => rfl
  | part :: rest, h => by
      have hpart : part.value width s = part.value width t :=
        value_congr fun name hname => h name (List.mem_append_left _ hname)
      simp only [valueAll, hpart]
      exact valueAll_congr _ fun name hname => h name (List.mem_append_right _ hname)
end

/-! ## Renaming -/

section

variable {f : String → String}

@[simp] theorem position_renamed (e : Expr) : (e.renamed f).position = e.position := by
  cases e <;> simp [renamed, position]

@[simp] theorem isLiteral_renamed (e : Expr) : (e.renamed f).IsLiteral ↔ e.IsLiteral := by
  cases e <;> simp [renamed, IsLiteral]

mutual
theorem renamed_id : ∀ e : Expr, e.renamed id = e
  | .number _ => rfl
  | .ident _ => rfl
  | .index _ position => by simp [renamed, renamed_id position]
  | .slice _ base length => by simp [renamed, renamed_id base, renamed_id length]
  | .concat parts => by simp [renamed, renamedAll_id parts]
  | .paren inner => by simp [renamed, renamed_id inner]
  | .not operand => by simp [renamed, renamed_id operand]
  | .binary _ lhs rhs => by simp [renamed, renamed_id lhs, renamed_id rhs]
  | .cond test onTrue onFalse => by
      simp [renamed, renamed_id test, renamed_id onTrue, renamed_id onFalse]
theorem renamedAll_id : ∀ parts : List Expr, renamedAll id parts = parts
  | [] => rfl
  | part :: rest => by simp [renamedAll, renamed_id part, renamedAll_id rest]
end

mutual
/-- Renaming an expression renames what it reads. -/
theorem reads_renamed : ∀ e : Expr, (e.renamed f).reads = e.reads.map f
  | .number _ => rfl
  | .ident _ => rfl
  | .index _ _ => rfl
  | .slice _ _ _ => rfl
  | .concat parts => readsAll_renamed parts
  | .paren inner => reads_renamed inner
  | .not operand => reads_renamed operand
  | .binary _ lhs rhs => by simp [renamed, reads, reads_renamed lhs, reads_renamed rhs]
  | .cond test onTrue onFalse => by
      simp [renamed, reads, reads_renamed test, reads_renamed onTrue, reads_renamed onFalse]
theorem readsAll_renamed :
    ∀ parts : List Expr, readsAll (renamedAll f parts) = (readsAll parts).map f
  | [] => rfl
  | part :: rest => by simp [renamedAll, readsAll, reads_renamed part, readsAll_renamed rest]
end

mutual
/-- An expression whose evaluation does not fail reads declared signals only. -/
theorem declares_reads {widths : Widths} :
    ∀ {e : Expr}, e.Typed widths → ∀ name ∈ e.reads, widths.Declares name
  | .number _, _, _, h => absurd h List.not_mem_nil
  | .ident _, ht, _, h => List.mem_singleton.mp h ▸ ht
  | .index _ _, ht, _, h => List.mem_singleton.mp h ▸ ht.1
  | .slice _ _ _, ht, _, h => List.mem_singleton.mp h ▸ ht.1
  | .concat parts, ht, name, h => declaresAll_reads (show TypedAll widths parts from ht) name h
  | .paren inner, ht, name, h => declares_reads (show inner.Typed widths from ht) name h
  | .not operand, ht, name, h => declares_reads (show operand.Typed widths from ht) name h
  | .binary _ lhs rhs, ⟨hl, hr⟩, name, h => by
      rcases List.mem_append.mp h with h | h
      · exact declares_reads hl name h
      · exact declares_reads hr name h
  | .cond test onTrue onFalse, ⟨hc, ht, hf⟩, name, h => by
      rcases List.mem_append.mp h with h | h
      · exact declares_reads hc name h
      · rcases List.mem_append.mp h with h | h
        · exact declares_reads ht name h
        · exact declares_reads hf name h
theorem declaresAll_reads {widths : Widths} : ∀ {parts : List Expr}, TypedAll widths parts →
    ∀ name ∈ readsAll parts, widths.Declares name
  | [], _, _, h => absurd h List.not_mem_nil
  | part :: rest, ⟨hpart, _, hrest⟩, name, h => by
      rcases List.mem_append.mp h with h | h
      · exact declares_reads hpart name h
      · exact declaresAll_reads hrest name h
end

mutual
/-- Renaming to signals of the same widths keeps the width of an expression. -/
theorem size_renamed {width inner : String → Nat} : ∀ {e : Expr},
    (∀ name ∈ e.reads, width (f name) = inner name) → (e.renamed f).size width = e.size inner
  | .number _, _ => rfl
  | .ident name, h => h name (by simp [reads])
  | .index _ _, _ => rfl
  | .slice _ _ length, _ => position_renamed length
  | .concat parts, h => sizeAll_renamed (show ∀ name ∈ readsAll parts, _ from h)
  | .paren e, h => size_renamed (e := e) h
  | .not e, h => size_renamed (e := e) h
  | .binary _ lhs rhs, h => by
      simp only [renamed, size]
      rw [size_renamed fun name hname => h name (List.mem_append_left _ hname),
        size_renamed fun name hname => h name (List.mem_append_right _ hname)]
  | .cond test onTrue onFalse, h => by
      simp only [renamed, size]
      rw [size_renamed fun name hname =>
        h name (List.mem_append_right _ (List.mem_append_left _ hname)),
        size_renamed fun name hname =>
          h name (List.mem_append_right _ (List.mem_append_right _ hname))]
theorem sizeAll_renamed {width inner : String → Nat} : ∀ {parts : List Expr},
    (∀ name ∈ readsAll parts, width (f name) = inner name) →
    sizeAll width (renamedAll f parts) = sizeAll inner parts
  | [], _ => rfl
  | part :: rest, h => by
      simp only [renamedAll, sizeAll]
      rw [size_renamed fun name hname => h name (List.mem_append_left _ hname),
        sizeAll_renamed fun name hname => h name (List.mem_append_right _ hname)]
end

mutual
/--
A renamed expression is worth what the expression is worth to one who looks
through the renaming.
-/
theorem value_renamed {width inner : String → Nat} {state : State} : ∀ {e : Expr},
    (∀ name ∈ e.reads, width (f name) = inner name) →
    (e.renamed f).value width state = e.value inner (state ∘ f)
  | .number _, _ => rfl
  | .ident _, _ => rfl
  | .index _ _, _ => by simp [renamed, value]
  | .slice _ _ _, _ => by simp [renamed, value]
  | .concat parts, h => valueAll_renamed 0 (show ∀ name ∈ readsAll parts, _ from h)
  | .paren e, h => value_renamed (e := e) h
  | .not e, h => by
      have he : ∀ name ∈ e.reads, width (f name) = inner name := h
      simp only [renamed, value]
      rw [value_renamed he, size_renamed he]
  | .binary _ lhs rhs, h => by
      have hl : ∀ name ∈ lhs.reads, width (f name) = inner name :=
        fun name hname => h name (List.mem_append_left _ hname)
      have hr : ∀ name ∈ rhs.reads, width (f name) = inner name :=
        fun name hname => h name (List.mem_append_right _ hname)
      simp only [renamed, value]
      rw [value_renamed hl, value_renamed hr, size_renamed hl, size_renamed hr]
  | .cond test onTrue onFalse, h => by
      simp only [renamed, value]
      rw [value_renamed fun name hname => h name (List.mem_append_left _ hname),
        value_renamed fun name hname =>
          h name (List.mem_append_right _ (List.mem_append_left _ hname)),
        value_renamed fun name hname =>
          h name (List.mem_append_right _ (List.mem_append_right _ hname))]
theorem valueAll_renamed {width inner : String → Nat} {state : State} (above : Word) :
    ∀ {parts : List Expr},
    (∀ name ∈ readsAll parts, width (f name) = inner name) →
    valueAll width state above (renamedAll f parts) = valueAll inner (state ∘ f) above parts
  | [], _ => rfl
  | part :: rest, h => by
      have hpart : ∀ name ∈ part.reads, width (f name) = inner name :=
        fun name hname => h name (List.mem_append_left _ hname)
      simp only [renamedAll, valueAll]
      rw [value_renamed hpart, size_renamed hpart,
        valueAll_renamed _ fun name hname => h name (List.mem_append_right _ hname)]
end

theorem reads_embed {inner outer : Widths} (hf : inner.Embeds f outer) {e : Expr}
    (h : e.Typed inner) : ∀ name ∈ e.reads, outer.width (f name) = inner.width name :=
  fun name hname => (hf name (declares_reads h name hname)).2

mutual
/-- A renaming that respects declarations and widths cannot make evaluation fail. -/
theorem typed_renamed {inner outer : Widths} (hf : inner.Embeds f outer) : ∀ {e : Expr},
    e.Typed inner → (e.renamed f).Typed outer
  | .number _, h => h
  | .ident name, h => (hf name h).1
  | .index name position, ⟨hname, hlit, hreach⟩ => by
      simpa [renamed, Typed] using ⟨(hf name hname).1, hlit, hreach⟩
  | .slice name base length, ⟨hname, hbase, hlength, hreach⟩ => by
      simpa [renamed, Typed] using ⟨(hf name hname).1, hbase, hlength, hreach⟩
  | .concat parts, h => typedAll_renamed hf (show TypedAll inner parts from h)
  | .paren e, h => typed_renamed hf (e := e) h
  | .not e, h => typed_renamed hf (e := e) h
  | .binary _ _ _, ⟨hl, hr⟩ => ⟨typed_renamed hf hl, typed_renamed hf hr⟩
  | .cond _ _ _, ⟨hc, ht, hf'⟩ => ⟨typed_renamed hf hc, typed_renamed hf ht, typed_renamed hf hf'⟩
theorem typedAll_renamed {inner outer : Widths} (hf : inner.Embeds f outer) : ∀ {parts : List Expr},
    TypedAll inner parts → TypedAll outer (renamedAll f parts)
  | [], _ => trivial
  | part :: rest, ⟨hpart, hreach, hrest⟩ => by
      refine ⟨typed_renamed hf hpart, ?_, typedAll_renamed hf hrest⟩
      rw [size_renamed (reads_embed hf hpart)]
      exact hreach
end

end

end Expr

end Handshake
