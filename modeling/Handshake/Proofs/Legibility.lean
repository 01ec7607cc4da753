import Handshake.Proofs.Grouping
import Handshake.Simulation.Eval

/-!
# Text determines the expression

Whether two expressions can have one text is a question about pairs of
expressions, with a case for every pair of constructors. It becomes a question
about single ones by reading the text: a reader that goes through it from left
to right, and always knows from the next few characters what comes next, finds
the expression that was written. So there was only one.

The reader groups conditionals to the right, as the language does, and what it
finds is the regrouped expression. In every place where an expression may stand,
something follows it that cannot be taken for a part of it (`Ends`, `Stops`);
that is all the proof has to keep track of, apart from the depth. The depth only
makes the reader a function: four for each constructor are enough, since there
are four readers on the way from an expression to the next one inside it.
-/

namespace Handshake

namespace Expr

/-! ## Reading -/

/-- What follows some text. -/
def after? (text : String) (cs : List Char) : Option (List Char) := text.toList.isPrefixOf? cs

/-- A character of a name or a literal. -/
def isWordPart (c : Char) : Bool := isNamePart c || c == '\x27'

/-- A word that stands alone: a literal if it begins with a digit, and else a name. -/
def leaf (word : List Char) : Expr :=
  if word.head?.any Char.isDigit then .number (String.ofList word) else .ident (String.ofList word)

/-- An operator with its blanks. -/
def spaced (op : BinaryOp) : String := " " ++ op.render ++ " "

/-- The operator that a text begins with, and what follows it. -/
def sign? (cs : List Char) : Option (BinaryOp × List Char) :=
  [BinaryOp.mul, .or, .and].findSome? fun op => (after? (spaced op) cs).map fun rest => (op, rest)

mutual
/--
Reads an expression from the beginning of a text, and returns what is left; the
number bounds the depth.
-/
def readExpr : Nat → List Char → Option (Expr × List Char)
  | 0, _ => none
  | n + 1, cs => do
    let (first, cs) ← readOperand n cs
    let (test, cs) ← readMore n first cs
    match after? " ? " cs with
    | none => return (test, cs)
    | some cs =>
      let (onTrue, cs) ← readExpr n cs
      let cs ← after? " : " cs
      let (onFalse, cs) ← readExpr n cs
      return (.cond test onTrue onFalse, cs)
/-- Continues a chain of binary operators. -/
def readMore : Nat → Expr → List Char → Option (Expr × List Char)
  | 0, _, _ => none
  | n + 1, lhs, cs =>
    match sign? cs with
    | none => some (lhs, cs)
    | some (op, cs) => do
      let (rhs, cs) ← readOperand n cs
      readMore n (.binary op lhs rhs) cs
/-- Reads an operand of a binary operator. -/
def readOperand : Nat → List Char → Option (Expr × List Char)
  | 0, _ => none
  | n + 1, cs =>
    match after? "~" cs with
    | none => readPrimary n cs
    | some cs => do
      let (operand, cs) ← readPrimary n cs
      return (.not operand, cs)
/-- Reads a primary. -/
def readPrimary : Nat → List Char → Option (Expr × List Char)
  | 0, _ => none
  | n + 1, cs =>
    match after? "(" cs, after? "\x7b" cs with
    | some cs, _ => do
      let (inner, cs) ← readExpr n cs
      let cs ← after? ")" cs
      return (.paren inner, cs)
    | none, some cs => do
      let (parts, cs) ← readParts n cs
      return (.concat parts, cs)
    | none, none => readWord n (cs.takeWhile isWordPart) (cs.dropWhile isWordPart)
/-- Reads what may follow a word. -/
def readWord : Nat → List Char → List Char → Option (Expr × List Char)
  | 0, _, _ => none
  | n + 1, word, cs =>
    match after? "[" cs with
    | none => some (leaf word, cs)
    | some cs => do
      let (first, cs) ← readExpr n cs
      match after? " +: " cs with
      | none =>
        let cs ← after? "]" cs
        return (.index (String.ofList word) first, cs)
      | some cs =>
        let (length, cs) ← readExpr n cs
        let cs ← after? "]" cs
        return (.slice (String.ofList word) first length, cs)
/-- Reads the parts of a concatenation, from the first one on. -/
def readParts : Nat → List Char → Option (List Expr × List Char)
  | 0, _ => none
  | n + 1, cs =>
    match after? "\x7d" cs with
    | some cs => some ([], cs)
    | none => do
      let (part, cs) ← readExpr n cs
      let (rest, cs) ← readLater n cs
      return (part :: rest, cs)
/-- Reads the parts of a concatenation that come after one. -/
def readLater : Nat → List Char → Option (List Expr × List Char)
  | 0, _ => none
  | n + 1, cs =>
    match after? ", " cs with
    | none => do
      let cs ← after? "\x7d" cs
      return ([], cs)
    | some cs => do
      let (part, cs) ← readExpr n cs
      let (rest, cs) ← readLater n cs
      return (part :: rest, cs)
end

/-! ## Where one thing ends and the next begins -/

/-- A text is found at its beginning, and what is left is what followed. -/
theorem after?_append (text : String) (cs : List Char) :
    after? text (text.toList ++ cs) = some cs :=
  List.isPrefixOf?_eq_some_iff_append_eq.mpr rfl

/-- Two texts differ before either of them ends. -/
def differ : List Char → List Char → Bool
  | c :: cs, d :: ds => c != d || differ cs ds
  | _, _ => false

/-- Texts that differ somewhere within both of them go on differently. -/
theorem append_ne_of_differ :
    ∀ {xs ys : List Char}, differ xs ys = true → ∀ cs ds, xs ++ cs ≠ ys ++ ds
  | x :: xs, y :: ys, h, cs, ds => by
      rw [differ, Bool.or_eq_true, bne_iff_ne] at h
      rw [List.cons_append, List.cons_append, ne_eq, List.cons.injEq]
      rintro ⟨rfl, heq⟩
      exact append_ne_of_differ (h.resolve_left fun hne => hne rfl) cs ds heq

theorem after?_of_differ (text : String) {begun : List Char} (h : differ text.toList begun = true)
    (cs : List Char) : after? text (begun ++ cs) = none := by
  cases hafter : after? text (begun ++ cs) with
  | none => rfl
  | some rest =>
      exact absurd (List.isPrefixOf?_eq_some_iff_append_eq.mp hafter)
        (append_ne_of_differ h rest cs)

/-- The reader finds the operator that was written. -/
theorem sign?_append (op : BinaryOp) (cs : List Char) :
    sign? ((spaced op).toList ++ cs) = some (op, cs) := by
  have hother : ∀ other : BinaryOp, other ≠ op →
      after? (spaced other) ((spaced op).toList ++ cs) = none := by
    intro other hne
    refine after?_of_differ _ ?_ cs
    revert hne
    cases op <;> cases other <;> decide
  cases op with
  | mul => simp [sign?, after?_append]
  | or => simp [sign?, after?_append, hother .mul]
  | and => simp [sign?, after?_append, hother .mul, hother .or]

/-- A text that cannot continue a word. -/
structure Ends (rest : List Char) : Prop where
  word : ∀ c ∈ rest.head?, isWordPart c = false
  bracket : after? "[" rest = none

/-- A text that cannot continue an expression. -/
structure Stops (rest : List Char) : Prop extends Ends rest where
  sign : sign? rest = none
  test : after? " ? " rest = none

theorem stops_nil : Stops [] where
  word := by simp
  bracket := by decide
  sign := by decide
  test := by decide

/-- A text that cannot be taken for a part of the word before it. -/
def separates (text : String) : Bool := text.toList.head?.any fun c => !isWordPart c

/-- A text that cannot be taken for a part of the expression before it. -/
def closes (text : String) : Bool :=
  separates text && differ "[".toList text.toList &&
    [BinaryOp.mul, .or, .and].all (fun op => differ (spaced op).toList text.toList) &&
      differ " ? ".toList text.toList

theorem head_append (text : String) (h : separates text = true) (cs : List Char) :
    ∀ c ∈ (text.toList ++ cs).head?, isWordPart c = false := by
  rw [separates] at h
  cases htext : text.toList with
  | nil => rw [htext] at h; exact absurd h (by simp)
  | cons c rest => rw [htext] at h; simpa using h

theorem ends_append (text : String) (h : separates text = true)
    (hbracket : differ "[".toList text.toList = true) (cs : List Char) : Ends (text.toList ++ cs) :=
  ⟨head_append text h cs, after?_of_differ _ hbracket cs⟩

theorem sign?_of_differ (text : String)
    (h : ∀ op ∈ [BinaryOp.mul, .or, .and], differ (spaced op).toList text.toList = true)
    (cs : List Char) : sign? (text.toList ++ cs) = none := by
  rw [sign?, List.findSome?_eq_none_iff]
  intro op hop
  rw [after?_of_differ _ (h op hop), Option.map_none]

/-- A text that closes something stops whatever was being read. -/
theorem stops_append (text : String) (h : closes text = true) (cs : List Char) :
    Stops (text.toList ++ cs) := by
  simp only [closes, Bool.and_eq_true, List.all_eq_true] at h
  obtain ⟨⟨⟨hword, hbracket⟩, hsign⟩, htest⟩ := h
  exact ⟨ends_append text hword hbracket cs, sign?_of_differ text hsign cs,
    after?_of_differ _ htest cs⟩

/-! ## Words -/

/-- A text whose first character is of a kind. -/
def Starts (p : Char → Bool) (cs : List Char) : Prop := ∃ c rest, cs = c :: rest ∧ p c = true

theorem Starts.append {p : Char → Bool} {cs : List Char} (h : Starts p cs) (ds : List Char) :
    Starts p (cs ++ ds) := by
  obtain ⟨c, rest, rfl, hc⟩ := h
  exact ⟨c, rest ++ ds, rfl, hc⟩

theorem Starts.imp {p q : Char → Bool} {cs : List Char} (h : Starts p cs)
    (hpq : ∀ c, p c = true → q c = true) : Starts q cs := by
  obtain ⟨c, rest, rfl, hc⟩ := h
  exact ⟨c, rest, rfl, hpq c hc⟩

/-- What begins with another kind of character does not begin with a text. -/
theorem Starts.after?_eq_none {p : Char → Bool} {cs : List Char} (h : Starts p cs) {text : String}
    (htext : text.toList.head?.any (fun c => !p c) = true) : after? text cs = none := by
  obtain ⟨c, rest, rfl, hc⟩ := h
  have hdiffer : differ text.toList [c] = true := by
    cases hlist : text.toList with
    | nil => rw [hlist] at htext; exact absurd htext (by simp)
    | cons d ds =>
        rw [hlist] at htext
        have hne : d ≠ c := by
          rintro rfl
          simp [hc] at htext
        simp [differ, hne]
  exact after?_of_differ text hdiffer rest

/-- A name or a literal. -/
structure IsWord (word : String) : Prop where
  starts : Starts isWordPart word.toList
  all : ∀ c ∈ word.toList, isWordPart c = true

/-- A word is read to its end, if what follows is no part of a word. -/
theorem IsWord.takeWhile {word : String} (h : IsWord word) {rest : List Char}
    (hrest : ∀ c ∈ rest.head?, isWordPart c = false) :
    (word.toList ++ rest).takeWhile isWordPart = word.toList := by
  rw [List.takeWhile_append_of_pos h.all]
  cases rest with
  | nil => simp
  | cons c cs => rw [List.takeWhile_cons_of_neg (by simp [hrest c (by simp)]), List.append_nil]

theorem IsWord.dropWhile {word : String} (h : IsWord word) {rest : List Char}
    (hrest : ∀ c ∈ rest.head?, isWordPart c = false) :
    (word.toList ++ rest).dropWhile isWordPart = rest := by
  rw [List.dropWhile_append_of_pos h.all]
  cases rest with
  | nil => simp
  | cons c cs => rw [List.dropWhile_cons_of_neg (by simp [hrest c (by simp)])]

theorem isWord_identifier {name : String} (h : isIdentifier name = true) : IsWord name := by
  have hsimple := (isIdentifier_iff.mp h).1
  have hparts := List.all_eq_true.mp (isNamePart_of_isSimpleName hsimple)
  have hall : ∀ c ∈ name.toList, isWordPart c = true :=
    fun c hc => by simp [isWordPart, hparts c hc]
  cases hname : name.toList with
  | nil => rw [hname] at hsimple; exact absurd hsimple (by simp [isSimpleName])
  | cons c rest => exact ⟨⟨c, rest, hname, hall c (by simp [hname])⟩, hall⟩

theorem isWordPart_of_isDigit {c : Char} (h : c.isDigit = true) : isWordPart c = true := by
  simp [isWordPart, isNamePart, Char.isAlphanum, h]

/-- No name begins with a digit. -/
theorem not_isDigit_of_isNameStart {c : Char} (h : isNameStart c = true) : c.isDigit = false := by
  rw [isNameStart, Bool.or_eq_true, beq_iff_eq] at h
  rcases h with h | rfl
  · have hletter : (65 ≤ c.val.toNat ∧ c.val.toNat ≤ 90) ∨
        (97 ≤ c.val.toNat ∧ c.val.toNat ≤ 122) := by
      rcases Bool.or_eq_true _ _ ▸ h with hupper | hlower
      · exact Or.inl (of_decide_eq_true hupper)
      · obtain ⟨hlo, hhi⟩ := Bool.and_eq_true _ _ ▸ hlower
        exact Or.inr ⟨of_decide_eq_true hlo, of_decide_eq_true hhi⟩
    have habove : ¬ c.val.toNat ≤ 57 := by omega
    exact Bool.and_eq_false_iff.mpr (Or.inr (decide_eq_false habove))
  · decide

/-- An identifier is read as a name, since it does not begin with a digit. -/
theorem leaf_identifier {name : String} (h : isIdentifier name = true) :
    leaf name.toList = .ident name := by
  have hsimple := (isIdentifier_iff.mp h).1
  have hdigit : name.toList.head?.any Char.isDigit = false := by
    cases hname : name.toList with
    | nil => rfl
    | cons c rest =>
        rw [hname, isSimpleName, Bool.and_eq_true] at hsimple
        exact not_isDigit_of_isNameStart hsimple.1
  rw [leaf, if_neg (by simp [hdigit]), String.ofList_toList]

/-- A literal begins with digits, after which there may be a base and more digits. -/
theorem literal_cases {text : String} (h : isLiteralText text = true) :
    ∃ c width rest, text.toList = c :: width ++ rest ∧ (∀ d ∈ c :: width, d.isDigit = true) ∧
      ∀ d ∈ rest, isWordPart d = true := by
  rw [isLiteralText, Bool.and_eq_true] at h
  obtain ⟨hwidth, hrest⟩ := h
  have hne : text.toList.takeWhile Char.isDigit ≠ [] := by simpa using hwidth
  obtain ⟨c, width, hdigits⟩ := List.exists_cons_of_ne_nil hne
  refine ⟨c, width, text.toList.dropWhile Char.isDigit, ?_, ?_, ?_⟩
  · rw [← hdigits, List.takeWhile_append_dropWhile]
  · rw [← hdigits]
    exact fun d hd => List.mem_takeWhile_imp hd
  · split at hrest
    · rename_i hnil
      simp [hnil]
    · rename_i digits hbinary
      rw [Bool.and_eq_true, List.all_eq_true] at hrest
      rw [hbinary, List.forall_mem_cons, List.forall_mem_cons]
      refine ⟨by decide, by decide, fun d hd => ?_⟩
      have hd := hrest.2 d hd
      rw [Bool.or_eq_true, beq_iff_eq, beq_iff_eq] at hd
      rcases hd with rfl | rfl <;> decide
    · rename_i digits hdecimal
      rw [Bool.and_eq_true, List.all_eq_true] at hrest
      rw [hdecimal, List.forall_mem_cons, List.forall_mem_cons]
      exact ⟨by decide, by decide, fun d hd => isWordPart_of_isDigit (hrest.2 d hd)⟩
    · exact absurd hrest (by simp)

theorem isWord_literal {text : String} (h : isLiteralText text = true) : IsWord text := by
  obtain ⟨c, width, rest, htext, hdigits, hrest⟩ := literal_cases h
  refine ⟨⟨c, width ++ rest, htext, isWordPart_of_isDigit (hdigits c (by simp))⟩, fun d hd => ?_⟩
  rw [htext] at hd
  rcases List.mem_append.mp hd with hd | hd
  · exact isWordPart_of_isDigit (hdigits d hd)
  · exact hrest d hd

/-- A literal is read as a number, since it does. -/
theorem leaf_literal {text : String} (h : isLiteralText text = true) :
    leaf text.toList = .number text := by
  obtain ⟨c, width, rest, htext, hdigits, -⟩ := literal_cases h
  have hdigit : text.toList.head?.any Char.isDigit = true := by
    rw [htext]
    exact hdigits c (by simp)
  rw [leaf, if_pos hdigit, String.ofList_toList]

/-! ## How expressions begin -/

/-- A character that a primary begins with. -/
def isPrimaryStart (c : Char) : Bool := isWordPart c || c == '(' || c == '\x7b'

/-- A character that an expression begins with. -/
def isStart (c : Char) : Bool := isPrimaryStart c || c == '~'

theorem starts_text {p : Char → Bool} (text : String) (h : text.toList.head?.any p = true)
    (cs : List Char) : Starts p (text.toList ++ cs) := by
  cases htext : text.toList with
  | nil => rw [htext] at h; exact absurd h (by simp)
  | cons c rest => rw [htext] at h; exact ⟨c, rest ++ cs, rfl, h⟩

theorem starts_primary {e : Expr} (hprimary : e.isPrimary = true) (h : e.Shaped) :
    Starts isPrimaryStart e.render.toList := by
  have hword : ∀ {word : String} (rest : List Char), IsWord word →
      Starts isPrimaryStart (word.toList ++ rest) :=
    fun rest hword => (hword.starts.imp fun c hc => by simp [isPrimaryStart, hc]).append rest
  cases e with
  | number literal => simpa only [render, List.append_nil] using hword [] (isWord_literal h)
  | ident name => simpa only [render, List.append_nil] using hword [] (isWord_identifier h)
  | index name position =>
      simpa only [render, String.toList_append, List.append_assoc]
        using hword _ (isWord_identifier h.1)
  | slice name base length =>
      simpa only [render, String.toList_append, List.append_assoc]
        using hword _ (isWord_identifier h.1)
  | concat parts =>
      simpa only [render, String.toList_append, List.append_assoc]
        using starts_text "\x7b" (by decide) _
  | paren inner =>
      simpa only [render, String.toList_append, List.append_assoc]
        using starts_text "(" (by decide) _
  | _ => exact absurd hprimary (by simp [isPrimary])

/-- Expressions begin with a word, an opening bracket or a complement, and with nothing else. -/
theorem starts : ∀ {e : Expr}, e.Shaped → Starts isStart e.render.toList
  | .binary _ _ _, h => by
      simpa only [render, String.toList_append, List.append_assoc] using (starts h.2.2.1).append _
  | .cond _ _ _, h => by
      simpa only [render, String.toList_append, List.append_assoc] using (starts h.1).append _
  | .not _, _ => by
      simpa only [render, String.toList_append] using starts_text "~" (by decide) _
  | .number _, h | .ident _, h | .index _ _, h | .slice _ _ _, h | .concat _, h | .paren _, h =>
      (starts_primary rfl h).imp fun c hc => by simp [isStart, hc]

/-! ## Reading back -/

/-- Reads a chain: its first operand, and what continues it. -/
def readChain (n : Nat) (cs : List Char) : Option (Expr × List Char) := do
  let (first, cs) ← readOperand n cs
  readMore n first cs

/--
Where the text of an expression stands, the expression is read, if the depth
suffices and the text ends there.
-/
def Reads (read : Nat → List Char → Option (Expr × List Char)) (slack : Nat)
    (Follows : List Char → Prop) (e : Expr) : Prop :=
  ∀ (n : Nat) (rest : List Char), 4 * sizeOf e + slack ≤ n → Follows rest →
    read n (e.render.toList ++ rest) = some (e, rest)

/-- An expression that may be the beginning of a chain. -/
def Continues (e : Expr) : Prop :=
  ∀ (n : Nat) (rest : List Char), 4 * sizeOf e + 1 ≤ n → Ends rest →
    ∃ m, n ≤ m + 4 * sizeOf e ∧ readChain n (e.render.toList ++ rest) = readMore m e rest

/-- An expression is read in every place where it may stand. -/
structure ReadsBack (e : Expr) : Prop where
  primary : e.isPrimary = true → Reads readPrimary 0 Ends e
  operand : e.isOperand = true → Reads readOperand 1 Ends e
  chain : e.isCond = false → Continues e
  expr : Reads readExpr 2 Stops e

/-! ### From one place to the next -/

/-- What reads as a primary reads as an operand. -/
theorem Reads.operand {e : Expr} (h : Reads readPrimary 0 Ends e)
    (hstarts : Starts isPrimaryStart e.render.toList) : Reads readOperand 1 Ends e := by
  intro n rest hn hrest
  obtain ⟨m, rfl⟩ : ∃ m, n = m + 1 := ⟨n - 1, by omega⟩
  rw [readOperand, (hstarts.append rest).after?_eq_none (by decide)]
  exact h m rest (by omega) hrest

/-- What reads as an operand can be the first of a chain. -/
theorem Reads.continues {e : Expr} (h : Reads readOperand 1 Ends e) : Continues e := by
  intro n rest hn hrest
  refine ⟨n, by omega, ?_⟩
  rw [readChain, h n rest hn hrest]
  rfl

/-- A chain that ends is read. -/
theorem Continues.readChain {e : Expr} (h : Continues e) {n : Nat} {rest : List Char}
    (hn : 4 * sizeOf e + 1 ≤ n) (hrest : Ends rest) (hsign : sign? rest = none) :
    readChain n (e.render.toList ++ rest) = some (e, rest) := by
  obtain ⟨m, hm, hchain⟩ := h n rest hn hrest
  obtain ⟨k, rfl⟩ : ∃ k, m = k + 1 := ⟨m - 1, by omega⟩
  rw [hchain, readMore, hsign]

theorem readExpr_chain {n : Nat} {cs rest : List Char} {e : Expr}
    (h : readChain n cs = some (e, rest)) (htest : after? " ? " rest = none) :
    readExpr (n + 1) cs = some (e, rest) := by
  obtain ⟨⟨first, more⟩, hfirst, hmore⟩ := Option.bind_eq_some_iff.mp h
  dsimp only at hmore
  rw [readExpr, hfirst]
  simp only [Option.bind_eq_bind, Option.bind_some, hmore]
  simp only [htest]
  rfl

/-- Reading a conditional, piece by piece. -/
theorem readExpr_cond {n : Nat} {cs cs₁ cs₂ cs₃ cs₄ rest : List Char} {test onTrue onFalse : Expr}
    (h : readChain n cs = some (test, cs₁)) (htest : after? " ? " cs₁ = some cs₂)
    (htrue : readExpr n cs₂ = some (onTrue, cs₃)) (helse : after? " : " cs₃ = some cs₄)
    (hfalse : readExpr n cs₄ = some (onFalse, rest)) :
    readExpr (n + 1) cs = some (.cond test onTrue onFalse, rest) := by
  obtain ⟨⟨first, more⟩, hfirst, hmore⟩ := Option.bind_eq_some_iff.mp h
  dsimp only at hmore
  rw [readExpr, hfirst]
  simp only [Option.bind_eq_bind, Option.bind_some, hmore]
  simp only [htest, htrue, helse, hfalse, Option.bind_some]
  rfl

/-- A chain reads as an expression where nothing follows that belongs to it. -/
theorem Continues.expr {e : Expr} (h : Continues e) : Reads readExpr 2 Stops e := by
  intro n rest hn hrest
  obtain ⟨m, rfl⟩ : ∃ m, n = m + 1 := ⟨n - 1, by omega⟩
  exact readExpr_chain (h.readChain (by omega) hrest.toEnds hrest.sign) hrest.test

theorem readsBack_of_primary {e : Expr} (hprimary : e.isPrimary = true) (hshaped : e.Shaped)
    (h : Reads readPrimary 0 Ends e) : ReadsBack e :=
  have hoperand := h.operand (starts_primary hprimary hshaped)
  ⟨fun _ => h, fun _ => hoperand, fun _ => hoperand.continues, hoperand.continues.expr⟩

/-! ### Constructor by constructor -/

/-- Where a word stands, it is read whole. -/
theorem readPrimary_word {word : String} (h : IsWord word) {rest : List Char}
    (hrest : ∀ c ∈ rest.head?, isWordPart c = false) (n : Nat) :
    readPrimary (n + 1) (word.toList ++ rest) = readWord n word.toList rest := by
  have hstarts := h.starts.append rest
  rw [readPrimary, hstarts.after?_eq_none (by decide), hstarts.after?_eq_none (by decide),
    h.takeWhile hrest, h.dropWhile hrest]

theorem sizeOf_pos (e : Expr) : 0 < sizeOf e := by
  cases e <;>
    simp only [number.sizeOf_spec, ident.sizeOf_spec, index.sizeOf_spec, slice.sizeOf_spec,
      concat.sizeOf_spec, paren.sizeOf_spec, not.sizeOf_spec, binary.sizeOf_spec,
      cond.sizeOf_spec] <;>
    omega

/-- A word that nothing is attached to. -/
theorem reads_leaf {e : Expr} {word : String} (hword : IsWord word) (hrender : e.render = word)
    (hleaf : leaf word.toList = e) : Reads readPrimary 0 Ends e := by
  intro n rest hn hrest
  have hpos := sizeOf_pos e
  obtain ⟨m, rfl⟩ : ∃ m, n = m + 2 := ⟨n - 2, by omega⟩
  rw [hrender, readPrimary_word hword hrest.word, readWord, hrest.bracket, hleaf]

/-- A selected bit reads back if its position does. -/
theorem reads_index {name : String} (hname : isIdentifier name = true) {position : Expr}
    (h : ReadsBack position) : Reads readPrimary 0 Ends (.index name position) := by
  intro n rest hn _
  rw [index.sizeOf_spec] at hn
  obtain ⟨m, rfl⟩ : ∃ m, n = m + 2 := ⟨n - 2, by omega⟩
  have hposition := h.expr m _ (by omega) (stops_append "]" (by decide) rest)
  have hspan := after?_of_differ " +: " (by decide : differ " +: ".toList "]".toList = true) rest
  simp only [render, String.toList_append, List.append_assoc]
  rw [readPrimary_word (isWord_identifier hname) (head_append "[" (by decide) _), readWord,
    after?_append]
  simp only [hposition, hspan, Option.bind_eq_bind, Option.bind_some, after?_append,
    String.ofList_toList]
  rfl

theorem reads_slice {name : String} (hname : isIdentifier name = true) {base length : Expr}
    (hb : ReadsBack base) (hl : ReadsBack length) :
    Reads readPrimary 0 Ends (.slice name base length) := by
  intro n rest hn _
  rw [slice.sizeOf_spec] at hn
  obtain ⟨m, rfl⟩ : ∃ m, n = m + 2 := ⟨n - 2, by omega⟩
  have hlength := hl.expr m _ (by omega) (stops_append "]" (by decide) rest)
  have hbase := fun cs => hb.expr m _ (by omega) (stops_append " +: " (by decide) cs)
  simp only [render, String.toList_append, List.append_assoc]
  rw [readPrimary_word (isWord_identifier hname) (head_append "[" (by decide) _), readWord,
    after?_append]
  simp only [hbase, hlength, Option.bind_eq_bind, Option.bind_some, after?_append,
    String.ofList_toList]
  rfl

/-- Parentheses read back with what they enclose. -/
theorem reads_paren {inner : Expr} (h : ReadsBack inner) :
    Reads readPrimary 0 Ends (.paren inner) := by
  intro n rest hn _
  rw [paren.sizeOf_spec] at hn
  obtain ⟨m, rfl⟩ : ∃ m, n = m + 1 := ⟨n - 1, by omega⟩
  have hinner := h.expr m _ (by omega) (stops_append ")" (by decide) rest)
  simp only [render, String.toList_append, List.append_assoc]
  rw [readPrimary, after?_append]
  simp only [hinner, Option.bind_eq_bind, Option.bind_some, after?_append]
  rfl

/-- The text of the parts of a concatenation after one. -/
def laterText (parts : List Expr) : List Char :=
  parts.flatMap fun e => ", ".toList ++ e.render.toList

theorem toList_renderAll (e : Expr) (parts : List Expr) :
    (", ".intercalate (renderAll (e :: parts))).toList = e.render.toList ++ laterText parts := by
  induction parts generalizing e with
  | nil => simp [renderAll, laterText]
  | cons next rest ih =>
      have hjoin : ", ".intercalate (renderAll (e :: next :: rest)) =
          e.render ++ ", " ++ ", ".intercalate (renderAll (next :: rest)) :=
            String.intercalate_cons_cons
      rw [hjoin, String.toList_append, String.toList_append, ih]
      simp [laterText]

theorem stops_later (parts : List Expr) (rest : List Char) :
    Stops (laterText parts ++ ("\x7d".toList ++ rest)) := by
  cases parts with
  | nil => exact stops_append "\x7d" (by decide) rest
  | cons e parts =>
      simp only [laterText, List.flatMap_cons, List.append_assoc]
      exact stops_append ", " (by decide) _

/-- The parts of a concatenation read back one after the other. -/
theorem readLater_laterText {parts : List Expr} (h : ∀ e ∈ parts, ReadsBack e) {n : Nat}
    (hn : 4 * sizeOf parts ≤ n) (rest : List Char) :
    readLater n (laterText parts ++ ("\x7d".toList ++ rest)) = some (parts, rest) := by
  induction parts generalizing n with
  | nil =>
      rw [List.nil.sizeOf_spec] at hn
      obtain ⟨m, rfl⟩ : ∃ m, n = m + 1 := ⟨n - 1, by omega⟩
      have hcomma :=
        after?_of_differ ", " (by decide : differ ", ".toList "\x7d".toList = true) rest
      simp only [laterText, List.flatMap_nil, List.nil_append]
      rw [readLater, hcomma, after?_append]
      rfl
  | cons e parts ih =>
      rw [List.forall_mem_cons] at h
      rw [List.cons.sizeOf_spec] at hn
      obtain ⟨m, rfl⟩ : ∃ m, n = m + 1 := ⟨n - 1, by omega⟩
      have hfirst := h.1.expr m _ (by omega) (stops_later parts rest)
      have hlater := ih h.2 (n := m) (by omega)
      have htext : laterText (e :: parts) =
          ", ".toList ++ (e.render.toList ++ laterText parts) := by simp [laterText]
      rw [htext, List.append_assoc, readLater, after?_append, List.append_assoc]
      simp only [hfirst, hlater, Option.bind_eq_bind, Option.bind_some]
      rfl

theorem reads_concat {parts : List Expr} (hshaped : ∀ e ∈ parts, e.Shaped)
    (h : ∀ e ∈ parts, ReadsBack e) : Reads readPrimary 0 Ends (.concat parts) := by
  intro n rest hn _
  rw [concat.sizeOf_spec] at hn
  obtain ⟨m, rfl⟩ : ∃ m, n = m + 2 := ⟨n - 2, by omega⟩
  have hparen := after?_of_differ "(" (by decide : differ "(".toList "\x7b".toList = true)
  simp only [render, String.toList_append, List.append_assoc]
  rw [readPrimary, hparen, after?_append]
  dsimp only
  cases parts with
  | nil =>
      simp only [renderAll, String.intercalate_nil, String.toList_empty, List.nil_append]
      rw [readParts, after?_append]
      rfl
  | cons e parts =>
      rw [List.forall_mem_cons] at h hshaped
      rw [List.cons.sizeOf_spec] at hn
      have hbrace :=
        ((starts hshaped.1).append (laterText parts ++ ("\x7d".toList ++ rest))).after?_eq_none
        (by decide : "\x7d".toList.head?.any (fun c => !isStart c) = true)
      have hfirst := h.1.expr m _ (by omega) (stops_later parts rest)
      have hlater := readLater_laterText h.2 (n := m) (by omega) rest
      rw [toList_renderAll, List.append_assoc, readParts, hbrace]
      simp only [hfirst, hlater, Option.bind_eq_bind, Option.bind_some]
      rfl

/-- A complement reads back with its operand. -/
theorem reads_not {operand : Expr} (h : Reads readPrimary 0 Ends operand) :
    Reads readOperand 1 Ends (.not operand) := by
  intro n rest hn hrest
  rw [not.sizeOf_spec] at hn
  obtain ⟨m, rfl⟩ : ∃ m, n = m + 1 := ⟨n - 1, by omega⟩
  simp only [render, String.toList_append, List.append_assoc]
  rw [readOperand, after?_append]
  simp only [h m rest (by omega) hrest, Option.bind_eq_bind, Option.bind_some]
  rfl

/-- A chain that goes on: what was read becomes the left operand. -/
theorem continues_binary {op : BinaryOp} {lhs rhs : Expr} (hl : Continues lhs)
    (hr : Reads readOperand 1 Ends rhs) : Continues (.binary op lhs rhs) := by
  intro n rest hn hrest
  rw [binary.sizeOf_spec] at hn ⊢
  have hspaced : Ends ((spaced op).toList ++ (rhs.render.toList ++ rest)) := by
    cases op <;> exact ends_append _ (by decide) (by decide) _
  obtain ⟨m, hm, hchain⟩ := hl n _ (by omega) hspaced
  obtain ⟨k, rfl⟩ : ∃ k, m = k + 1 := ⟨m - 1, by omega⟩
  refine ⟨k, by omega, ?_⟩
  have htext : (binary op lhs rhs).render.toList ++ rest =
      lhs.render.toList ++ ((spaced op).toList ++ (rhs.render.toList ++ rest)) := by
    simp only [render, spaced, String.toList_append, List.append_assoc]
  rw [htext, hchain, readMore, sign?_append]
  simp only [hr k rest (by omega) hrest, Option.bind_eq_bind, Option.bind_some]

/-- A conditional reads back if its test is a chain, which a bare conditional is not. -/
theorem reads_cond {test onTrue onFalse : Expr} (ht : Continues test) (ha : ReadsBack onTrue)
    (hb : ReadsBack onFalse) : Reads readExpr 2 Stops (.cond test onTrue onFalse) := by
  intro n rest hn hrest
  rw [cond.sizeOf_spec] at hn
  obtain ⟨m, rfl⟩ : ∃ m, n = m + 1 := ⟨n - 1, by omega⟩
  simp only [render, String.toList_append, List.append_assoc]
  have htest := fun cs => ht.readChain (n := m) (by omega)
    (ends_append " ? " (by decide) (by decide) cs) (sign?_of_differ " ? " (by decide) cs)
  have htrue := fun cs => ha.expr m _ (by omega) (stops_append " : " (by decide) cs)
  exact readExpr_cond (htest _) (after?_append _ _) (htrue _) (after?_append _ _)
    (hb.expr m rest (by omega) hrest)

mutual
/-- **Every expression whose conditionals are grouped to the right is read back from its text.** -/
theorem readsBack : ∀ {e : Expr}, e.Shaped → e.Grouped → ReadsBack e
  | .number _, h, _ =>
      readsBack_of_primary rfl h (reads_leaf (isWord_literal h) rfl (leaf_literal h))
  | .ident _, h, _ =>
      readsBack_of_primary rfl h (reads_leaf (isWord_identifier h) rfl (leaf_identifier h))
  | .index _ _, h, hg => readsBack_of_primary rfl h (reads_index h.1 (readsBack h.2 hg))
  | .slice _ _ _, h, hg =>
      readsBack_of_primary rfl h (reads_slice h.1 (readsBack h.2.1 hg.1) (readsBack h.2.2 hg.2))
  | .concat _, h, hg =>
      readsBack_of_primary rfl h (reads_concat (shapedAll_iff.mp h) (readsBackAll h hg))
  | .paren inner, h, hg => readsBack_of_primary rfl h (reads_paren (readsBack (e := inner) h hg))
  | .not operand, h, hg => by
      have hreads := reads_not ((readsBack (e := operand) h.2 hg).primary h.1)
      exact ⟨fun hprimary => absurd hprimary (by simp [isPrimary]), fun _ => hreads,
        fun _ => hreads.continues, hreads.continues.expr⟩
  | .binary op lhs rhs, ⟨hlhs, hrhs, hl, hr⟩, hg => by
      -- a left operand has its parentheses, so it is no conditional
      have hcond : lhs.isCond = false := by
        cases lhs with
        | cond => exact absurd hlhs (by simp [isOperand, isPrimary, isChainOf])
        | _ => rfl
      have hchain : Continues (.binary op lhs rhs) :=
        continues_binary ((readsBack hl hg.1).chain hcond) ((readsBack hr hg.2).operand hrhs)
      exact ⟨fun hprimary => absurd hprimary (by simp [isPrimary]),
        fun hoperand => absurd hoperand (by simp [isOperand, isPrimary]), fun _ => hchain,
          hchain.expr⟩
  | .cond _ _ _, h, ⟨hcond, ht, ha, hb⟩ =>
      ⟨fun hprimary => absurd hprimary (by simp [isPrimary]),
        fun hoperand => absurd hoperand (by simp [isOperand, isPrimary]),
        fun hnot => absurd hnot (by simp [isCond]),
        reads_cond ((readsBack h.1 ht).chain hcond) (readsBack h.2.1 ha) (readsBack h.2.2 hb)⟩
theorem readsBackAll : ∀ {es : List Expr}, ShapedAll es → GroupedAll es → ∀ e ∈ es, ReadsBack e
  | [], _, _ => by simp
  | _ :: _, h, hg => List.forall_mem_cons.mpr ⟨readsBack h.1 hg.1, readsBackAll h.2 hg.2⟩
end

/-- Expressions whose conditionals are grouped to the right can be told apart by their texts. -/
theorem eq_of_render_eq {e f : Expr} (he : e.Shaped) (hf : f.Shaped) (heg : e.Grouped)
    (hfg : f.Grouped) (h : e.render = f.render) : e = f := by
  have hread : ∀ n, 4 * sizeOf e + 2 ≤ n → 4 * sizeOf f + 2 ≤ n →
      some (e, ([] : List Char)) = some (f, []) := by
    intro n hen hfn
    rw [← (readsBack he heg).expr n [] hen stops_nil,
      ← (readsBack hf hfg).expr n [] hfn stops_nil, h]
  have heq := hread (4 * sizeOf e + 4 * sizeOf f + 2) (by omega) (by omega)
  simpa using heq

/--
Expressions have one text if and only if they are the same up to the grouping of
conditionals.
-/
theorem render_eq_iff {e f : Expr} (he : e.Shaped) (hf : f.Shaped) :
    e.render = f.render ↔ e.regrouped = f.regrouped := by
  rw [← render_regrouped e, ← render_regrouped f]
  constructor
  · exact eq_of_render_eq he.regrouped hf.regrouped (grouped_regrouped e) (grouped_regrouped f)
  · exact congrArg render

end Expr

/--
**Text determines meaning, up to the grouping of conditionals.** Two expressions
that the constructors make of identifiers and literals have one text if and only
if they become the same when their conditionals are grouped to the right. If no
test in them is a bare conditional, one text means one value and one width, in
every state.
-/
theorem text_determines_expression {e f : Expr} (he : e.Built) (hf : f.Built) :
    (e.render = f.render ↔ e.regrouped = f.regrouped) ∧
    (e.Grouped → f.Grouped → e.render = f.render →
      ∀ widths values, e.eval widths values = f.eval widths values) := by
  have hiff := Expr.render_eq_iff he.shaped hf.shaped
  refine ⟨hiff, fun heg hfg h widths values => ?_⟩
  have heq : e = f := by rw [← heg.regrouped_eq, hiff.mp h, hfg.regrouped_eq]
  rw [heq]

/--
Conditionals in tests, bare and in parentheses: the two groupings of a bare one
have one text, and one in parentheses is no other expression if a bit in it is
selected by another constructor.
-/
theorem text_determines_expression_nested :
    let left : Expr := .cond (.cond "a" "b" "c") "d" "e"
    let right : Expr := .cond "a" "b" (.cond "c" "d" "e")
    let selected : Expr := .cond (.paren (.cond "a" "b" "c")) (.select "d" 8 2 1) "e"
    let indexed : Expr := .cond (.paren (.cond "a" "b" "c")) (.indexed "d" (.number "2")) "e"
    left.Built ∧ right.Built ∧ left.render = right.render ∧ left.regrouped = right.regrouped ∧
      selected.Built ∧ indexed.Built ∧ selected.Grouped ∧ indexed.Grouped ∧
      selected.render = indexed.render ∧
      ∀ widths values, selected.eval widths values = indexed.eval widths values := by
  intro left right selected indexed
  have hname : ∀ name ∈ ["a", "b", "c", "d", "e"], Expr.Built (.ident name) := by
    intro name hname
    refine .ident ?_
    revert name
    decide +kernel
  have hinner : Expr.Built (.cond "a" "b" "c") :=
    .cond (hname "a" (by simp)) (hname "b" (by simp)) (hname "c" (by simp))
  have hleft : left.Built := .cond hinner (hname "d" (by simp)) (hname "e" (by simp))
  have hright : right.Built := .cond (hname "a" (by simp)) (hname "b" (by simp))
    (.cond (hname "c" (by simp)) (hname "d" (by simp)) (hname "e" (by simp)))
  have hselected : selected.Built :=
    .cond (.paren hinner) (.select 8 2 1 (by decide +kernel)) (hname "e" (by simp))
  have hindexed : indexed.Built :=
    .cond (.paren hinner) (.indexed (hname "d" (by simp)) (.number (by decide +kernel)))
      (hname "e" (by simp))
  have hgrouped : selected.Grouped ∧ indexed.Grouped := by
    simp [selected, indexed, Expr.Grouped, Expr.isCond, Expr.select, Expr.indexed, Expr.decimal]
  have htext : left.render = right.render ∧ selected.render = indexed.render := by decide +kernel
  exact ⟨hleft, hright, htext.1, (text_determines_expression hleft hright).1.mp htext.1,
    hselected, hindexed, hgrouped.1, hgrouped.2, htext.2,
    (text_determines_expression hselected hindexed).2 hgrouped.1 hgrouped.2 htext.2⟩

/--
A conditional in the test of another is written bare, although its text then
means something else.
-/
theorem bare_test_loses_grouping :
    let left : Expr := .cond (.cond "a" "b" "c") "d" "e"
    let right : Expr := .cond "a" "b" (.cond "c" "d" "e")
    let widths : Widths := ⟨["a", "b", "c", "d", "e"].map fun name => (name, 1)⟩
    let values : Valuation := ⟨[("a", 1), ("e", 1)]⟩
    left.render = right.render ∧ left.eval widths values = .ok ⟨1, 1⟩ ∧
      right.eval widths values = .ok ⟨0, 1⟩ := by
  decide +kernel

end Handshake
