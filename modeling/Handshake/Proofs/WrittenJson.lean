import Mathlib.Data.List.TakeWhile
import Handshake.Json.Text
import Handshake.Json.Value

/-!
# Written JSON is read back

Reading has two layers, characters to tokens and tokens to values, and both are
machines that take one thing at a time. So what a text does is said for a
machine that has already read something: the reader adds tokens to those it has,
and the parser puts a value into whatever is open around it.

A number or a word is a token only once something ends it. `Reads` is for texts
that leave nothing begun, and `Spells` for those that may: what they have begun
is a token at the end of the text, or before one of the marks `,` `:` and the
brackets. A text that denotes a value, in the sense of `Denotes`, can then stand
wherever a value may stand.
-/

namespace Handshake.Json

/-! ## Characters and tokens -/

/-- A mark begins nothing and ends whatever was begun. -/
theorem mark_cases {c : Char} {token : Token} (h : mark? c = some token) :
    isNumberPart c = false ∧ c.isLower = false ∧
      ∀ tokens, start tokens c = some ⟨token :: tokens, .between⟩ := by
  have hmark : c ∈ ['\x7b', '\x7d', '[', ']', ',', ':'] := by
    by_contra hne
    simp only [List.mem_cons, List.not_mem_nil, or_false, not_or] at hne
    simp [mark?, hne] at h
  have hkinds : ∀ d ∈ ['\x7b', '\x7d', '[', ']', ',', ':'], isNumberPart d = false ∧
      d.isLower = false ∧
      isBlank d = false ∧ d ≠ '"' ∧ (d = '-' || d.isDigit) = false := by
    simp only [List.forall_mem_cons, List.not_mem_nil, false_imp_iff, implies_true, and_true]
    decide
  obtain ⟨hnumber, hlower, hblank, hquote, hdigit⟩ := hkinds c hmark
  refine ⟨hnumber, hlower, fun tokens => ?_⟩
  rw [start, hblank, if_neg Bool.false_ne_true, if_neg hquote, hdigit,
    if_neg Bool.false_ne_true, hlower, if_neg Bool.false_ne_true, h]
  rfl

/-- The characters add the tokens to those read before, and leave nothing begun. -/
def Reads (cs : List Char) (tokens : List Token) : Prop :=
  ∀ before, cs.foldlM Reader.read ⟨before, .between⟩ = some ⟨tokens.reverse ++ before, .between⟩

/--
The tokens of a reader, last first, once what it has begun is ended: by a mark
or with the text.
-/
structure Reader.Holds (r : Reader) (tokens : List Token) : Prop where
  mark : ∀ c token, mark? c = some token → r.read c = some ⟨token :: tokens, .between⟩
  finish : r.finish = some tokens.reverse

/-- The characters add the tokens to those read before, the last of them when something ends it. -/
def Spells (cs : List Char) (tokens : List Token) : Prop :=
  ∀ before, ∃ r, cs.foldlM Reader.read ⟨before, .between⟩ = some r ∧
    r.Holds (tokens.reverse ++ before)

theorem Reads.spells {cs : List Char} {tokens : List Token} (h : Reads cs tokens) :
    Spells cs tokens :=
  fun before => ⟨_, h before, fun _ _ hmark => (mark_cases hmark).2.2 _, rfl⟩

theorem Reads.append {cs ds : List Char} {ts us : List Token} (h : Reads cs ts) (h' : Reads ds us) :
    Reads (cs ++ ds) (ts ++ us) := by
  intro before
  rw [List.foldlM_append, h before, Option.bind_eq_bind, Option.bind_some, h' _,
    List.reverse_append, List.append_assoc]

/-- A mark after a text ends it. -/
theorem Spells.reads {cs : List Char} {tokens : List Token} (h : Spells cs tokens) {c : Char}
    {token : Token} (hmark : mark? c = some token) : Reads (cs ++ [c]) (tokens ++ [token]) := by
  intro before
  obtain ⟨r, hread, hholds⟩ := h before
  rw [List.foldlM_append, hread, Option.bind_eq_bind, Option.bind_some, List.foldlM_cons,
    hholds.mark c token hmark]
  simp

/-! ## Strings -/

theorem hexValue?_hexDigit : ∀ n < 16, hexValue? (hexDigit n) = some n := by
  decide

/--
What a character is written as, inside a string, is one piece, and the piece
spells the character.
-/
theorem read_writeChar (c : Char) (before : List Token) (pieces : List Piece) :
    ∃ piece, (writeChar c).foldlM Reader.read ⟨before, .string pieces⟩ =
      some ⟨before, .string (piece :: pieces)⟩ ∧
      ∀ later, spell? (piece :: later) = (spell? later).map (c :: ·) := by
  -- five characters have an escape of two, which stands for the character itself
  have hshort : ∀ d, shortEscape? d = some c → d ≠ 'u' →
      ∃ piece, ['\\', d].foldlM Reader.read ⟨before, .string pieces⟩ =
        some ⟨before, .string (piece :: pieces)⟩ ∧
        ∀ later, spell? (piece :: later) = (spell? later).map (c :: ·) := by
    intro d hd hne
    refine ⟨.char c, ?_, fun later => by rw [spell?]⟩
    simp [Reader.read, hd, hne]
  unfold writeChar
  split
  · rename_i h
    exact h ▸ hshort '"' (by rw [h]; decide) (by decide)
  split
  · rename_i h
    exact h ▸ hshort '\\' (by rw [h]; decide) (by decide)
  split
  · rename_i h
    exact hshort 'b' (by rw [h]; decide) (by decide)
  split
  · rename_i h
    exact hshort 'f' (by rw [h]; decide) (by decide)
  split
  · rename_i h
    exact hshort 'n' (by rw [h]; decide) (by decide)
  split
  · rename_i h
    exact hshort 'r' (by rw [h]; decide) (by decide)
  split
  · rename_i h
    exact hshort 't' (by rw [h]; decide) (by decide)
  split
  · rename_i hlow
    -- the number of the character is below those of the surrogates, so that its unit
    -- stands for itself
    have hhigh := hexValue?_hexDigit (c.toNat / 16) (by omega)
    have hdigit := hexValue?_hexDigit (c.toNat % 16) (by omega)
    have hzero : hexValue? '0' = some 0 := by decide
    have hcode : 16 * (c.toNat / 16) + c.toNat % 16 = c.toNat := Nat.div_add_mod _ _
    refine ⟨.unit c.toNat, ?_, fun later => ?_⟩
    · simp [Reader.read, hhigh, hdigit, hzero, hcode]
    · have hsurrogate : isHighSurrogate c.toNat = false ∧ isLowSurrogate c.toNat = false := by
        simp only [isHighSurrogate, isLowSurrogate, Bool.and_eq_false_iff, decide_eq_false_iff_not]
        omega
      rw [spell?.eq_def]
      simp [hsurrogate, Char.ofNat_toNat]
  · rename_i hquote hslash _ _ _ _ _ hlow
    refine ⟨.char c, ?_, fun later => by rw [spell?]⟩
    simp [Reader.read, hquote, hslash, hlow]

theorem read_writeChars (cs : List Char) (before : List Token) (pieces : List Piece) :
    ∃ added, (cs.flatMap writeChar).foldlM Reader.read ⟨before, .string pieces⟩ =
        some ⟨before, .string (added.reverse ++ pieces)⟩ ∧
      ∀ later, spell? (added ++ later) = (spell? later).map (cs ++ ·) := by
  induction cs generalizing pieces with
  | nil => exact ⟨[], rfl, fun later => by simp⟩
  | cons c rest ih =>
      obtain ⟨piece, hread, hspell⟩ := read_writeChar c before pieces
      obtain ⟨added, hrest, hspells⟩ := ih (piece :: pieces)
      refine ⟨piece :: added, ?_, fun later => ?_⟩
      · rw [List.flatMap_cons, List.foldlM_append, hread, Option.bind_eq_bind,
          Option.bind_some, hrest]
        simp
      · rw [List.cons_append, hspell, hspells, Option.map_map]
        rfl

/-- **A written string is one token, which has the text of the string.** -/
theorem reads_writeString (text : String) :
    Reads (writeString text).toList [.string (some text)] := by
  intro before
  obtain ⟨pieces, hread, hspell⟩ := read_writeChars text.toList before []
  have htext : spell? pieces = some text.toList := by
    have := hspell []
    rwa [List.append_nil, spell?, Option.map_some, List.append_nil] at this
  have hopen : Reader.read ⟨before, .between⟩ '"' = some ⟨before, .string []⟩ := rfl
  have hchars : (writeString text).toList = '"' :: (text.toList.flatMap writeChar ++ ['"']) := by
    simp [writeString]
  rw [hchars, List.foldlM_cons, hopen, Option.bind_eq_bind, Option.bind_some,
    List.foldlM_append, hread]
  simp [Reader.read, htext]

/-! ## Numbers and words -/

/-- Characters that begin and continue a number are a token if they make one. -/
theorem spells_number {c : Char} {cs : List Char} {token : Token}
    (hfirst : c = '-' ∨ c.isDigit = true) (hrest : ∀ d ∈ cs, d.isDigit = true)
    (htoken : number? (c :: cs) = some token) : Spells (c :: cs) [token] := by
  intro before
  -- the first character is no blank and no quote, so a number begins
  have hbegin : Reader.read ⟨before, .between⟩ c = some ⟨before, .number [c]⟩ := by
    have hkind : isBlank c = false ∧ c ≠ '"' := by
      rcases hfirst with rfl | hdigit
      · decide
      · have hne : ∀ d : Char, d.isDigit = false → c ≠ d := by
          rintro d hd rfl
          exact Bool.noConfusion (hd.symm.trans hdigit)
        exact ⟨by simp [isBlank, hne ' ' rfl, hne '\t' rfl, hne '\n' rfl, hne '\r' rfl],
          hne '"' rfl⟩
    show start before c = _
    rw [start, hkind.1, if_neg Bool.false_ne_true, if_neg hkind.2, if_pos (by simpa using hfirst)]
  -- every further digit is collected, the latest first
  have hcontinue : ∀ (ds read : List Char), (∀ d ∈ ds, d.isDigit = true) →
      ds.foldlM Reader.read ⟨before, .number read⟩ =
        some ⟨before, .number (ds.reverse ++ read)⟩ := by
    intro ds
    induction ds with
    | nil => exact fun _ _ => rfl
    | cons d ds ih =>
        intro read hdigits
        obtain ⟨hd, hds⟩ := List.forall_mem_cons.mp hdigits
        have hstep : Reader.read ⟨before, .number read⟩ d = some ⟨before, .number (d :: read)⟩ := by
          simp [Reader.read, isNumberPart, hd]
        rw [List.foldlM_cons, hstep, Option.bind_eq_bind, Option.bind_some, ih _ hds]
        simp
  refine ⟨⟨before, .number (cs.reverse ++ [c])⟩, ?_, fun d mark hmark => ?_, ?_⟩
  · rw [List.foldlM_cons, hbegin, Option.bind_eq_bind, Option.bind_some, hcontinue cs [c] hrest]
  · obtain ⟨hend, -, hstart⟩ := mark_cases hmark
    simp [Reader.read, hend, htoken, hstart]
  · simp [Reader.finish, htoken]

/-- Only zero is written with a leading zero. -/
theorem head?_toDigits {n : Nat} (h : (Nat.toDigits 10 n).head? = some '0') : n = 0 := by
  induction n using Nat.strongRecOn with
  | ind n ih =>
      by_cases hsmall : n < 10
      · rw [Nat.toDigits_of_lt_base hsmall] at h
        exact Nat.digitChar_eq_zero.mp (Option.some.inj h)
      · obtain ⟨d, ds, hds⟩ :=
          List.exists_cons_of_ne_nil (Nat.toDigits_ne_nil (n := n / 10) (b := 10))
        rw [Nat.toDigits_of_base_le (by decide) (by omega), hds] at h
        have := ih (n / 10) (by omega) (hds ▸ h)
        omega

/-- The digits of a number are a number again, with or without a sign. -/
theorem unsignedNumber?_toDigits (negative : Bool) (n : Nat) :
    unsignedNumber? negative (Nat.toDigits 10 n) =
      if negative then (if n = 0 then some .decimal else some (.integer (-(n : Int))))
      else some (.integer n) := by
  have hdigits : ∀ d ∈ Nat.toDigits 10 n, d.isDigit = true := fun d hd =>
    Nat.isDigit_of_mem_toDigits (by decide) (by decide) hd
  have hwhole : (Nat.toDigits 10 n).takeWhile Char.isDigit = Nat.toDigits 10 n :=
    List.takeWhile_eq_self_iff.mpr hdigits
  have htail : (Nat.toDigits 10 n).dropWhile Char.isDigit = [] :=
    List.dropWhile_eq_nil_iff.mpr hdigits
  have hvalue : digitsValue (Nat.toDigits 10 n) = n := by
    rw [digitsValue, ← Nat.ofDigitChars_eq_foldl, Nat.ofDigitChars_ten_toDigits]
  have hisDigits : isDigits (Nat.toDigits 10 n) = true := by
    simp only [isDigits, Bool.and_eq_true, Bool.not_eq_true', List.isEmpty_eq_false_iff,
      List.all_eq_true]
    exact ⟨Nat.toDigits_ne_nil, hdigits⟩
  have hleading : (Nat.toDigits 10 n == ['0'] || (Nat.toDigits 10 n).head? != some '0') = true := by
    by_cases hzero : n = 0
    · rw [hzero, Nat.toDigits_zero]
      rfl
    · simp [mt head?_toDigits hzero]
  simp only [unsignedNumber?, hwhole, htail, hisDigits, hleading, hvalue, Bool.and_self, if_true,
    List.isEmpty_nil]

/-- **A written integer is one token.** -/
theorem spells_writeInteger (value : Int) :
    Spells (writeInteger value).toList [.integer value] := by
  have hdigits : ∀ n, ∀ d ∈ Nat.toDigits 10 n, d.isDigit = true := fun n d hd =>
    Nat.isDigit_of_mem_toDigits (by decide) (by decide) hd
  rw [writeInteger, Int.toString_eq_repr, Int.repr_eq_if]
  split
  · rename_i hpos
    obtain ⟨d, ds, hds⟩ :=
      List.exists_cons_of_ne_nil (Nat.toDigits_ne_nil (n := value.toNat) (b := 10))
    have hall := hdigits value.toNat
    rw [hds] at hall
    obtain ⟨hd, hrest⟩ := List.forall_mem_cons.mp hall
    -- a digit is no sign, so the number is read as it stands
    have hsign : d ≠ '-' := by
      rintro rfl
      exact absurd hd (by decide)
    rw [Nat.toList_repr, hds]
    refine spells_number (Or.inr hd) hrest ?_
    have hnumber := unsignedNumber?_toDigits false value.toNat
    rw [hds, Int.toNat_of_nonneg hpos] at hnumber
    rw [number?]
    · exact hnumber
    · exact fun rest heq => hsign (List.cons.inj heq).1
  · rename_i hneg
    have hchars : ("-" ++ (-value).toNat.repr).toList = '-' :: Nat.toDigits 10 (-value).toNat := by
      rw [String.toList_append, Nat.toList_repr]
      rfl
    rw [hchars]
    refine spells_number (Or.inl rfl) (hdigits _) ?_
    have hvalue : -((-value).toNat : Int) = value := by omega
    rw [number?, unsignedNumber?_toDigits, if_pos rfl, if_neg (by omega), hvalue]

theorem spells_writeBool (value : Bool) : Spells (writeBool value).toList [.bool value] := by
  intro before
  cases value with
  | true =>
      refine ⟨⟨before, .word ['e', 'u', 'r', 't']⟩, rfl, fun c token hmark => ?_, rfl⟩
      obtain ⟨-, hend, hstart⟩ := mark_cases hmark
      simp [Reader.read, hend, word?, hstart]
  | false =>
      refine ⟨⟨before, .word ['e', 's', 'l', 'a', 'f']⟩, rfl, fun c token hmark => ?_, rfl⟩
      obtain ⟨-, hend, hstart⟩ := mark_cases hmark
      simp [Reader.read, hend, word?, hstart]

/-! ## Texts and values -/

/-- Where a value may stand, the text puts one in. -/
def Denotes (text : String) (value : Json) : Prop :=
  ∀ outer, ∃ tokens, Spells text.toList tokens ∧
    tokens.foldlM State.take (.value outer) = some (.complete value outer)

/-- The characters lead the parser from a state to another one, and leave nothing begun. -/
def Leads (cs : List Char) (s t : State) : Prop :=
  ∃ tokens, Reads cs tokens ∧ tokens.foldlM State.take s = some t

theorem Leads.trans {cs ds : List Char} {s t u : State} (h : Leads cs s t) (h' : Leads ds t u) :
    Leads (cs ++ ds) s u := by
  obtain ⟨ts, hreads, htake⟩ := h
  obtain ⟨us, hreads', htake'⟩ := h'
  refine ⟨ts ++ us, hreads.append hreads', ?_⟩
  rw [List.foldlM_append, htake, Option.bind_eq_bind, Option.bind_some, htake']

theorem leads_mark {c : Char} {token : Token} {s t : State} (hmark : mark? c = some token)
    (htake : s.take token = some t) : Leads [c] s t := by
  refine ⟨[token], fun before => ?_, ?_⟩
  · have hread : Reader.read ⟨before, .between⟩ c = some ⟨token :: before, .between⟩ :=
      (mark_cases hmark).2.2 before
    rw [List.foldlM_cons, hread]
    rfl
  · rw [List.foldlM_cons, htake]
    rfl

/-- A key and the colon after it. -/
theorem leads_key {key : String} {s : State} {before : List (Option String × Json)}
    {outer : List Frame}
    (hkey : s.take (.string (some key)) = some (.colon before (some key) outer)) :
    Leads ((writeString key).toList ++ [':']) s (.value (.field before (some key) :: outer)) := by
  have hstring : Leads (writeString key).toList s (.colon before (some key) outer) := by
    refine ⟨_, reads_writeString key, ?_⟩
    rw [List.foldlM_cons, hkey]
    rfl
  exact hstring.trans (leads_mark rfl rfl)

/-- A value and the mark after it. -/
theorem Denotes.leads {text : String} {value : Json} (h : Denotes text value) (outer : List Frame)
    {c : Char} {token : Token} (hmark : mark? c = some token) {t : State}
    (htake : (State.complete value outer).take token = some t) :
    Leads (text.toList ++ [c]) (.value outer) t := by
  obtain ⟨tokens, hspells, hvalue⟩ := h outer
  refine ⟨tokens ++ [token], hspells.reads hmark, ?_⟩
  rw [List.foldlM_append, hvalue, Option.bind_eq_bind, Option.bind_some, List.foldlM_cons, htake]
  rfl

/-- **A text that denotes a value is parsed as that value.** -/
theorem Denotes.parse? {text : String} {value : Json} (h : Denotes text value) :
    Json.parse? text = some value := by
  obtain ⟨tokens, hspells, hvalue⟩ := h []
  obtain ⟨r, hread, hholds⟩ := hspells []
  have htokens : tokens? text.toList = some tokens := by
    rw [tokens?, hread, Option.bind_some, hholds.finish, List.append_nil, List.reverse_reverse]
  simp [Json.parse?, htokens, hvalue, State.complete]

theorem denotes_writeString (text : String) : Denotes (writeString text) (.string (some text)) :=
  fun _ => ⟨_, (reads_writeString text).spells, rfl⟩

theorem denotes_writeInteger (value : Int) : Denotes (writeInteger value) (.integer value) :=
  fun _ => ⟨_, spells_writeInteger value, rfl⟩

theorem denotes_writeBool (value : Bool) : Denotes (writeBool value) (.bool value) :=
  fun _ => ⟨_, spells_writeBool value, rfl⟩

section

variable {α : Type} (write : α → String) (value : α → Json)

/-- The characters of a field of an object. -/
def fieldChars (entry : String × α) : List Char :=
  (writeString entry.1).toList ++ ':' :: (write entry.2).toList

/-- Fields of an object, from one of its keys to the brace at its end. -/
theorem leads_fields {entry : String × α} {rest : List (String × α)}
    (h : ∀ e ∈ entry :: rest, Denotes (write e.2) (value e.2)) {s : State}
    {before : List (Option String × Json)} {outer : List Frame}
    (hkey : s.take (.string (some entry.1)) = some (.colon before (some entry.1) outer)) :
    Leads ([','].intercalate ((entry :: rest).map (fieldChars write)) ++ ['\x7d']) s
      (.complete (.object (before.reverse ++ (entry :: rest).map fun e => (some e.1, value e.2)))
        outer) := by
  induction rest generalizing entry s before with
  | nil =>
      have hvalue := (h entry List.mem_cons_self).leads (.field before (some entry.1) :: outer)
        (c := '\x7d') rfl rfl
      simpa [fieldChars] using (leads_key hkey).trans hvalue
  | cons next rest ih =>
      obtain ⟨hentry, hrest⟩ := List.forall_mem_cons.mp h
      have hvalue := hentry.leads (.field before (some entry.1) :: outer) (c := ',') rfl rfl
      have hlater := ih hrest (s := .nextKey ((some entry.1, value entry.2) :: before) outer) rfl
      simpa [fieldChars, List.intercalate_cons_cons]
        using (leads_key hkey).trans (hvalue.trans hlater)

/-- **A written object has the fields it was written from, in their order.** -/
theorem denotes_writeObject (entries : List (String × α))
    (h : ∀ e ∈ entries, Denotes (write e.2) (value e.2)) :
    Denotes (writeObject (entries.map fun e => (e.1, write e.2)))
      (.object (entries.map fun e => (some e.1, value e.2))) := by
  intro outer
  have hchars : (writeObject (entries.map fun e => (e.1, write e.2))).toList =
      '\x7b' :: ([','].intercalate (entries.map (fieldChars write)) ++ ['\x7d']) := by
    have hfield : fieldChars write = fun e =>
        (writeString e.1).toList ++ ':' :: (write e.2).toList := rfl
    simp [writeObject, String.toList_intercalate, hfield, Function.comp_def]
  have hopen : Leads ['\x7b'] (.value outer) (.firstKey outer) := leads_mark rfl rfl
  have hbody : Leads ([','].intercalate (entries.map (fieldChars write)) ++ ['\x7d'])
      (.firstKey outer)
      (.complete (.object (entries.map fun e => (some e.1, value e.2))) outer) := by
    cases entries with
    | nil => exact leads_mark rfl rfl
    | cons entry rest => exact leads_fields write value h (s := .firstKey outer) rfl
  obtain ⟨tokens, hreads, htake⟩ := hopen.trans hbody
  rw [hchars]
  exact ⟨tokens, hreads.spells, htake⟩

end

end Handshake.Json
