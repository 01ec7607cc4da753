import Mathlib.Data.List.Basic
import Handshake.Identity

/-!
# Names derived from a name

A submodule is named after the module that it was derived from: every role on
the way down adds an underscore and its token. No token is the beginning of
another one, so the roles can be read off the name again. That is what keeps the
submodules of one module apart, however deep they go. The names remain legal on
the way: two reserved words have an underscore, and no token ends like either.

Roles are read off from the left, token by token, which is `rolePath_injective`.
At the end there are facts about texts that other modules need for the same
purpose: names that begin differently, and numbered names, are different.
-/

namespace Handshake

/-- The name that is reached from `top` by some roles. -/
def derived (top : String) (roles : List Role) : String :=
  roles.foldl (fun name role => name ++ "_" ++ role.token) top

/-- What some roles add to a name. -/
def rolePath (roles : List Role) : List Char := roles.flatMap fun role => '_' :: role.token.toList

@[simp] theorem derived_nil (top : String) : derived top [] = top := rfl

@[simp] theorem derived_cons (top : String) (role : Role) (roles : List Role) :
    derived top (role :: roles) = derived (top ++ "_" ++ role.token) roles := rfl

theorem toList_derived (top : String) (roles : List Role) :
    (derived top roles).toList = top.toList ++ rolePath roles := by
  induction roles generalizing top with
  | nil => simp [rolePath]
  | cons role roles ih =>
      rw [derived_cons, ih]
      simp [rolePath]

/-- The added text is an underscore and the tokens, joined by underscores. -/
theorem derived_eq_join (top : String) {roles : List Role} (h : roles ≠ []) :
    derived top roles = top ++ "_" ++ "_".intercalate (roles.map Role.token) := by
  induction roles generalizing top with
  | nil => exact absurd rfl h
  | cons role roles ih =>
      cases roles with
      | nil => simp
      | cons next rest =>
          have hjoin : "_".intercalate ((role :: next :: rest).map Role.token)
              = role.token ++ "_" ++ "_".intercalate ((next :: rest).map Role.token) :=
            String.intercalate_cons_cons
          rw [derived_cons, ih _ (by simp), hjoin]
          simp [String.append_assoc]

/-- No token is the beginning of another one. -/
theorem token_prefix_free (r s : Role) (h : r.token.toList <+: s.token.toList) : r = s := by
  revert h
  cases r <;> cases s <;> decide

theorem token_append_inj {r s : Role} {x y : List Char}
    (h : r.token.toList ++ x = s.token.toList ++ y) : r = s ∧ x = y := by
  have hrs : r = s := by
    -- both tokens begin the same text, so one of them begins the other
    rcases List.prefix_or_prefix_of_prefix (List.prefix_append r.token.toList x)
        (h ▸ List.prefix_append s.token.toList y) with hp | hp
    · exact token_prefix_free r s hp
    · exact (token_prefix_free s r hp).symm
  subst hrs
  exact ⟨rfl, List.append_cancel_left h⟩

/-- The roles can be read off the added text. -/
theorem rolePath_injective : ∀ {r s : List Role}, rolePath r = rolePath s → r = s
  | [], [], _ => rfl
  | [], _ :: _, h => by simp [rolePath] at h
  | _ :: _, [], h => by simp [rolePath] at h
  | r :: rs, s :: ss, h => by
      have hcons : r.token.toList ++ rolePath rs = s.token.toList ++ rolePath ss := by
        simpa [rolePath] using h
      obtain ⟨rfl, hrest⟩ := token_append_inj hcons
      rw [rolePath_injective hrest]

/-- Different roles lead from one name to different names. -/
theorem derived_injective {top : String} {r s : List Role} (h : derived top r = derived top s) :
    r = s := by
  have hlist := congrArg String.toList h
  rw [toList_derived, toList_derived] at hlist
  exact rolePath_injective (List.append_cancel_left hlist)

theorem derived_append (top : String) (r s : List Role) :
    derived top (r ++ s) = derived (derived top r) s := by
  simp [derived]

theorem Identity.text_child_eq (id : Identity) (role : Role) :
    (id.child role).text = derived id.text [role] :=
  id.text_child role

/-! ## Legal names -/

theorem isSimpleName_append {xs ys : List Char} (hx : isSimpleName xs = true)
    (hy : ys.all isNamePart = true) : isSimpleName (xs ++ ys) = true := by
  cases xs with
  | nil => exact absurd hx (by simp [isSimpleName])
  | cons c rest =>
      rw [isSimpleName, Bool.and_eq_true] at hx
      rw [List.cons_append, isSimpleName, List.all_append, hx.1, hx.2, hy]
      rfl

theorem isNamePart_of_isSimpleName {cs : List Char} (h : isSimpleName cs = true) :
    cs.all isNamePart = true := by
  cases cs with
  | nil => rfl
  | cons first rest =>
      rw [isSimpleName, Bool.and_eq_true] at h
      rw [List.all_cons, h.2, Bool.and_true]
      have hfirst := h.1
      simp only [isNameStart, isNamePart, Char.isAlphanum, Bool.or_eq_true] at hfirst ⊢
      exact hfirst.imp_left Or.inl

theorem isIdentifier_iff {name : String} :
    isIdentifier name = true ↔ isSimpleName name.toList = true ∧ name ∉ reservedWords := by
  simp [isIdentifier]

/-- Two reserved words have an underscore: `pulsestyle_ondetect` and `pulsestyle_onevent`. -/
theorem underscore_reserved : ∀ word ∈ reservedWords, '_' ∈ word.toList →
    word.toList.head? = some 'p' ∧ word.toList.getLast? = some 't' := by
  decide +kernel

/-- The name of a submodule has an underscore, and does not end like a reserved word with one. -/
theorem isIdentifier_derived {top : String} (h : isIdentifier top = true) (roles : List Role) :
    isIdentifier (derived top roles) = true := by
  induction roles generalizing top with
  | nil => exact h
  | cons role rest ih =>
      have hsplit : (top ++ "_" ++ role.token).toList =
          top.toList ++ ("_" ++ role.token).toList := by
        rw [String.append_assoc, String.toList_append]
      have htoken : ("_" ++ role.token).toList.all isNamePart = true ∧
          '_' ∈ ("_" ++ role.token).toList ∧
          ("_" ++ role.token).toList.getLast? ≠ some 't' := by
        cases role <;> decide +kernel
      have hchild : isIdentifier (top ++ "_" ++ role.token) = true := by
        rw [isIdentifier_iff, hsplit]
        refine ⟨isSimpleName_append (isIdentifier_iff.mp h).1 htoken.1, fun hmem => htoken.2.2 ?_⟩
        have hword :=
          (underscore_reserved _ hmem (by rw [hsplit]; exact List.mem_append_right _ htoken.2.1)).2
        rwa [hsplit, List.getLast?_append_of_ne_nil _ (List.ne_nil_of_mem htoken.2.1)] at hword
      exact ih hchild

/-! ## From identity to identity -/

/-- A step from an identity to a neighbour. -/
inductive Move where
  /-- Down to the submodule that plays a role. -/
  | child (role : Role)
  /-- Up to the module that this one was derived from. -/
  | parent
deriving DecidableEq

namespace Identity

/-- Where a step leads. Above a requested unit there is nothing. -/
def move? (id : Identity) : Move → Option Identity
  | .child role => some (id.child role)
  | .parent => id.parent?

/-- Where several steps lead. -/
def walk? (id : Identity) (moves : List Move) : Option Identity := moves.foldlM move? id

/-- The submodule that is reached by some roles, one below the other. -/
def descend (id : Identity) (roles : List Role) : Identity := roles.foldl child id

theorem descend_eq (id : Identity) (roles : List Role) :
    id.descend roles = { id with roles := id.roles ++ roles } := by
  unfold descend
  induction roles generalizing id with
  | nil => simp
  | cons role rest ih =>
      rw [List.foldl_cons, ih]
      simp [child]

theorem text_descend (id : Identity) (roles : List Role) :
    (id.descend roles).text = derived id.text roles := by
  rw [descend_eq, text, List.foldl_append]
  rfl

/-- The name of a module is an identifier, since the name of its root is. -/
theorem isIdentifier_text (id : Identity) : isIdentifier id.text = true :=
  isIdentifier_derived id.root_isIdentifier id.roles

/-- A step among the submodules of a unit leads to one of them, or back to the unit. -/
theorem move?_descend {root id : Identity} {roles : List Role} {move : Move}
    (hroot : root.roles = []) (h : (root.descend roles).move? move = some id) :
    ∃ roles', id = root.descend roles' := by
  cases move with
  | child role =>
      refine ⟨roles ++ [role], ?_⟩
      rw [move?, Option.some.injEq] at h
      rw [← h, descend, descend, List.foldl_append]
      rfl
  | parent =>
      refine ⟨roles.dropLast, ?_⟩
      rw [descend_eq, hroot, List.nil_append, move?, parent?] at h
      split at h
      · exact absurd h (by simp)
      · rw [← Option.some.inj h, descend_eq, hroot, List.nil_append]

/-- So does any walk: no way up leads out of the unit. -/
theorem walk?_descend {root id : Identity} (roles : List Role) {moves : List Move}
    (hroot : root.roles = []) (h : (root.descend roles).walk? moves = some id) :
    ∃ roles', id = root.descend roles' := by
  unfold walk? at h
  induction moves generalizing roles with
  | nil => exact ⟨roles, (Option.some.inj h).symm⟩
  | cons move rest ih =>
      rw [List.foldlM_cons] at h
      obtain ⟨next, hnext, hrest⟩ := Option.bind_eq_some_iff.mp h
      obtain ⟨roles', rfl⟩ := move?_descend hroot hnext
      exact ih roles' hrest

theorem roles_ofName {name : String} {root : Identity} (h : ofName name = .ok root) :
    root.roles = [] := by
  unfold ofName at h
  split at h
  · rw [← Except.ok.inj h]
  · exact absurd h (by simp)

end Identity

/--
**Derived names are unambiguous and legal.** Below a unit, different roles lead
to different names. A walk from the unit, up and down, ends in the unit or in a
submodule of it, whose name is an identifier.
-/
theorem derived_names_unambiguous {name : String} {root : Identity}
    (h : Identity.ofName name = .ok root) :
    (∀ r s : List Role, (root.descend r).text = (root.descend s).text ↔ r = s) ∧
    ∀ (moves : List Move) (id : Identity), root.walk? moves = some id →
      isIdentifier id.text = true ∧ ∃ roles, id = root.descend roles := by
  refine ⟨fun r s => ⟨fun heq => ?_, fun heq => heq ▸ rfl⟩,
    fun moves id hwalk => ⟨id.isIdentifier_text, ?_⟩⟩
  · rw [Identity.text_descend, Identity.text_descend] at heq
    exact derived_injective heq
  · exact Identity.walk?_descend [] (Identity.roles_ofName h) hwalk

/--
Two paths with the same beginning of their names, and a walk below a unit called
almost like a reserved word.
-/
theorem derived_names_unambiguous_pulsestyle :
    ∃ root id, Identity.ofName "pulsestyle" = .ok root ∧
      (root.descend [.oneSlotBreakR, .inner]).text ≠ (root.descend [.oneSlotBreakDv]).text ∧
      root.walk? [.child .join, .child .mul4Stage, .parent, .parent, .child .join] = some id ∧
      id.text = "pulsestyle_join" ∧ isIdentifier "pulsestyle_join" = true := by
  have h : Identity.ofName "pulsestyle" = .ok ⟨"pulsestyle", [], by decide +kernel⟩ :=
    dif_pos (by decide +kernel)
  obtain ⟨hnames, hlegal⟩ := derived_names_unambiguous h
  refine ⟨_, ⟨"pulsestyle", [.join], by decide +kernel⟩, h, fun heq => ?_, rfl,
    by decide +kernel, ?_⟩
  · exact absurd ((hnames _ _).mp heq) (by decide)
  · exact (hlegal [.child .join, .child .mul4Stage, .parent, .parent, .child .join] _ rfl).1

/-! ## Names that differ from their beginning on -/

/-- A name that does not begin with `start` is no continuation of it. -/
theorem ne_append_of_start {start name : String} (h : ¬ start.toList <+: name.toList)
    (rest : String) : name ≠ start ++ rest := by
  rintro rfl
  exact h (by rw [String.toList_append]; exact List.prefix_append _ _)

/-- Continuations of two names of which neither begins with the other are different. -/
theorem append_ne_append {start start' : String} (h : ¬ start.toList <+: start'.toList)
    (h' : ¬ start'.toList <+: start.toList) (rest rest' : String) :
    start ++ rest ≠ start' ++ rest' := by
  intro heq
  have hlist := congrArg String.toList heq
  rw [String.toList_append, String.toList_append] at hlist
  rcases List.prefix_or_prefix_of_prefix (List.prefix_append start.toList rest.toList)
      (hlist ▸ List.prefix_append start'.toList rest'.toList) with hp | hp
  · exact h hp
  · exact h' hp

/-- Numbered names under one stem are distinct. -/
theorem numbered_inj {stem : String} {i j : Nat} : stem ++ i.repr = stem ++ j.repr ↔ i = j := by
  refine ⟨fun h => ?_, fun h => h ▸ rfl⟩
  have hdigits := congrArg String.toList ((String.append_right_inj stem).mp h)
  rw [Nat.toList_repr, Nat.toList_repr] at hdigits
  -- digits can be read back
  rw [← Nat.ofDigitChars_ten_toDigits (n := i), hdigits, Nat.ofDigitChars_ten_toDigits]

end Handshake
