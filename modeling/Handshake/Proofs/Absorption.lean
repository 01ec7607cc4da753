import Mathlib.Data.List.TakeWhile
import Handshake.Proofs.Closure

/-!
# What a merge does

A merge goes through the externals of the other artifact and then through its
blocks, and stops at the first name that it refuses. If the blocks are new, a
block is refused because its name is external here, and for no other reason. So
what a merge refuses can be said beforehand (`refused?`), and so can what it has
taken over when it stops (`taken`).

The two loops have a lemma each, `declareAll_eq` and `insertAll_eq`, which say
how far the loop gets and with what; `merge_eq` puts them one after the other.
What a refused merge leaves behind is part of its outcome, as the additions
before the refusal are not taken back.
-/

namespace Handshake

namespace Artifact

/-- An artifact with the blocks and the externals of another one after its own. -/
def extend (a more : Artifact) : Artifact :=
  ⟨a.blocks ++ more.blocks, a.externals ++ more.externals⟩

@[simp] theorem extend_empty (a : Artifact) : a.extend .empty = a := by simp [extend, empty]

/--
The name that a merge stops at: the first external that is a block here, or else
the first block that is external here.
-/
def refused? (a other : Artifact) : Option String :=
  (other.externals.find? fun name => name ∈ a.blocks.map Block.identity).or
    ((other.blocks.find? fun b => b.identity ∈ a.externals).map Block.identity)

/-- What a merge takes over before it stops. Externals that are there already are not added. -/
def taken (a other : Artifact) : Artifact where
  blocks :=
    if ∃ name ∈ other.externals, name ∈ a.blocks.map Block.identity then []
    else other.blocks.takeWhile fun b => b.identity ∉ a.externals
  externals :=
    (other.externals.takeWhile fun name => name ∉ a.blocks.map Block.identity).filter fun name =>
      name ∉ a.externals

/-- How an addition ends that stops at a name, or at none. -/
def outcome (refused : Option String) : Except Error Unit :=
  refused.elim (.ok ()) fun name => .error (.nameCollision name)

variable {a other : Artifact}

/-- An external is refused if it is a block, and for no other reason. -/
theorem declare_error {name : String} {e : Error} (h : a.declare name = .error e) :
    name ∈ a.blocks.map Block.identity ∧ e = .nameCollision name := by
  unfold declare at h
  split at h
  · rename_i hget
    obtain ⟨b, hb⟩ := Option.isSome_iff_exists.mp hget
    obtain ⟨hmem, hname⟩ := get?_some hb
    exact ⟨List.mem_map.mpr ⟨b, hmem, hname⟩, (Except.error.inj h).symm⟩
  · exact absurd h (by simp)

/-- A new block is refused if it is external, and for no other reason. -/
theorem insert_error {b : Block} {e : Error} (hnew : b.identity ∉ a.blocks.map Block.identity)
    (h : a.insert b = .error e) : b.identity ∈ a.externals ∧ e = .nameCollision b.identity := by
  unfold insert at h
  rw [get?_eq_none_iff.mpr hnew] at h
  dsimp only at h
  split at h
  · rename_i hin
    exact ⟨by simpa using hin, (Except.error.inj h).symm⟩
  · exact absurd h (by simp)

/-- Declaring names one by one. -/
theorem declareAll_eq {names : List String} (hnodup : names.Nodup) :
    addAll declare a names = (outcome (names.find? fun name => name ∈ a.blocks.map Block.identity),
      { a with externals := a.externals ++
        (names.takeWhile fun name => name ∉ a.blocks.map Block.identity).filter fun name =>
          name ∉ a.externals }) := by
  induction names generalizing a with
  | nil => simp [addAll, outcome]
  | cons name rest ih =>
      rw [List.nodup_cons] at hnodup
      rw [addAll]
      cases hd : a.declare name with
      | error e =>
          obtain ⟨hblock, rfl⟩ := declare_error hd
          rw [List.find?_cons_of_pos (by simpa using hblock),
            List.takeWhile_cons_of_neg (by simpa using hblock)]
          simp [outcome]
      | ok a' =>
          obtain ⟨hblock, hadded⟩ := declare_cases hd
          rw [List.find?_cons_of_neg (by simpa using hblock),
            List.takeWhile_cons_of_pos (by simpa using hblock)]
          rcases hadded with ⟨hin, rfl⟩ | ⟨hnew, rfl⟩
          · rw [List.filter_cons_of_neg (by simpa using hin)]
            exact ih hnodup.2
          · rw [List.filter_cons_of_pos (by simpa using hnew)]
            dsimp only
            rw [ih hnodup.2, List.append_assoc]
            -- the name now counts as one that is there, but it does not come again
            have hrest : ∀ later ∈ rest.takeWhile fun name => name ∉ a.blocks.map Block.identity,
                decide (later ∉ a.externals ++ [name]) = decide (later ∉ a.externals) := by
              intro later hlater
              have hne : later ≠ name := by
                rintro rfl
                exact hnodup.1 (List.takeWhile_subset _ hlater)
              simp [hne]
            rw [List.filter_congr hrest]
            rfl

/-- Inserting new blocks one by one; of the externals, only those in `names` can be among them. -/
theorem insertAll_eq {blocks : List Block} {names : List String}
    (hnodup : (blocks.map Block.identity).Nodup)
    (hnew : ∀ b ∈ blocks, b.identity ∉ a.blocks.map Block.identity)
    (hnames : ∀ b ∈ blocks, b.identity ∈ a.externals ↔ b.identity ∈ names) :
    addAll insert a blocks =
      (outcome ((blocks.find? fun b => b.identity ∈ names).map Block.identity),
      { a with blocks := a.blocks ++ blocks.takeWhile fun b => b.identity ∉ names }) := by
  induction blocks generalizing a with
  | nil => simp [addAll, outcome]
  | cons b rest ih =>
      rw [List.map_cons, List.nodup_cons] at hnodup
      rw [List.forall_mem_cons] at hnew hnames
      rw [addAll]
      cases hi : a.insert b with
      | error e =>
          obtain ⟨hin, rfl⟩ := insert_error hnew.1 hi
          rw [hnames.1] at hin
          rw [List.find?_cons_of_pos (by simpa using hin),
            List.takeWhile_cons_of_neg (by simpa using hin)]
          simp [outcome]
      | ok a' =>
          rcases insert_cases hi with ⟨hin, -⟩ | ⟨-, hext, rfl⟩
          · exact absurd (List.mem_map_of_mem hin) hnew.1
          · rw [hnames.1] at hext
            rw [List.find?_cons_of_neg (by simpa using hext),
              List.takeWhile_cons_of_pos (by simpa using hext)]
            -- the block that was inserted is not among those that follow
            have hnext : ∀ c ∈ rest, c.identity ∉ (a.blocks ++ [b]).map Block.identity := by
              intro c hc hmem
              rw [List.map_append, List.mem_append, List.map_singleton, List.mem_singleton] at hmem
              rcases hmem with hmem | hmem
              · exact hnew.2 c hc hmem
              · exact hnodup.1 (hmem ▸ List.mem_map_of_mem hc)
            refine (ih (a := { a with blocks := a.blocks ++ [b] }) hnodup.2 hnext hnames.2).trans ?_
            rw [List.append_assoc]
            rfl

/-- **A merge of new blocks**: what it refuses, and what it takes over before that. -/
theorem merge_eq (ho : Coherent other)
    (hnew : ∀ b ∈ other.blocks, b.identity ∉ a.blocks.map Block.identity) :
    a.merge other = (outcome (a.refused? other), a.extend (a.taken other)) := by
  unfold merge refused? taken extend
  rw [declareAll_eq ho.externals_distinct]
  cases hfind : other.externals.find? fun name => name ∈ a.blocks.map Block.identity with
  | some name =>
      have hclash : ∃ name ∈ other.externals, name ∈ a.blocks.map Block.identity :=
        ⟨name, List.mem_of_find?_eq_some hfind, by simpa using List.find?_some hfind⟩
      rw [if_pos hclash, List.append_nil]
      rfl
  | none =>
      have hclash : ∀ name ∈ other.externals, name ∉ a.blocks.map Block.identity := by
        simpa using List.find?_eq_none.mp hfind
      rw [if_neg fun ⟨name, hname, hin⟩ => hclash name hname hin, Option.none_or]
      refine insertAll_eq ho.distinct hnew fun b hb => ?_
      -- what was added are externals of the other artifact, whose blocks have other names
      simp only [List.mem_append, List.mem_filter, or_iff_left_iff_imp]
      exact fun hin => absurd (List.takeWhile_subset _ hin.1) (ho.apart b hb)

theorem outcome_eq_ok {refused : Option String} : outcome refused = .ok () ↔ refused = none := by
  cases refused <;> simp [outcome]

theorem refused?_eq_none : a.refused? other = none ↔
    (∀ name ∈ other.externals, name ∉ a.blocks.map Block.identity) ∧
      ∀ b ∈ other.blocks, b.identity ∉ a.externals := by
  simp [refused?]

/-- A merge that refuses nothing takes over everything. -/
theorem taken_of_accepted (h : a.refused? other = none) :
    a.taken other = ⟨other.blocks, other.externals.filter fun name => name ∉ a.externals⟩ := by
  obtain ⟨hexternals, hblocks⟩ := refused?_eq_none.mp h
  have hnames : (other.externals.takeWhile fun name => name ∉ a.blocks.map Block.identity) =
      other.externals :=
    List.takeWhile_eq_self_iff.mpr (by simpa using hexternals)
  have hall : (other.blocks.takeWhile fun b => b.identity ∉ a.externals) = other.blocks :=
    List.takeWhile_eq_self_iff.mpr (by simpa using hblocks)
  rw [taken, if_neg fun ⟨name, hname, hin⟩ => hexternals name hname hin, hnames, hall]

end Artifact

end Handshake
