import Handshake.Proofs.Solutions

/-!
# Continuous assigns settle

A continuous assign holds in a state if its target, bit by bit, is what its
value is worth. Settling looks for a state in which all assigns hold, by
evaluating them again and again. It finds one, within the number of passes it
allows itself, if the assigns can be evaluated, no two of them drive the same
bit, and none depends on itself, however indirectly: there is a rank of names
such that an assign reads only names of lower rank than it drives.

Ranks of names are what generated modules are checked with. They make a rank of
assigns (`rankOf`), which is what the general theory of settling asks for.
-/

namespace Handshake

/-- The assign holds: its target is what its value is worth. -/
def Assign.Holds (width : String → Nat) (state : State) (a : Assign) : Prop :=
  Spread state (a.value.value width state) 0 (a.target.regions width)

/-- The names that the assign reads are of lower rank than those in its target. -/
def Assign.Ascends (rank : String → Nat) (a : Assign) : Prop :=
  ∀ name ∈ a.value.reads, ∀ target ∈ a.target.reads, rank name < rank target

namespace Circuit

/-- Every assign holds. -/
def Settled (c : Circuit) (state : State) : Prop := ∀ a ∈ c.assigns, a.Holds c.widths.width state

/--
Assigns that can be evaluated, on signals that fit a word, no two of them
driving the same bit.
-/
structure Wired (c : Circuit) : Prop where
  bounded : ∀ name, c.widths.width name ≤ wordBits
  values : ∀ a ∈ c.assigns, a.value.Typed c.widths
  targets : ∀ a ∈ c.assigns, a.target.IsTarget c.widths
  apart : c.driven.Pairwise Region.Apart

/-- Every assign reads only names of lower rank than it drives. -/
def Acyclic (c : Circuit) (rank : String → Nat) : Prop := ∀ a ∈ c.assigns, a.Ascends rank

variable {c : Circuit}

/-! ## Typed assigns -/

theorem Wired.independent (h : c.Wired) : c.Independent where
  bounded := h.bounded
  inRange a ha := (h.targets a ha).inRange
  evaluable a ha v hv := by
    obtain ⟨w, hw, -⟩ := Expr.write_ok hv (a.value.value c.widths.width v.get) (h.targets a ha)
      fun name _ => h.bounded name
    exact ⟨w, by rw [assign, Expr.eval_eq v (h.values a ha), ok_bind, hw]⟩
  disjoint := h.apart.imp Region.Apart.disjoint

/-- Typed assigns hold if they are satisfied. -/
theorem Wired.settled (h : c.Wired) {v : Valuation} (hv : ∀ a ∈ c.assigns, a.Satisfied c.widths v) :
    c.Settled v.get := by
  intro a ha
  obtain ⟨bits, hbits, hspread⟩ := hv a ha
  rw [Expr.eval_eq v (h.values a ha)] at hbits
  obtain rfl := Except.ok.inj hbits
  exact hspread

/-! ## Ranks -/

/-- The rank of an assign: above that of every name it reads. -/
def rankOf (rank : String → Nat) (a : Assign) : Nat :=
  (a.value.reads.map fun name => rank name + 1).foldr max 0

theorem foldr_max_le {xs : List Nat} {n : Nat} : xs.foldr max 0 ≤ n ↔ ∀ x ∈ xs, x ≤ n := by
  induction xs with
  | nil => simp
  | cons x rest ih => rw [List.foldr_cons, Nat.max_le, ih, List.forall_mem_cons]

/-- What an assign reads is driven by assigns of lower rank. -/
theorem Wired.solvable (h : c.Wired) {rank : String → Nat} (hrank : c.Acyclic rank) :
    c.Solvable (rankOf rank) where
  toIndependent := h.independent
  ranked := by
    rintro a ha b hb _ hname _ ⟨r, hr, rfl, -⟩
    have hread : r.name ∈ a.value.reads := Expr.names_subset_reads (h.values a ha) r.name hname
    have hb' : rankOf rank b ≤ rank r.name := by
      refine foldr_max_le.mpr fun x hx => ?_
      obtain ⟨name, hname, rfl⟩ := List.mem_map.mp hx
      exact hrank b hb name hname r.name (Expr.mem_reads_of_region r hr)
    have ha' : rank r.name + 1 ≤ rankOf rank a :=
      foldr_max_le.mp (Nat.le_refl _) _ (List.mem_map_of_mem hread)
    omega

/-! ## Settling -/

/-- No assign drives the signal. -/
def Undriven (c : Circuit) (name : String) : Prop := ∀ r ∈ c.driven, r.name ≠ name

theorem Undriven.not_drives {name : String} (h : c.Undriven name) {a : Assign} (ha : a ∈ c.assigns)
    (i : Nat) : ¬ a.Drives c.widths.width name i := by
  rintro ⟨r, hr, hname, -⟩
  exact h r (List.mem_flatMap.mpr ⟨a, ha, hr⟩) hname

/--
**Settling succeeds.** It gives a valuation in which all assigns hold, which
another pass leaves as it is, and in which signals that no assign drives have
kept their values.
-/
theorem Wired.settle_ok (h : c.Wired) {rank : String → Nat} (hrank : c.Acyclic rank) {v : Valuation}
    (hv : v.Tidy c.widths) :
    ∃ w, c.settle v = .ok w ∧ w.Tidy c.widths ∧ c.pass w = .ok w ∧ c.Settled w.get ∧
      ∀ name, c.Undriven name → w.get name = v.get name := by
  obtain ⟨w, hw, htidy, hsatisfied, hkept⟩ := (h.solvable hrank).settle_ok hv
  refine ⟨w, hw, htidy, (settle_quiet hw).1, h.settled hsatisfied, fun name hname => ?_⟩
  exact BitVec.eq_of_getLsbD_eq fun i _ => hkept name i fun _ ha => hname.not_drives ha i

end Circuit

end Handshake
