import Handshake.Proofs.Locality

/-!
# Passes over the assigns converge

Settling evaluates the assigns again and again, until a pass over them changes
nothing. That is what a settled state is in any circuit, whatever its assigns
are like (`settle_quiet`).

In an *ordered* circuit the targets are ranges, and there is a rank of assigns
such that an assign names only bits that assigns of lower rank drive, or none.
Call the depth of an assign the number of assigns of lower rank. If two
valuations agree on all bits that no assign drives and on those driven at a
depth below `k`, then after a pass they agree on those driven at depth `k` as
well (`pass_agree`). Two things follow. A valuation and the one a pass makes of
it agree where no assign drives, so the `k`-th pass changes nothing at a depth
below `k`, and once `k` is the number of assigns it changes nothing at all:
settling never runs out of passes (`settle_or_fault`). It may stop with a fault,
but if the assigns could be evaluated once, then only at a computed position
(`settle_yields`). And two states that a pass leaves alone are the same if they
agree where no assign drives (`unique`).

No two assigns need to drive different bits for this.
-/

namespace Handshake

/-- The names that some assigns write to. -/
def Assign.written (assigns : List Assign) : List String := assigns.flatMap fun a => a.target.reads

/-- The assign drives a bit. -/
def Assign.Drives (width : String → Nat) (a : Assign) (name : String) (i : Nat) : Prop :=
  ∃ r ∈ a.target.regions width, r.Covers name i

namespace Circuit

variable {c : Circuit} {v w : Valuation}

/-! ## What is written -/

theorem assign_stores {a : Assign} (h : c.assign v a = .ok w) :
    Stores c.widths a.target.reads v w ∧ ∀ name ∈ a.target.reads, name ∈ w.keys := by
  obtain ⟨bits, -, h⟩ := bind_ok h
  exact Expr.write_stores h

theorem fold_stores {assigns : List Assign} (h : assigns.foldlM c.assign v = .ok w) :
    Stores c.widths (Assign.written assigns) v w ∧
      ∀ name ∈ Assign.written assigns, name ∈ w.keys := by
  induction assigns generalizing v with
  | nil =>
      cases h
      exact ⟨.refl _, fun _ hname => absurd hname List.not_mem_nil⟩
  | cons a rest ih =>
      rw [List.foldlM_cons] at h
      obtain ⟨u, hu, h⟩ := bind_ok h
      obtain ⟨hfirst, hkeys⟩ := assign_stores hu
      obtain ⟨hlater, hkeys'⟩ := ih h
      refine ⟨(hfirst.mono fun _ => List.mem_append_left _).trans
        (hlater.mono fun _ => List.mem_append_right _), ?_⟩
      intro name hname
      rcases List.mem_append.mp hname with hname | hname
      · exact hlater.keys_mono name (hkeys name hname)
      · exact hkeys' name hname

theorem settleWithin_quiet {n : Nat} (h : c.settleWithin n v = .ok w) :
    c.pass w = .ok w ∧ Stores c.widths (Assign.written c.assigns) v w := by
  induction n generalizing v with
  | zero => exact absurd h (by simp [settleWithin])
  | succ n ih =>
      obtain ⟨next, hnext, h⟩ := bind_ok h
      have hstores := (fold_stores hnext).1
      split at h
      · rename_i hsame
        cases h
        exact ⟨hsame ▸ hnext, hstores⟩
      · obtain ⟨hquiet, hlater⟩ := ih h
        exact ⟨hquiet, hstores.trans hlater⟩

/-- A circuit settles into a state that a pass leaves alone. -/
theorem settle_quiet (h : c.settle v = .ok w) :
    c.pass w = .ok w ∧ Stores c.widths (Assign.written c.assigns) v w :=
  settleWithin_quiet h

/-- Settling a second time changes nothing. -/
theorem settle_of_pass (h : c.pass v = .ok v) : c.settle v = .ok v := by
  rw [settle, settleWithin, h, ok_bind, if_pos rfl]
  rfl

/-! ## What is kept -/

theorem assign_frame {a : Assign} (hrange : a.target.IsRange) (hv : v.Tidy c.widths)
    (h : c.assign v a = .ok w) {name : String} {i : Nat} (hout : ¬ a.Drives c.widths.width name i) :
    (w.get name).getLsbD i = (v.get name).getLsbD i := by
  obtain ⟨bits, -, h⟩ := bind_ok h
  exact Expr.write_frame hv hrange h fun r hr hcovers => hout ⟨r, hr, hcovers⟩

theorem fold_frame {assigns : List Assign} (hranges : ∀ a ∈ assigns, a.target.IsRange)
    (hv : v.Tidy c.widths) (h : assigns.foldlM c.assign v = .ok w) {name : String} {i : Nat}
    (hout : ∀ a ∈ assigns, ¬ a.Drives c.widths.width name i) :
    (w.get name).getLsbD i = (v.get name).getLsbD i := by
  induction assigns generalizing v with
  | nil =>
      cases h
      rfl
  | cons a rest ih =>
      rw [List.foldlM_cons] at h
      obtain ⟨u, hu, h⟩ := bind_ok h
      rw [ih (fun b hb => hranges b (List.mem_cons_of_mem _ hb)) ((assign_stores hu).1.tidy hv) h
          fun b hb => hout b (List.mem_cons_of_mem _ hb),
        assign_frame (hranges a List.mem_cons_self) hv hu (hout a List.mem_cons_self)]

theorem settleWithin_frame {n : Nat} (hranges : ∀ a ∈ c.assigns, a.target.IsRange)
    (hv : v.Tidy c.widths) (h : c.settleWithin n v = .ok w) {name : String} {i : Nat}
    (hout : ∀ a ∈ c.assigns, ¬ a.Drives c.widths.width name i) :
    (w.get name).getLsbD i = (v.get name).getLsbD i := by
  induction n generalizing v with
  | zero => exact absurd h (by simp [settleWithin])
  | succ n ih =>
      obtain ⟨next, hnext, h⟩ := bind_ok h
      have hkept := fold_frame hranges hv hnext hout
      split at h
      · cases h
        exact hkept
      · rw [ih ((fold_stores hnext).1.tidy hv) h, hkept]

/-- Settling keeps the bits that no assign drives. -/
theorem settle_frame (hranges : ∀ a ∈ c.assigns, a.target.IsRange) (hv : v.Tidy c.widths)
    (h : c.settle v = .ok w) {name : String} {i : Nat}
    (hout : ∀ a ∈ c.assigns, ¬ a.Drives c.widths.width name i) :
    (w.get name).getLsbD i = (v.get name).getLsbD i :=
  settleWithin_frame hranges hv h hout

/-! ## Depth -/

/-- Assigns to ranges, in ranks such that an assign names only what assigns of lower rank drive. -/
structure Ordered (c : Circuit) (rank : Assign → Nat) : Prop where
  ranges : ∀ a ∈ c.assigns, a.target.IsRange
  ranked : ∀ a ∈ c.assigns, ∀ b ∈ c.assigns, ∀ name ∈ a.value.names, ∀ i,
    b.Drives c.widths.width name i →
    rank b < rank a

/-- The number of assigns of lower rank. -/
def depth (c : Circuit) (rank : Assign → Nat) (a : Assign) : Nat :=
  c.assigns.countP fun b => rank b < rank a

theorem countP_lt {α : Type} {p q : α → Bool} {xs : List α}
    (hpq : ∀ x ∈ xs, p x = true → q x = true) {x : α} (hx : x ∈ xs) (hp : p x = false)
    (hq : q x = true) : xs.countP p < xs.countP q := by
  induction xs with
  | nil => simp at hx
  | cons y rest ih =>
      have hrest : rest.countP p ≤ rest.countP q :=
        List.countP_mono_left fun z hz => hpq z (List.mem_cons_of_mem _ hz)
      have hy := hpq y List.mem_cons_self
      rw [List.countP_cons, List.countP_cons]
      rcases List.mem_cons.mp hx with rfl | hx
      · simp only [hp, hq, Bool.false_eq_true, if_false, if_true]
        omega
      · have hlt := ih (fun z hz => hpq z (List.mem_cons_of_mem _ hz)) hx
        by_cases hpy : p y = true
        · simp only [hpy, hy hpy, if_true]
          omega
        · simp only [hpy, Bool.false_eq_true, if_false]
          omega

theorem depth_lt {rank : Assign → Nat} {a b : Assign} (hb : b ∈ c.assigns) (h : rank b < rank a) :
    c.depth rank b < c.depth rank a := by
  refine countP_lt (fun x _ hx => ?_) hb (by simp) (by simpa using h)
  simp only [decide_eq_true_eq] at hx ⊢
  omega

theorem depth_lt_length (rank : Assign → Nat) {a : Assign} (ha : a ∈ c.assigns) :
    c.depth rank a < c.assigns.length := by
  rw [← List.countP_true]
  exact countP_lt (fun _ _ _ => rfl) ha (by simp) rfl

/-! ## Passes get closer -/

/-- The valuations agree on every bit that is driven, if at all, at a depth below `k` only. -/
def AgreeBelow (c : Circuit) (rank : Assign → Nat) (k : Nat) (v w : Valuation) : Prop :=
  ∀ name i, (∀ a ∈ c.assigns, a.Drives c.widths.width name i → c.depth rank a < k) →
    (v.get name).getLsbD i = (w.get name).getLsbD i

/-- The same in the middle of a pass, when the assigns in `done` have been evaluated once more. -/
def AgreeAfter (c : Circuit) (rank : Assign → Nat) (k : Nat) (done : List Assign)
    (v w : Valuation) : Prop :=
  ∀ name i,
    (∀ a ∈ c.assigns, a.Drives c.widths.width name i →
      c.depth rank a < k ∨ (a ∈ done ∧ c.depth rank a = k)) →
    (v.get name).getLsbD i = (w.get name).getLsbD i

namespace Ordered

variable {rank : Assign → Nat} {v' w' : Valuation} {k : Nat}

/-- Evaluating an assign at depth `k` at most makes the bits it drives agree. -/
theorem assign_agree (h : c.Ordered rank) {done : List Assign} {a : Assign} (ha : a ∈ c.assigns)
    (hv : v.Tidy c.widths) (hw : w.Tidy c.widths) (hagree : c.AgreeAfter rank k done v w)
    (hv' : c.assign v a = .ok v') (hw' : c.assign w a = .ok w') :
    c.AgreeAfter rank k (done ++ [a]) v' w' := by
  intro name i hbits
  by_cases hdrives : a.Drives c.widths.width name i
  · -- all it names is driven below depth `k`, so it writes the same on both sides
    have hdepth : c.depth rank a ≤ k := by
      rcases hbits a ha hdrives with hlt | ⟨-, heq⟩ <;> omega
    have hvalue : a.value.eval c.widths v = a.value.eval c.widths w := by
      refine Expr.eval_congr fun read hread => BitVec.eq_of_getLsbD_eq fun j _ => ?_
      refine hagree read j fun b hb hbdrives => Or.inl ?_
      have := depth_lt hb (h.ranked a ha b hb read hread j hbdrives)
      omega
    obtain ⟨bits, hbits', hv'⟩ := bind_ok hv'
    rw [assign, ← hvalue, hbits', ok_bind] at hw'
    exact Expr.write_agree (h.ranges a ha) hv' hw' (Or.inr hdrives)
  · rw [assign_frame (h.ranges a ha) hv hv' hdrives, assign_frame (h.ranges a ha) hw hw' hdrives]
    refine hagree name i fun b hb hbdrives => ?_
    rcases hbits b hb hbdrives with hlt | ⟨hmem, heq⟩
    · exact Or.inl hlt
    · rcases List.mem_append.mp hmem with hmem | hmem
      · exact Or.inr ⟨hmem, heq⟩
      · exact absurd (List.mem_singleton.mp hmem ▸ hbdrives) hdrives

theorem fold_agree (h : c.Ordered rank) {rest done : List Assign} (hsub : ∀ a ∈ rest, a ∈ c.assigns)
    (hv : v.Tidy c.widths) (hw : w.Tidy c.widths) (hagree : c.AgreeAfter rank k done v w)
    (hv' : rest.foldlM c.assign v = .ok v') (hw' : rest.foldlM c.assign w = .ok w') :
    c.AgreeAfter rank k (done ++ rest) v' w' := by
  induction rest generalizing done v w with
  | nil =>
      obtain rfl : v = v' := Except.ok.inj hv'
      obtain rfl : w = w' := Except.ok.inj hw'
      rwa [List.append_nil]
  | cons a rest ih =>
      rw [List.foldlM_cons] at hv' hw'
      obtain ⟨v₁, hv₁, hv'⟩ := bind_ok hv'
      obtain ⟨w₁, hw₁, hw'⟩ := bind_ok hw'
      rw [List.append_cons]
      exact ih (fun b hb => hsub b (List.mem_cons_of_mem _ hb)) ((assign_stores hv₁).1.tidy hv)
        ((assign_stores hw₁).1.tidy hw)
          (h.assign_agree (hsub a List.mem_cons_self) hv hw hagree hv₁ hw₁) hv' hw'

/-- A pass carries agreement one depth further. -/
theorem pass_agree (h : c.Ordered rank) (hv : v.Tidy c.widths) (hw : w.Tidy c.widths)
    (hagree : c.AgreeBelow rank k v w) (hv' : c.pass v = .ok v') (hw' : c.pass w = .ok w') :
    c.AgreeBelow rank (k + 1) v' w' := by
  have hstart : c.AgreeAfter rank k [] v w := by
    refine fun name i hbits => hagree name i fun a ha hdrives => ?_
    rcases hbits a ha hdrives with hlt | ⟨hmem, -⟩
    · exact hlt
    · exact absurd hmem List.not_mem_nil
  -- in the course of the pass, `done` grows from no assign to all of them
  have hend := h.fold_agree (fun _ ha => ha) hv hw hstart hv' hw'
  refine fun name i hbits => hend name i fun a ha hdrives => ?_
  have hlt := hbits a ha hdrives
  by_cases heq : c.depth rank a = k
  · exact Or.inr ⟨ha, heq⟩
  · exact Or.inl (by omega)

/-! ## Settling -/

/--
**One settled state.** States that a pass leaves alone are the same if they
agree where no assign drives.
-/
theorem unique (h : c.Ordered rank) (hv : v.Tidy c.widths) (hw : w.Tidy c.widths)
    (hv' : c.pass v = .ok v') (hw' : c.pass w = .ok w') (hsamev : v'.get = v.get)
    (hsamew : w'.get = w.get)
    (hundriven : ∀ name i, (∀ a ∈ c.assigns, ¬ a.Drives c.widths.width name i) →
      (v.get name).getLsbD i = (w.get name).getLsbD i) : v.get = w.get := by
  have hall : ∀ k, c.AgreeBelow rank k v w := by
    intro k
    induction k with
    | zero =>
        refine fun name i hbits => hundriven name i fun a ha hdrives => ?_
        exact absurd (hbits a ha hdrives) (Nat.not_lt_zero _)
    | succ k ih =>
        intro name i hbits
        rw [← hsamev, ← hsamew]
        exact h.pass_agree hv hw ih hv' hw' name i hbits
  funext name
  exact BitVec.eq_of_getLsbD_eq fun i _ =>
    hall c.assigns.length name i fun a ha _ => depth_lt_length rank ha

/--
Settling with `n` passes to go after the next one, when a pass changes nothing
at a depth below `k`. The two add up to the number of assigns, so there are
passes enough.
-/
theorem settleWithin_or_fault (h : c.Ordered rank) (n : Nat) {k : Nat}
    (hk : n + k = c.assigns.length) (hv : v.Tidy c.widths) (hpass : c.pass v = .ok w)
    (hagree : c.AgreeBelow rank k v w)
    (hkeys : 0 < k → ∀ name ∈ Assign.written c.assigns, name ∈ v.keys) :
    (∃ u, c.settleWithin (n + 1) v = .ok u) ∨
      ∃ u fault, u.Tidy c.widths ∧ c.pass u = .error fault ∧
        c.settleWithin (n + 1) v = .error fault := by
  induction n generalizing k v w with
  | zero =>
      have hstores := (fold_stores hpass).1
      have hsame : w = v := by
        by_cases hnone : c.assigns = []
        · rw [pass, hnone] at hpass
          exact (Except.ok.inj hpass).symm
        · have hpos : 0 < k := by
            have := List.length_pos_iff.mpr hnone
            omega
          -- every assign lies below depth `k`, so the pass has changed no bit, and no entry is new
          refine Valuation.eq_of_keys (hstores.keys_eq (hkeys hpos)) (hstores.tidy hv).nodup
            fun name => ?_
          refine (BitVec.eq_of_getLsbD_eq fun i _ => hagree name i fun a ha _ => ?_).symm
          have := depth_lt_length rank ha
          omega
      refine Or.inl ⟨w, ?_⟩
      rw [settleWithin, hpass, ok_bind, if_pos hsame]
      rfl
  | succ n ih =>
      by_cases hsame : w = v
      · refine Or.inl ⟨w, ?_⟩
        rw [settleWithin, hpass, ok_bind, if_pos hsame]
        rfl
      · obtain ⟨hstores, hwritten⟩ := fold_stores hpass
        have hw : w.Tidy c.widths := hstores.tidy hv
        have hstep : c.settleWithin (n + 1 + 1) v = c.settleWithin (n + 1) w := by
          rw [settleWithin, hpass, ok_bind, if_neg hsame]
        rw [hstep]
        cases hx : c.pass w with
        | error fault => exact Or.inr ⟨w, fault, hw, hx, by rw [settleWithin, hx]; rfl⟩
        | ok x =>
            -- the next pass changes nothing at depth `k` either
            exact ih (by omega) hw hx (h.pass_agree hv hw hagree hpass hx) fun _ => hwritten

/-- **Settling succeeds,** or it meets a pass that does not. -/
theorem settle_or_fault (h : c.Ordered rank) (hv : v.Tidy c.widths) :
    (∃ w, c.settle v = .ok w) ∨
      ∃ u fault, u.Tidy c.widths ∧ c.pass u = .error fault ∧ c.settle v = .error fault := by
  cases hx : c.pass v with
  | error fault => exact Or.inr ⟨v, fault, hv, hx, by rw [settle, settleWithin, hx]; rfl⟩
  | ok x =>
      -- below depth zero there are only bits that nothing drives
      have hstart : c.AgreeBelow rank 0 v x := by
        refine fun name i hbits => (fold_frame h.ranges hv hx fun a ha hdrives => ?_).symm
        exact absurd (hbits a ha hdrives) (Nat.not_lt_zero _)
      exact h.settleWithin_or_fault c.assigns.length (Nat.add_zero _) hv hx hstart
        fun hpos => absurd hpos (Nat.lt_irrefl 0)

end Ordered

/-! ## Settling from another state -/

section
variable {u : Valuation}

/-- No assign selects at a computed position. -/
def Static (c : Circuit) : Prop := ∀ a ∈ c.assigns, a.value.Fixed

theorem fold_onlyShifts {assigns : List Assign} (hranges : ∀ a ∈ assigns, a.target.IsRange)
    (h : assigns.foldlM c.assign u = .ok v) (w : Valuation) :
    OnlyShifts (assigns.foldlM c.assign w) := by
  induction assigns generalizing u w with
  | nil => exact .ok w
  | cons a rest ih =>
      rw [List.foldlM_cons] at h ⊢
      obtain ⟨x, hx, h⟩ := bind_ok h
      obtain ⟨bits, hbits, hx⟩ := bind_ok hx
      refine OnlyShifts.bind ?_ fun y _ =>
        ih (fun b hb => hranges b (List.mem_cons_of_mem _ hb)) h y
      refine (Expr.eval_onlyShifts w hbits).bind fun bits' _ => ?_
      obtain ⟨y, hy⟩ := Expr.write_range w bits'.value (hranges a List.mem_cons_self) hx
      exact .of_eq_ok hy

theorem fold_fixed {assigns : List Assign} (hranges : ∀ a ∈ assigns, a.target.IsRange)
    (hfixed : ∀ a ∈ assigns, a.value.Fixed) (h : assigns.foldlM c.assign u = .ok v)
    (w : Valuation) : ∃ x, assigns.foldlM c.assign w = .ok x := by
  induction assigns generalizing u w with
  | nil => exact ⟨w, rfl⟩
  | cons a rest ih =>
      rw [List.foldlM_cons] at h
      obtain ⟨x, hx, h⟩ := bind_ok h
      obtain ⟨bits, hbits, hx⟩ := bind_ok hx
      obtain ⟨bits', hbits', -⟩ := Expr.eval_fixed w (hfixed a List.mem_cons_self) hbits
      obtain ⟨y, hy⟩ := Expr.write_range w bits'.value (hranges a List.mem_cons_self) hx
      obtain ⟨z, hz⟩ := ih (fun b hb => hranges b (List.mem_cons_of_mem _ hb))
        (fun b hb => hfixed b (List.mem_cons_of_mem _ hb)) h y
      refine ⟨z, ?_⟩
      rw [List.foldlM_cons]
      exact bind_ok_of (bind_ok_of hbits' hy) hz

/--
If all assigns could be evaluated once, in whatever state, then settling goes
through, or it stops at a shift.
-/
theorem Ordered.settle_yields {rank : Assign → Nat} (h : c.Ordered rank) (hpass : c.pass u = .ok w)
    (hv : v.Tidy c.widths) : Yields (¬ c.Static) (fun _ => True) (c.settle v) := by
  rcases h.settle_or_fault hv with ⟨x, hx⟩ | ⟨x, fault, -, hx, hsettle⟩
  · exact .of_ok hx trivial
  · refine Or.inr ⟨fun hstatic => ?_, ?_⟩
    · obtain ⟨y, hy⟩ := fold_fixed h.ranges hstatic hpass x
      have hpass' : c.pass x = .ok y := hy
      exact absurd (hpass'.symm.trans hx) (by simp)
    · obtain ⟨n, rfl⟩ := fold_onlyShifts h.ranges hpass x fault hx
      exact ⟨n, hsettle⟩

end

end Circuit

end Handshake
