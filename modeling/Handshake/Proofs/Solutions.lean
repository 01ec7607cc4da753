import Handshake.Proofs.Convergence

/-!
# The one solution of the assigns

The assigns of a circuit are equations: the bits of a target are the bits of its
value. The values may be any expressions that can be evaluated, selects at
computed positions included.

If every bit has one driver at most, then a pass that changes nothing and a
valuation that satisfies all assigns are the same thing: no assign undoes what
another did (`satisfied_of_unchanged`), and an assign that is satisfied writes
what is there (`fold_satisfied`). Passes go through the assigns in an order, and
being satisfied knows of none. So if the assigns can be ranked as well, they
settle into a valuation that satisfies them, and there is only one of these that
has the bits which nobody drives.
-/

namespace Handshake

/-! ## Targets within their signals -/

/-- Regions that have no bit in common. A region without bits has none in common with any. -/
def Region.Disjoint (r s : Region) : Prop := ∀ name i, r.Covers name i → ¬ s.Covers name i

theorem Region.Apart.disjoint {r s : Region} (h : r.Apart s) : r.Disjoint s :=
  fun _ _ => h.not_covers

theorem Region.Disjoint.symm {r s : Region} (h : r.Disjoint s) : s.Disjoint r :=
  fun name i hs hr => h name i hr hs

/--
A bit of a region that holds a part of a value is the same in all states in
which the region does.
-/
theorem Spread.agree {s t : State} {value : Word} {offset : Nat} {rs : List Region}
    (hs : Spread s value offset rs) (ht : Spread t value offset rs) {r : Region} (hr : r ∈ rs)
    {name : String} {i : Nat} (hcovers : r.Covers name i) :
    (s name).getLsbD i = (t name).getLsbD i := by
  induction rs generalizing offset with
  | nil => exact absurd hr List.not_mem_nil
  | cons q rest ih =>
      rcases List.mem_cons.mp hr with rfl | hr
      · obtain ⟨rfl, hlo, hhi⟩ := hcovers
        have hbit : r.lo + (i - r.lo) = i := by omega
        have hsbit := hs.1 (i - r.lo) (by omega)
        have htbit := ht.1 (i - r.lo) (by omega)
        rw [hbit] at hsbit htbit
        rw [hsbit, htbit]
      · exact ih hs.2 ht.2 hr

namespace Expr

mutual
/--
A whole signal, a select at literal positions that the signal has, or a
concatenation of these.
-/
def InRange (width : String → Nat) : Expr → Prop
  | .ident _ => True
  | .index name position => position.IsLiteral ∧ position.position < width name
  | .slice name base length =>
    base.IsLiteral ∧ length.IsLiteral ∧ base.position + length.position ≤ width name
  | .concat parts => InRangeAll width parts
  | .number _ | .paren _ | .not _ | .binary _ _ _ | .cond _ _ _ => False
/-- Targets each of which lies within its signal. -/
def InRangeAll (width : String → Nat) : List Expr → Prop
  | [] => True
  | part :: rest => InRange width part ∧ InRangeAll width rest
end

mutual
theorem InRange.isRange {width : String → Nat} : ∀ {e : Expr}, e.InRange width → e.IsRange
  | .ident _, _ => trivial
  | .index _ _, ⟨hlit, _⟩ => hlit
  | .slice _ _ _, ⟨hbase, hlength, _⟩ => ⟨hbase, hlength⟩
  | .concat parts, h => InRangeAll.isRange (show InRangeAll width parts from h)
theorem InRangeAll.isRange {width : String → Nat} :
    ∀ {parts : List Expr}, InRangeAll width parts → IsRangeAll parts
  | [], _ => trivial
  | _ :: _, ⟨hpart, hrest⟩ => ⟨hpart.isRange, hrest.isRange⟩
end

section
variable {widths : Widths}

mutual
theorem IsTarget.inRange : ∀ {e : Expr}, e.IsTarget widths → e.InRange widths.width
  | .ident _, _ => trivial
  | .index _ _, ⟨_, hlit, _, hfit⟩ => ⟨hlit, hfit⟩
  | .slice _ _ _, ⟨_, hbase, hlength, _, hfit⟩ => ⟨hbase, hlength, hfit⟩
  | .concat parts, h => IsTargetAll.inRange (show IsTargetAll widths parts from h)
theorem IsTargetAll.inRange :
    ∀ {parts : List Expr}, IsTargetAll widths parts → InRangeAll widths.width parts
  | [], _ => trivial
  | _ :: _, ⟨hpart, _, hrest⟩ => ⟨hpart.inRange, hrest.inRange⟩
end

mutual
/-- A target is as wide as the regions it consists of. -/
theorem InRange.width_eq {v : Valuation} : ∀ {e : Expr} {bits : Bits}, e.InRange widths.width →
    e.eval widths v = .ok bits → bits.width = Region.total (e.regions widths.width)
  | .ident name, bits, _, h => by
      obtain ⟨width, hwidth, h⟩ := bind_ok h
      obtain ⟨-, rfl⟩ := Widths.get_ok hwidth
      cases h
      simp [regions, Region.total]
  | .index name position, bits, _, h => by
      obtain ⟨lo, -, h⟩ := bind_ok h
      obtain ⟨_, -, h⟩ := bind_ok h
      cases h
      simp [regions, Region.total]
  | .slice name base length, bits, ⟨_, hlength, _⟩, h => by
      obtain ⟨lo, -, h⟩ := bind_ok h
      obtain ⟨len, hlen, h⟩ := bind_ok h
      obtain ⟨_, -, h⟩ := bind_ok h
      cases h
      simp [regions, Region.total, toIndex_literal hlength hlen]
  | .concat parts, bits, hparts, h => by
      have hsum := InRangeAll.width_eq (show InRangeAll widths.width parts from hparts) h
      rwa [Nat.zero_add] at hsum
theorem InRangeAll.width_eq {v : Valuation} : ∀ {parts : List Expr} {above bits : Bits},
    InRangeAll widths.width parts → evalParts widths v above parts = .ok bits →
    bits.width = above.width + Region.total (regionsAll widths.width parts)
  | [], above, bits, _, h => by
      cases h
      rfl
  | part :: rest, above, bits, ⟨hpart, hrest⟩, h => by
      obtain ⟨b, hb, h⟩ := bind_ok h
      obtain ⟨both, hboth, h⟩ := bind_ok h
      obtain ⟨_, -, hboth⟩ := bind_ok hboth
      cases hboth
      have hfirst := hpart.width_eq hb
      have hlater := hrest.width_eq h
      simp only [Region.total, regionsAll, List.map_append, List.sum_append] at hfirst hlater ⊢
      omega
end

/-- A write into a part of a signal that the signal has puts the value there. -/
theorem writeSignal_spread {v w : Valuation} {name : String} {part : Nat → Except Fault (Nat × Nat)}
    {value : Word} {lo length : Nat} (hv : v.Tidy widths) (hbound : widths.width name ≤ wordBits)
    (h : writeSignal widths v name part value = .ok w)
    (hpart : part (widths.width name) = .ok (lo, length)) (hfit : lo + length ≤ widths.width name) :
    Spread w.get value 0 [⟨name, lo, length⟩] := by
  obtain ⟨hdeclared, lo', length', hsame, hlo, -⟩ := writeSignal_eq h
  rw [hpart, Except.ok.injEq, Prod.mk.injEq] at hsame
  obtain ⟨w', hw', hwrites⟩ := writeSignal_ok value hv hbound hdeclared hpart (hsame.1 ▸ hlo) hfit
  obtain rfl : w' = w := Except.ok.inj (hw'.symm.trans h)
  exact hwrites.spread (List.pairwise_singleton _ _)

mutual
/--
A write that goes through puts the value into the target, if the target does not
overlap itself.
-/
theorem write_spread {v w : Valuation} (hv : v.Tidy widths)
    (hbound : ∀ name, widths.width name ≤ wordBits) {value : Word} :
    ∀ {e : Expr}, e.InRange widths.width → e.write widths v value = .ok w →
    (e.regions widths.width).Pairwise Region.Disjoint →
      Spread w.get value 0 (e.regions widths.width)
  | .ident name, _, h, _ => writeSignal_spread hv (hbound name) h rfl (by omega)
  | .index name position, ⟨hlit, hfit⟩, h, _ =>
      writeSignal_spread hv (hbound name) h (part_index v hlit) hfit
  | .slice name base length, ⟨hbase, hlength, hfit⟩, h, _ =>
      writeSignal_spread hv (hbound name) h (part_slice v hbase hlength) hfit
  | .concat parts, hparts, h, hdisjoint => by
      obtain ⟨⟨left, written⟩, h, hw⟩ := bind_ok h
      cases hw
      exact (writeParts_spread hv hbound (show InRangeAll widths.width parts from hparts) h
        hdisjoint).2
theorem writeParts_spread {v w : Valuation} (hv : v.Tidy widths)
    (hbound : ∀ name, widths.width name ≤ wordBits) {value left : Word} :
    ∀ {parts : List Expr}, InRangeAll widths.width parts →
    writeParts widths v value parts = .ok (left, w) →
    (regionsAll widths.width parts).Pairwise Region.Disjoint →
    left = value.down (Region.total (regionsAll widths.width parts)) ∧
      Spread w.get value 0 (regionsAll widths.width parts)
  | [], _, h, _ => by
      cases h
      exact ⟨(Word.down_zero value).symm, trivial⟩
  | part :: rest, ⟨hpart, hrest⟩, h, hdisjoint => by
      obtain ⟨⟨above, u⟩, hu, h⟩ := bind_ok h
      obtain ⟨bits, hbits, h⟩ := bind_ok h
      obtain ⟨u', hu', h⟩ := bind_ok h
      cases h
      obtain ⟨hlater, hfirst, hcross⟩ := List.pairwise_append.mp hdisjoint
      obtain ⟨habove, hspread⟩ := writeParts_spread hv hbound hrest hu hlater
      have htidy : u.Tidy widths := (writeParts_stores hu).1.tidy hv
      have hwidth := hpart.width_eq hbits
      have hspread' := write_spread htidy hbound hpart hu' hfirst
      subst habove
      refine ⟨?_, Spread.append.mpr ⟨?_, ?_⟩⟩
      · rw [Word.down_down, hwidth]
        simp only [Region.total, regionsAll, List.map_append, List.sum_append]
      · -- the part is written last, and not where the others were
        refine Spread.congr (fun r hr j hj => ?_) (fun _ _ => rfl) hspread
        refine write_frame htidy hpart.isRange hu' fun s hs => ?_
        exact hcross r hr s hs _ _ ⟨rfl, by omega, by omega⟩
      · refine Spread.congr (fun _ _ _ _ => rfl) (fun j hj => ?_) hspread'
        rw [hwidth, Word.getLsbD_low, Word.getLsbD_down]
        simp [hj]
end

end

end Expr

/-! ## Satisfied assigns -/

/--
The value of the assign can be evaluated, and the bits of the target are those
of the value, in order.
-/
def Assign.Satisfied (widths : Widths) (v : Valuation) (a : Assign) : Prop :=
  ∃ bits, a.value.eval widths v = .ok bits ∧
    Spread v.get bits.value 0 (a.target.regions widths.width)

theorem Assign.Satisfied.congr {widths : Widths} {v w : Valuation} {a : Assign}
    (h : a.Satisfied widths v) (hsame : w.get = v.get) : a.Satisfied widths w := by
  obtain ⟨bits, hbits, hspread⟩ := h
  refine ⟨bits, ?_, hsame ▸ hspread⟩
  rw [← hbits]
  exact Expr.eval_congr fun name _ => congrFun hsame name

namespace Circuit

/-- The parts of signals that the assigns drive. -/
def driven (c : Circuit) : List Region := c.assigns.flatMap fun a => a.target.regions c.widths.width

/--
Assigns whose targets lie within signals that fit a word, which can be evaluated
in every state, and no two of which drive the same bit.
-/
structure Independent (c : Circuit) : Prop where
  bounded : ∀ name, c.widths.width name ≤ wordBits
  inRange : ∀ a ∈ c.assigns, a.target.InRange c.widths.width
  evaluable : ∀ a ∈ c.assigns, ∀ v : Valuation, v.Tidy c.widths → ∃ w, c.assign v a = .ok w
  disjoint : c.driven.Pairwise Region.Disjoint

/-- Such assigns, in ranks such that an assign names only what assigns of lower rank drive. -/
structure Solvable (c : Circuit) (rank : Assign → Nat) : Prop extends c.Independent where
  ranked : ∀ a ∈ c.assigns, ∀ b ∈ c.assigns, ∀ name ∈ a.value.names, ∀ i,
    b.Drives c.widths.width name i →
    rank b < rank a

variable {c : Circuit} {u v w : Valuation}

/--
Of assigns that change nothing together and drive different bits, the first one
alone changes nothing.
-/
theorem first_unchanged {a : Assign} {rest : List Assign} (hrange : a.target.IsRange)
    (hranges : ∀ b ∈ rest, b.target.IsRange)
    (hcross : ∀ r ∈ a.target.regions c.widths.width,
      ∀ s ∈ rest.flatMap fun b => b.target.regions c.widths.width, r.Disjoint s)
    (hv : v.Tidy c.widths) (hu : c.assign v a = .ok u) (hrun : rest.foldlM c.assign u = .ok w)
    (hsame : w.get = v.get) : u.get = v.get := by
  funext name
  refine BitVec.eq_of_getLsbD_eq fun i _ => ?_
  by_cases hdrives : a.Drives c.widths.width name i
  · -- what it writes stays until the end, where it is what it was at the start
    obtain ⟨r, hr, hcovers⟩ := hdrives
    rw [← hsame]
    refine (fold_frame hranges ((assign_stores hu).1.tidy hv) hrun ?_).symm
    rintro b hb ⟨s, hs, hscovers⟩
    exact hcross r hr s (List.mem_flatMap.mpr ⟨b, hb, hs⟩) name i hcovers hscovers
  · exact assign_frame hrange hv hu hdrives

/-- An assign does the same to values that are stored in another order. -/
theorem assign_congr {a : Assign} {v' : Valuation} (hsame : w.get = v.get)
    (h : c.assign v a = .ok v') : ∃ w', c.assign w a = .ok w' ∧ w'.get = v'.get := by
  obtain ⟨bits, hbits, h⟩ := bind_ok h
  have hvalue : a.value.eval c.widths w = a.value.eval c.widths v :=
    Expr.eval_congr fun n _ => congrFun hsame n
  obtain ⟨w', hw', hsame'⟩ :=
    Expr.write_local (P := fun _ => True) (fun n _ => congrFun hsame n) (fun _ _ => trivial) h
  exact ⟨w', bind_ok_of (hvalue.trans hbits) hw', funext fun n => hsame' n trivial⟩

/-- Assigns that change nothing together and drive different bits change nothing one by one. -/
theorem each_unchanged {assigns : List Assign} (hranges : ∀ a ∈ assigns, a.target.IsRange)
    (hdisjoint : (assigns.flatMap fun a => a.target.regions c.widths.width).Pairwise
      Region.Disjoint) (hv : v.Tidy c.widths) (hrun : assigns.foldlM c.assign v = .ok w)
    (hsame : w.get = v.get) :
    ∀ a ∈ assigns, ∃ u, c.assign v a = .ok u ∧ u.get = v.get := by
  induction assigns generalizing v with
  | nil => exact fun a ha => absurd ha List.not_mem_nil
  | cons a rest ih =>
      rw [List.foldlM_cons] at hrun
      obtain ⟨u, hu, hrun⟩ := bind_ok hrun
      rw [List.flatMap_cons] at hdisjoint
      obtain ⟨-, hlater, hcross⟩ := List.pairwise_append.mp hdisjoint
      obtain ⟨hrange, hranges⟩ := List.forall_mem_cons.mp hranges
      have hfirst := first_unchanged hrange hranges hcross hv hu hrun hsame
      refine List.forall_mem_cons.mpr ⟨⟨u, hu, hfirst⟩, fun b hb => ?_⟩
      obtain ⟨x, hx, hkept⟩ :=
        ih hranges hlater ((assign_stores hu).1.tidy hv) hrun (hsame.trans hfirst.symm) b hb
      obtain ⟨y, hy, hsame'⟩ := assign_congr hfirst.symm hx
      exact ⟨y, hy, hsame'.trans (hkept.trans hfirst)⟩

namespace Independent

theorem disjoint_target (h : c.Independent) {a : Assign} (ha : a ∈ c.assigns) :
    (a.target.regions c.widths.width).Pairwise Region.Disjoint := by
  obtain ⟨before, after, hsplit⟩ := List.append_of_mem ha
  have hall := h.disjoint
  rw [driven, hsplit, List.flatMap_append, List.flatMap_cons] at hall
  exact (List.pairwise_append.mp (List.pairwise_append.mp hall).2.1).1

theorem fold_ok (h : c.Independent) {assigns : List Assign} (hsub : ∀ a ∈ assigns, a ∈ c.assigns)
    (hv : v.Tidy c.widths) : ∃ w, assigns.foldlM c.assign v = .ok w := by
  induction assigns generalizing v with
  | nil => exact ⟨v, rfl⟩
  | cons a rest ih =>
      obtain ⟨u, hu⟩ := h.evaluable a (hsub a List.mem_cons_self) v hv
      obtain ⟨w, hw⟩ :=
        ih (fun b hb => hsub b (List.mem_cons_of_mem _ hb)) ((assign_stores hu).1.tidy hv)
      exact ⟨w, by rw [List.foldlM_cons, hu, ok_bind, hw]⟩

/-- An assign puts what its value is worth into its target. -/
theorem assign_spread (h : c.Independent) {a : Assign} (ha : a ∈ c.assigns) (hv : v.Tidy c.widths)
    (hrun : c.assign v a = .ok w) :
    ∃ bits, a.value.eval c.widths v = .ok bits ∧
      Spread w.get bits.value 0 (a.target.regions c.widths.width) := by
  obtain ⟨bits, hbits, hrun⟩ := bind_ok hrun
  exact ⟨bits, hbits, Expr.write_spread hv h.bounded (h.inRange a ha) hrun (h.disjoint_target ha)⟩

/-- If assigns that drive different bits change no value between them, then they are satisfied. -/
theorem satisfied_of_unchanged (h : c.Independent) {assigns : List Assign}
    (hsub : ∀ a ∈ assigns, a ∈ c.assigns)
    (hdisjoint : (assigns.flatMap fun a => a.target.regions c.widths.width).Pairwise
      Region.Disjoint)
    (hv : v.Tidy c.widths) (hrun : assigns.foldlM c.assign v = .ok w) (hsame : w.get = v.get) :
    ∀ a ∈ assigns, a.Satisfied c.widths v := by
  intro a ha
  obtain ⟨u, hu, hkept⟩ :=
    each_unchanged (fun b hb => (h.inRange b (hsub b hb)).isRange) hdisjoint hv hrun hsame a ha
  obtain ⟨bits, hbits, hspread⟩ := h.assign_spread (hsub a ha) hv hu
  exact ⟨bits, hbits, hkept ▸ hspread⟩

/-- An assign that is satisfied changes no value. -/
theorem assign_satisfied (h : c.Independent) {a : Assign} (ha : a ∈ c.assigns)
    (hv : v.Tidy c.widths) (hsatisfied : a.Satisfied c.widths v) (hrun : c.assign v a = .ok w) :
    w.get = v.get := by
  obtain ⟨bits, hbits, hthere⟩ := hsatisfied
  obtain ⟨bits', hbits', hwritten⟩ := h.assign_spread ha hv hrun
  obtain rfl : bits = bits' := Except.ok.inj (hbits.symm.trans hbits')
  funext name
  refine BitVec.eq_of_getLsbD_eq fun i _ => ?_
  by_cases hdrives : a.Drives c.widths.width name i
  · obtain ⟨r, hr, hcovers⟩ := hdrives
    exact hwritten.agree hthere hr hcovers
  · exact assign_frame (h.inRange a ha).isRange hv hrun hdrives

theorem fold_satisfied (h : c.Independent) {assigns : List Assign}
    (hsub : ∀ a ∈ assigns, a ∈ c.assigns) (hv : v.Tidy c.widths)
    (hsatisfied : ∀ a ∈ assigns, a.Satisfied c.widths v)
    (hrun : assigns.foldlM c.assign v = .ok w) : w.get = v.get := by
  induction assigns generalizing v with
  | nil =>
      cases hrun
      rfl
  | cons a rest ih =>
      rw [List.foldlM_cons] at hrun
      obtain ⟨u, hu, hrun⟩ := bind_ok hrun
      have hfirst :=
        h.assign_satisfied (hsub a List.mem_cons_self) hv (hsatisfied a List.mem_cons_self) hu
      have hlater := ih (fun b hb => hsub b (List.mem_cons_of_mem _ hb))
        ((assign_stores hu).1.tidy hv)
        (fun b hb => (hsatisfied b (List.mem_cons_of_mem _ hb)).congr hfirst) hrun
      rw [hlater, hfirst]

end Independent

namespace Solvable

variable {rank : Assign → Nat}

theorem ordered (h : c.Solvable rank) : c.Ordered rank :=
  ⟨fun a ha => (h.inRange a ha).isRange, h.ranked⟩

/--
**One solution.** Valuations that satisfy all assigns are the same if they agree
where no assign drives.
-/
theorem unique (h : c.Solvable rank) (hv : v.Tidy c.widths) (hw : w.Tidy c.widths)
    (hv' : ∀ a ∈ c.assigns, a.Satisfied c.widths v) (hw' : ∀ a ∈ c.assigns, a.Satisfied c.widths w)
    (hundriven : ∀ name i, (∀ a ∈ c.assigns, ¬ a.Drives c.widths.width name i) →
      (v.get name).getLsbD i = (w.get name).getLsbD i) : v.get = w.get := by
  obtain ⟨v₁, hv₁⟩ := h.fold_ok (fun _ ha => ha) hv
  obtain ⟨w₁, hw₁⟩ := h.fold_ok (fun _ ha => ha) hw
  exact h.ordered.unique hv hw hv₁ hw₁ (h.fold_satisfied (fun _ ha => ha) hv hv' hv₁)
    (h.fold_satisfied (fun _ ha => ha) hw hw' hw₁) hundriven

/-- **Settling succeeds.** It satisfies all assigns and keeps the bits that no assign drives. -/
theorem settle_ok (h : c.Solvable rank) (hv : v.Tidy c.widths) :
    ∃ w, c.settle v = .ok w ∧ w.Tidy c.widths ∧ (∀ a ∈ c.assigns, a.Satisfied c.widths w) ∧
      ∀ name i, (∀ a ∈ c.assigns, ¬ a.Drives c.widths.width name i) →
        (w.get name).getLsbD i = (v.get name).getLsbD i := by
  rcases h.ordered.settle_or_fault hv with ⟨w, hw⟩ | ⟨u, fault, hu, hfault, -⟩
  · obtain ⟨hquiet, hstores⟩ := settle_quiet hw
    have htidy := hstores.tidy hv
    exact ⟨w, hw, htidy, h.satisfied_of_unchanged (fun _ ha => ha) h.disjoint htidy hquiet rfl,
      fun _ _ hout => settle_frame h.ordered.ranges hv hw hout⟩
  · obtain ⟨w, hw⟩ := h.fold_ok (fun _ ha => ha) hu
    have hpass : c.pass u = .ok w := hw
    exact absurd (hpass.symm.trans hfault) (by simp)

end Solvable

end Circuit

end Handshake
