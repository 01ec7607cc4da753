import Mathlib.Data.List.Perm.Basic
import Handshake.Proofs.Behaviour
import Handshake.Proofs.Quiescence

/-!
# The order of assigns does not matter

What a module means to a simulator are the widths that it declares and its
assigns and processes. Settling only looks at the first two, and it looks for
the one valuation that satisfies the assigns. So it comes to the same values in
every module that declares the same widths and has the same assigns, in whatever
order and in whatever items they stand.

`Rearranges` says what is compared: a name has the same width in both modules,
and the assigns of one are those of the other in some order. A module whose
items were put in another order, or regrouped, or commented, is such a
rearrangement (`of_reordered`). The rest follows from lemmas by which nothing
that settling does looks at a module in any other way: evaluation, writing,
tidiness and satisfaction all see the width of each name and no more.
-/

namespace Handshake

/-! ## Widths -/

namespace Expr

variable {widths widths' : Widths}

mutual
/--
What an expression is worth depends on the widths of signals, and not on how
they are declared.
-/
theorem eval_widths (h : ∀ name, widths'.get name = widths.get name) (v : Valuation) :
    ∀ e : Expr, e.eval widths' v = e.eval widths v
  | .number _ => rfl
  | .ident name => by simp only [eval, h name]
  | .index _ position => by simp only [eval, eval_widths h v position]
  | .slice _ base length => by simp only [eval, eval_widths h v base, eval_widths h v length]
  | .concat parts => evalParts_widths h v parts ⟨0, 0⟩
  | .paren inner => eval_widths h v inner
  | .not operand => by simp only [eval, eval_widths h v operand]
  | .binary _ lhs rhs => by simp only [eval, eval_widths h v lhs, eval_widths h v rhs]
  | .cond test onTrue onFalse => by
      simp only [eval, eval_widths h v test, eval_widths h v onTrue, eval_widths h v onFalse]
theorem evalParts_widths (h : ∀ name, widths'.get name = widths.get name) (v : Valuation) :
    ∀ (parts : List Expr) (above : Bits),
      evalParts widths' v above parts = evalParts widths v above parts
  | [], _ => rfl
  | part :: rest, above => by simp only [evalParts, eval_widths h v part, evalParts_widths h v rest]
end

mutual
/-- Writing looks at declarations only through the widths of names. -/
theorem write_widths (h : ∀ name, widths'.get name = widths.get name) (v : Valuation)
    (value : Word) :
    ∀ e : Expr, e.write widths' v value = e.write widths v value
  | .ident name => by simp only [write, writeSignal, h name]
  | .index name position => by simp only [write, writeSignal, h name, eval_widths h v position]
  | .slice name base length => by
      simp only [write, writeSignal, h name, eval_widths h v base, eval_widths h v length]
  | .concat parts => by simp only [write, writeParts_widths h v value parts]
  | .number _ | .paren _ | .not _ | .binary _ _ _ | .cond _ _ _ => rfl
theorem writeParts_widths (h : ∀ name, widths'.get name = widths.get name) (v : Valuation)
    (value : Word) :
    ∀ parts : List Expr, writeParts widths' v value parts = writeParts widths v value parts
  | [] => rfl
  | part :: rest => by
      simp only [writeParts, writeParts_widths h v value rest, eval_widths h _ part,
        write_widths h _ _ part]
end

end Expr

theorem Widths.width_eq {widths widths' : Widths} {name : String}
    (h : widths'.get name = widths.get name) : widths'.width name = widths.width name := by
  unfold Widths.get at h
  unfold Widths.width
  cases hl : widths.entries.lookup name <;> cases hl' : widths'.entries.lookup name <;> simp_all

/--
The same widths are declared, and the same assigns are there, in any order and
in any items.

The condition on the widths leaves out one kind of reordering only. Where a name
is declared twice with different widths, the later declaration wins, so the two
may not change places (`of_reordered`: any order will do if no name is declared
twice).
-/
structure Module.Rearranges (m m' : Module) : Prop where
  widths : ∀ name, m'.circuit.widths.get name = m.circuit.widths.get name
  assigns : (Item.drivesOf m'.items).Perm (Item.drivesOf m.items)

namespace Item

/-- Items in another order, at any depth of comments, and with their assigns in another order. -/
inductive Reordered : List Item → List Item → Prop where
  | items {xs ys : List Item} : xs.Perm ys → Reordered xs ys
  | assigns {xs ys : List Assign} {rest : List Item} : xs.Perm ys →
      Reordered (.assigns xs :: rest) (.assigns ys :: rest)
  | commented {comment : String} {xs ys rest : List Item} : Reordered xs ys →
      Reordered (.commented comment xs :: rest) (.commented comment ys :: rest)
  | trans {xs ys zs : List Item} : Reordered xs ys → Reordered ys zs → Reordered xs zs

theorem declsOf_eq_flatMap (items : List Item) : declsOf items = items.flatMap decls := by
  induction items with
  | nil => rfl
  | cons item rest ih => rw [declsOf, ih, List.flatMap_cons]

/-- The assigns of a list of items, as those of its items joined together. -/
theorem drivesOf_eq_flatMap (items : List Item) : drivesOf items = items.flatMap drives := by
  induction items with
  | nil => rfl
  | cons item rest ih => rw [drivesOf, ih, List.flatMap_cons]

/-- Putting items in another order puts what they declare in another order. -/
theorem Reordered.decls {xs ys : List Item} (h : Reordered xs ys) :
    (declsOf xs).Perm (declsOf ys) := by
  induction h with
  | items h =>
      rw [declsOf_eq_flatMap, declsOf_eq_flatMap]
      exact h.flatMap_right _
  | assigns _ => exact .refl _
  | commented _ ih => exact ih.append_right _
  | trans _ _ ih ih' => exact ih.trans ih'

/-- Putting items in another order puts their assigns in another order. -/
theorem Reordered.drives {xs ys : List Item} (h : Reordered xs ys) :
    (drivesOf xs).Perm (drivesOf ys) := by
  induction h with
  | items h =>
      rw [drivesOf_eq_flatMap, drivesOf_eq_flatMap]
      exact h.flatMap_right _
  | assigns h => exact h.append_right _
  | commented _ ih => exact ih.append_right _
  | trans _ _ ih ih' => exact ih.trans ih'

end Item

namespace Module.Rearranges

variable {m m' : Module}

theorem width_eq (h : m.Rearranges m') : m'.circuit.widths.width = m.circuit.widths.width :=
  funext fun name => Widths.width_eq (h.widths name)

theorem tidy_iff (h : m.Rearranges m') {v : Valuation} :
    v.Tidy m'.circuit.widths ↔ v.Tidy m.circuit.widths := by
  constructor
  · intro hv
    exact ⟨hv.nodup, fun name => h.width_eq ▸ hv.fits name⟩
  · intro hv
    exact ⟨hv.nodup, fun name => h.width_eq ▸ hv.fits name⟩

/-- A single assign does the same in both modules. -/
theorem assign_eq (h : m.Rearranges m') (v : Valuation) (a : Assign) :
    m'.circuit.assign v a = m.circuit.assign v a := by
  rw [Circuit.assign, Circuit.assign, Expr.eval_widths h.widths]
  exact bind_congr fun bits => Expr.write_widths h.widths v bits.value a.target

/-- An assign is satisfied in both modules or in neither. -/
theorem satisfied_iff (h : m.Rearranges m') {v : Valuation} {a : Assign} :
    a.Satisfied m'.circuit.widths v ↔ a.Satisfied m.circuit.widths v := by
  rw [Assign.Satisfied, Assign.Satisfied, Expr.eval_widths h.widths, h.width_eq]

theorem mem_assigns (h : m.Rearranges m') {a : Assign} :
    a ∈ m'.circuit.assigns ↔ a ∈ m.circuit.assigns :=
  h.assigns.mem_iff

/-- Signals that are listed once each have the same widths in whatever order they are listed. -/
theorem of_reordered (hdistinct : (m.signals.map Prod.fst).Nodup) (hports : m'.ports = m.ports)
    (hitems : Item.Reordered m.items m'.items) : m.Rearranges m' where
  widths := by
    have hsignals : m'.signals.Perm m.signals := by
      rw [signals, signals, hports]
      exact (hitems.decls.symm.map _).append_left _
    have hdistinct' : (m'.signals.map Prod.fst).Nodup := (hsignals.map _).nodup_iff.mpr hdistinct
    intro name
    by_cases hname : m.circuit.widths.Declares name
    · have hmem := declares_width hdistinct hname
      have hmem' := hsignals.mem_iff.mpr hmem
      rw [Widths.get_of_declares hname, Widths.get_of_declares (declares_of_mem hmem'),
        Module.width_eq hdistinct' hmem']
    · have hname' : ¬ m'.circuit.widths.Declares name := by
        rw [declares_iff] at hname ⊢
        exact fun hmem => hname ((hsignals.map _).mem_iff.mp hmem)
      rw [Widths.get, Widths.get, Option.not_isSome_iff_eq_none.mp hname,
        Option.not_isSome_iff_eq_none.mp hname']
  assigns := hitems.drives.symm

/-- If the assigns of one module can be solved in order, so can those of the other. -/
theorem solvable (h : m.Rearranges m') {rank : Assign → Nat} (hm : m.circuit.Solvable rank) :
    m'.circuit.Solvable rank where
  bounded name := h.width_eq ▸ hm.bounded name
  inRange a ha := h.width_eq ▸ hm.inRange a (h.mem_assigns.mp ha)
  evaluable a ha v hv := by
    rw [h.assign_eq]
    exact hm.evaluable a (h.mem_assigns.mp ha) v (h.tidy_iff.mp hv)
  disjoint := by
    have hdriven : m'.circuit.driven.Perm m.circuit.driven := by
      rw [Circuit.driven, Circuit.driven, h.width_eq]
      exact h.assigns.flatMap_right _
    exact (hdriven.pairwise_iff fun hrs => hrs.symm).mpr hm.disjoint
  ranked a ha b hb name hname i hdrives :=
    hm.ranked a (h.mem_assigns.mp ha) b (h.mem_assigns.mp hb) name hname i (h.width_eq ▸ hdrives)

end Module.Rearranges

/--
**Settling ends in the one solution of the assigns.** From every state that a
simulator may be in, it succeeds. All assigns are satisfied then, and the bits
that none of them drives are as they were; no other values of the signals have
these two properties.

So the values do not depend on the order in which the assigns stand, nor on the
items in which they do. Items may change places freely, with the one exception
that `Rearranges` makes: two declarations of one name with different widths.
-/
theorem settling_solves {m : Module} {rank : Assign → Nat} (hm : m.circuit.Solvable rank)
    {s : Simulator} (hs : Simulator.Reaches m s) :
    ∃ t, s.settle = .ok t ∧
      (∀ a ∈ m.circuit.assigns, a.Satisfied m.circuit.widths t.values) ∧
      (∀ name i, (∀ a ∈ m.circuit.assigns, ¬ a.Drives m.circuit.widths.width name i) →
        (t.get name).getLsbD i = (s.get name).getLsbD i) ∧
      (∀ w : Valuation, w.Tidy m.circuit.widths →
        (∀ a ∈ m.circuit.assigns, a.Satisfied m.circuit.widths w) →
        (∀ name i, (∀ a ∈ m.circuit.assigns, ¬ a.Drives m.circuit.widths.width name i) →
          (w.get name).getLsbD i = (s.get name).getLsbD i) → ∀ name, w.get name = t.get name) ∧
      ∀ m' : Module, m.Rearranges m' →
        ∃ t', Simulator.settle ⟨m'.circuit, s.values⟩ = .ok t' ∧
          ∀ name, t'.get name = t.get name := by
  obtain ⟨hcircuit, hv⟩ := hs.tidy
  obtain ⟨w, hw, htidy, hsatisfied, hkept⟩ := hm.settle_ok hv
  have hunique : ∀ u : Valuation, u.Tidy m.circuit.widths →
      (∀ a ∈ m.circuit.assigns, a.Satisfied m.circuit.widths u) →
      (∀ name i, (∀ a ∈ m.circuit.assigns, ¬ a.Drives m.circuit.widths.width name i) →
        (u.get name).getLsbD i = (s.get name).getLsbD i) → ∀ name, u.get name = w.get name := by
    intro u hu husatisfied hukept
    refine congrFun (hm.unique hu htidy husatisfied hsatisfied fun name i hout => ?_)
    rw [hkept name i hout]
    exact hukept name i hout
  refine ⟨s.withValues w, ?_, hsatisfied, hkept, hunique, fun m' hm' => ?_⟩
  · rw [Simulator.settle, hcircuit, hw]
    rfl
  · -- the rearranged module satisfies the same assigns, in the same widths
    obtain ⟨w', hw', htidy', hsatisfied', hkept'⟩ :=
      (hm'.solvable hm).settle_ok (hm'.tidy_iff.mpr hv)
    refine ⟨⟨m'.circuit, w'⟩, ?_,
      hunique w' (hm'.tidy_iff.mp htidy') (fun a ha => ?_) fun name i hout => ?_⟩
    · rw [Simulator.settle, hw']
      rfl
    · exact hm'.satisfied_iff.mp (hsatisfied' a (hm'.mem_assigns.mpr ha))
    · refine hkept' name i fun a ha hdrives => ?_
      exact hout a (hm'.mem_assigns.mp ha) (hm'.width_eq ▸ hdrives)

/--
Four assigns, the last of which has to come first. The result takes all its bits
but one through a concatenation from a net that is driven in two pieces, and its
bit 1, which nobody drives, was set from outside. One select is computed.
-/
theorem settling_solves_last_first :
    let result : Assign :=
      ⟨.concat [.slice "q" (.decimal 2) (.decimal 2), .index "q" (.decimal 0)], .ident "b"⟩
    let high : Assign := ⟨.slice "b" (.decimal 1) (.decimal 2), .ident "x"⟩
    let low : Assign := ⟨.index "b" (.decimal 0), .ident "c"⟩
    let chosen : Assign := ⟨.ident "c", .index "x" (.ident "y")⟩
    let nets : Item := .declarations [.net 3 "b", .net 1 "c"]
    let m : Module := ⟨"u", [.input 2 "x", .input 1 "y", .output 4 "q"],
      [.commented "result" [nets, .assigns [result]], .assigns [high, low, chosen]]⟩
    let m' : Module :=
      { m with items :=
        [.assigns [chosen, low, high], .commented "result" [.assigns [result], nets]] }
    let s : Simulator := ⟨m.circuit, ⟨[("x", 2), ("y", 1), ("q", 2)]⟩⟩
    Simulator.Reaches m s ∧ m.Rearranges m' ∧ ∃ t t', s.settle = .ok t ∧ t.get "q" = 11 ∧
      Simulator.settle ⟨m'.circuit, s.values⟩ = .ok t' ∧ t'.get "q" = 11 := by
  intro result high low chosen nets m m' s
  have hreaches : Simulator.Reaches m s := by
    have hx : (Simulator.start m).set "x" 2 = .ok ⟨m.circuit, ⟨[("x", 2)]⟩⟩ := by rfl
    have hy : Simulator.set ⟨m.circuit, ⟨[("x", 2)]⟩⟩ "y" 1 =
        .ok ⟨m.circuit, ⟨[("x", 2), ("y", 1)]⟩⟩ := by rfl
    have hq : Simulator.set ⟨m.circuit, ⟨[("x", 2), ("y", 1)]⟩⟩ "q" 2 = .ok s := by rfl
    exact .set (.set (.set .start hx) hy) hq
  have hdistinct : (m.signals.map Prod.fst).Nodup := by decide
  have hbounded : ∀ name, m.circuit.widths.width name ≤ wordBits :=
    Module.width_le hdistinct (by decide)
  have hrearranges : m.Rearranges m' := by
    refine .of_reordered hdistinct rfl (.trans (.commented (.items (List.Perm.swap _ _ _))) ?_)
    refine .trans (.items (List.Perm.swap _ _ _)) (.assigns ?_)
    decide +kernel
  let rank : Assign → Nat :=
    fun a => if a.value = .ident "b" then 2 else if a.value = .ident "c" then 1 else 0
  have hchosen : ∀ v : Valuation, v.Tidy m.circuit.widths →
      ∃ bits, chosen.value.eval m.circuit.widths v = .ok bits := by
    intro v hv
    have hwidth : m.circuit.widths.width "y" = 1 := rfl
    -- the position is a signal of one bit
    have hposition : (v.get "y").toIndex < wordBits := by
      have hbit : (v.get "y").toNat < 2 := by
        rw [← hv.fits "y", hwidth, Word.toNat_low]
        exact Nat.mod_lt _ (by decide)
      have hindex : (v.get "y").toIndex ≤ (v.get "y").toNat := Nat.mod_le _ _
      have hword : 2 ≤ wordBits := by decide
      omega
    have hy : (Expr.ident "y").eval m.circuit.widths v = .ok ⟨v.get "y", 1⟩ := rfl
    exact ⟨_, by rw [Expr.eval, hy, ok_bind, Word.field, checkShift, if_pos hposition]; rfl⟩
  have hvalues : ∀ a ∈ m.circuit.assigns, ∀ v : Valuation, v.Tidy m.circuit.widths →
      ∃ bits, a.value.eval m.circuit.widths v = .ok bits :=
    List.forall_mem_cons.mpr ⟨fun _ _ => ⟨_, rfl⟩, List.forall_mem_cons.mpr ⟨fun _ _ => ⟨_, rfl⟩,
      List.forall_mem_cons.mpr ⟨fun _ _ => ⟨_, rfl⟩, List.forall_mem_singleton.mpr hchosen⟩⟩⟩
  have htargets : ∀ a ∈ m.circuit.assigns, a.target.IsTarget m.circuit.widths := by
    have hresult : result.target.IsTarget m.circuit.widths :=
      ⟨⟨rfl, rfl, rfl, by decide +kernel, by decide +kernel⟩, by decide +kernel,
        ⟨rfl, rfl, by decide +kernel, by decide +kernel⟩, by decide +kernel, trivial⟩
    have hhigh : high.target.IsTarget m.circuit.widths :=
      ⟨rfl, rfl, rfl, by decide +kernel, by decide +kernel⟩
    have hlow : low.target.IsTarget m.circuit.widths :=
      ⟨rfl, rfl, by decide +kernel, by decide +kernel⟩
    exact List.forall_mem_cons.mpr
      ⟨hresult, List.forall_mem_cons.mpr ⟨hhigh, List.forall_mem_cons.mpr ⟨hlow,
      List.forall_mem_singleton.mpr rfl⟩⟩⟩
  have hindependent : m.circuit.Independent := by
    refine ⟨hbounded, fun a ha => (htargets a ha).inRange, fun a ha v hv => ?_, ?_⟩
    · obtain ⟨bits, hbits⟩ := hvalues a ha v hv
      obtain ⟨w, hw, -⟩ := Expr.write_ok hv bits.value (htargets a ha) fun name _ => hbounded name
      exact ⟨w, by rw [Circuit.assign, hbits, ok_bind, hw]⟩
    · have hapart : m.circuit.driven.Pairwise Region.Apart := by decide +kernel
      exact hapart.imp Region.Apart.disjoint
  have hsolvable : m.circuit.Solvable rank := by
    refine ⟨hindependent, ?_⟩
    have hranked : ∀ a ∈ m.circuit.assigns, ∀ b ∈ m.circuit.assigns, ∀ name ∈ a.value.names,
        ∀ r ∈ b.target.regions m.circuit.widths.width, r.name = name → rank b < rank a := by
      decide +kernel
    rintro a ha b hb name hname i ⟨r, hr, hcovers⟩
    exact hranked a ha b hb name hname r hr hcovers.1
  obtain ⟨t, ht, -, -, -, hothers⟩ := settling_solves hsolvable hreaches
  obtain ⟨t', ht', hsame⟩ := hothers m' hrearranges
  have hq : t.get "q" = 11 := by
    have hrun : s.settle.toOption.map (fun t => t.get "q") = some 11 := by decide +kernel
    rw [ht] at hrun
    exact Option.some.inj hrun
  exact ⟨hreaches, hrearranges, t, t', ht, hq, ht', (hsame "q").trans hq⟩

end Handshake
