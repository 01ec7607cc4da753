import Mathlib.Data.List.Dedup
import Handshake.Proofs.Behaviour
import Handshake.Proofs.Inlining
import Handshake.Proofs.Quiescence

/-!
# A circuit inside another one

A circuit *hosts* another one if it holds a copy of it, with its signals
renamed, and if what stands around the copy writes to none of its signals except
its inputs. What is said here needs nothing else of the host: its own assigns
may stop with a fault, or drive one bit twice.

The copy is watched through the renaming (`Views`). A pass of the host is a pass
over the copy, followed perhaps by new values for the inputs. So in a state that
a pass of the host leaves alone, a pass over the copy changes nothing either,
and if the copy is ordered there is only one such state with the inputs and the
registers that it has (`Circuit.Ordered.unique`). A simulator of the hosted
circuit alone, given the same inputs, comes to it as well. What the processes do
at a clock edge is the same on both sides, and so it goes on, round by round.

The one thing that is not the same is the way to that state. On the way, a
computed position may lie beyond the word on one side and not on the other; so
the simulator may stop there, and for no other reason.
-/

namespace Handshake

/-! ## Views -/

namespace Valuation

/-- What a valuation shows through a renaming, for some declared names. -/
def view (v : Valuation) (f : String → String) (widths : Widths) : Valuation :=
  ⟨(widths.entries.map Prod.fst).dedup.map fun name => (name, v.get (f name))⟩

variable {v : Valuation} {f : String → String} {outer inner : Widths}

theorem views_view (hv : v.Tidy outer) (hw : outer.Matches f inner) :
    Views f v (v.view f inner) := by
  intro name
  by_cases hname : name ∈ (inner.entries.map Prod.fst).dedup
  · rw [get, view, List.lookup_graph (fun name => v.get (f name)) hname]
    rfl
  · -- a name that is not declared has no width, and no value on either side
    have hnone : inner.entries.lookup name = none := by
      refine List.lookup_eq_none_iff.mpr fun p hp => ?_
      have hne : name ≠ p.1 := fun heq => hname (List.mem_dedup.mpr (heq ▸ List.mem_map_of_mem hp))
      simpa using hne
    have hwidth : outer.width (f name) = 0 := by rw [hw.width_eq, Widths.width, hnone]; rfl
    have hzero : v.get (f name) = 0 := by
      rw [← hv.fits (f name), hwidth]
      exact BitVec.eq_of_getLsbD_eq fun i _ => by simp [Word.getLsbD_low]
    have hlookup : (v.view f inner).entries.lookup name = none := by
      refine List.lookup_eq_none_iff.mpr fun p hp => ?_
      obtain ⟨other, hother, rfl⟩ := List.mem_map.mp hp
      have hne : name ≠ other := fun heq => hname (heq ▸ hother)
      simpa using hne
    rw [hzero, get, hlookup]
    rfl

theorem tidy_view (hv : v.Tidy outer) (hw : outer.Matches f inner) :
    (v.view f inner).Tidy inner where
  nodup := by
    rw [keys, view, List.map_map]
    exact (List.map_id _).symm ▸ List.nodup_dedup _
  fits name := by rw [views_view hv hw name, ← hw.width_eq, hv.fits]

end Valuation

namespace Circuit

variable {c s : Circuit} {f : String → String} {inputs : List String}

/-! ## Hosts -/

/--
A circuit that holds a renamed copy of another one, and leaves all but the
inputs of the copy alone.
-/
structure Hosts (c s : Circuit) (f : String → String) (inputs : List String) : Prop where
  injective : Function.Injective f
  widths : c.widths.Matches f s.widths
  assigns : ∃ before after, c.assigns = before ++ (s.assigns.map (Assign.renamed f) ++ after) ∧
    (∀ name, f name ∉ Assign.written before) ∧ ∀ name, f name ∈ Assign.written after → name ∈ inputs
  processes : ∃ before after,
    c.processes = before ++ (s.processes.map (Statement.renamedAll f) ++ after) ∧
    (∀ name, f name ∉ Statement.assignedAll before.flatten) ∧
      ∀ name, f name ∉ Statement.assignedAll after.flatten

section
variable {v v' u : Valuation}

theorem assign_renamed (hinj : Function.Injective f) (hw : c.widths.Matches f s.widths)
    (hv : Views f v u) {a : Assign} (h : c.assign v (a.renamed f) = .ok v') :
    ∃ u', s.assign u a = .ok u' ∧ Views f v' u' := by
  obtain ⟨bits, hbits, h⟩ := bind_ok h
  obtain ⟨u', hu', hviews⟩ := Expr.write_renamed hinj hw hv h
  exact ⟨u', bind_ok_of (Expr.eval_renamed hw hv hbits) hu', hviews⟩

theorem fold_renamed (hinj : Function.Injective f) (hw : c.widths.Matches f s.widths)
    {assigns : List Assign} (hv : Views f v u)
    (h : (assigns.map (Assign.renamed f)).foldlM c.assign v = .ok v') :
    ∃ u', assigns.foldlM s.assign u = .ok u' ∧ Views f v' u' := by
  induction assigns generalizing v u with
  | nil =>
      cases h
      exact ⟨u, rfl, hv⟩
  | cons a rest ih =>
      rw [List.map_cons, List.foldlM_cons] at h
      obtain ⟨x, hx, h⟩ := bind_ok h
      obtain ⟨y, hy, hviews⟩ := assign_renamed hinj hw hv hx
      obtain ⟨u', hu', hviews'⟩ := ih hviews h
      exact ⟨u', by rw [List.foldlM_cons, hy, ok_bind, hu'], hviews'⟩

/-- A pass of the host is a pass over the copy, but for what the host gives its inputs. -/
theorem Hosts.pass_view (h : c.Hosts s f inputs) (hv : Views f v u) (hpass : c.pass v = .ok v') :
    ∃ u', s.pass u = .ok u' ∧ ∀ name, name ∉ inputs → u'.get name = v'.get (f name) := by
  obtain ⟨before, after, hassigns, hbefore, hafter⟩ := h.assigns
  rw [pass, hassigns, List.foldlM_append] at hpass
  obtain ⟨x, hx, hpass⟩ := bind_ok hpass
  rw [List.foldlM_append] at hpass
  obtain ⟨y, hy, hpass⟩ := bind_ok hpass
  have hviews : Views f x u :=
    fun name => (hv name).trans ((fold_stores hx).1.frame (hbefore name)).symm
  obtain ⟨u', hu', hviews'⟩ := fold_renamed h.injective h.widths hviews hy
  refine ⟨u', hu', fun name hname => ?_⟩
  rw [hviews' name, (fold_stores hpass).1.frame fun hmem => hname (hafter name hmem)]

end

/-! ## Settling -/

/-- No assign drives the bit. -/
def Free (s : Circuit) (name : String) (i : Nat) : Prop :=
  ∀ a ∈ s.assigns, ¬ a.Drives s.widths.width name i

section
variable {v w u : Valuation}

theorem Hosts.pass_kept (h : c.Hosts s f inputs) (hranges : ∀ a ∈ s.assigns, a.target.IsRange)
    (hv : v.Tidy c.widths) (hpass : c.pass v = .ok w) {name : String}
    (hname : name ∉ inputs) {i : Nat} (hfree : s.Free name i) :
    (w.get (f name)).getLsbD i = (v.get (f name)).getLsbD i := by
  have hviews := Valuation.views_view hv h.widths
  obtain ⟨u, hu, hsame⟩ := h.pass_view hviews hpass
  rw [← hsame name hname, fold_frame hranges (Valuation.tidy_view hv h.widths) hu hfree,
    hviews name]

/-- What the copy keeps while it settles, it keeps inside the host. -/
theorem Hosts.settle_kept (h : c.Hosts s f inputs) (hranges : ∀ a ∈ s.assigns, a.target.IsRange)
    (hv : v.Tidy c.widths) (hsettle : c.settle v = .ok w) {name : String}
    (hname : name ∉ inputs) {i : Nat} (hfree : s.Free name i) :
    (w.get (f name)).getLsbD i = (v.get (f name)).getLsbD i := by
  unfold settle at hsettle
  generalize c.assigns.length + 1 = n at hsettle
  induction n generalizing v with
  | zero => exact absurd hsettle (by simp [settleWithin])
  | succ n ih =>
      obtain ⟨next, hnext, hsettle⟩ := bind_ok hsettle
      have hkept := h.pass_kept hranges hv hnext hname hfree
      split at hsettle
      · cases hsettle
        exact hkept
      · rw [ih ((fold_stores hnext).1.tidy hv) hsettle, hkept]

/--
A state that a pass of the host leaves alone shows one that a pass over the copy
leaves alone.
-/
theorem Hosts.quiet_view (h : c.Hosts s f inputs) (hranges : ∀ a ∈ s.assigns, a.target.IsRange)
    (hfree : ∀ name ∈ inputs, ∀ i, s.Free name i) (hv : Views f v u) (hu : u.Tidy s.widths)
    (hpass : c.pass v = .ok v) : ∃ u', s.pass u = .ok u' ∧ u'.get = u.get := by
  obtain ⟨u', hu', hsame⟩ := h.pass_view hv hpass
  refine ⟨u', hu', funext fun name => ?_⟩
  by_cases hname : name ∈ inputs
  · exact BitVec.eq_of_getLsbD_eq fun i _ => fold_frame hranges hu hu' (hfree name hname i)
  · rw [hsame name hname, hv name]

/--
If the host has come to rest, then the copy on its own settles from any state,
or stops at a shift.
-/
theorem Hosts.settle_yields (h : c.Hosts s f inputs) {rank : Assign → Nat}
    (hordered : s.Ordered rank) (hv : v.Tidy c.widths) (hpass : c.pass v = .ok v)
    (hu : u.Tidy s.widths) :
    Yields (¬ s.Static) (fun _ => True) (s.settle u) := by
  -- every assign of the copy was evaluated once, in the host
  obtain ⟨x, hx, -⟩ := h.pass_view (Valuation.views_view hv h.widths) hpass
  exact hordered.settle_yields hx hu

/--
**The copy on its own settles as it does in the host,** if it starts with the
bits that nothing drives.
-/
theorem Hosts.settle_view (h : c.Hosts s f inputs) {rank : Assign → Nat} (hordered : s.Ordered rank)
    (hfree : ∀ name ∈ inputs, ∀ i, s.Free name i) (hv : v.Tidy c.widths) (hpass : c.pass v = .ok v)
    (hu : u.Tidy s.widths)
    (hsame : ∀ name i, s.Free name i → (u.get name).getLsbD i = (v.get (f name)).getLsbD i) :
    Yields (¬ s.Static) (fun w => w.Tidy s.widths ∧ s.pass w = .ok w ∧ Views f v w)
      (s.settle u) := by
  have hviews := Valuation.views_view hv h.widths
  have htidy := Valuation.tidy_view hv h.widths
  obtain ⟨x, hx, hquiet⟩ := h.quiet_view hordered.ranges hfree hviews htidy hpass
  refine (h.settle_yields hordered hv hpass hu).imp fun w hsettle _ => ?_
  obtain ⟨hw, hstores⟩ := settle_quiet hsettle
  have heq : w.get = (v.view f s.widths).get := by
    refine hordered.unique (hstores.tidy hu) htidy hw hx rfl hquiet fun name i hundriven => ?_
    rw [settle_frame hordered.ranges hu hsettle hundriven, hsame name i hundriven, hviews name]
  refine ⟨hstores.tidy hu, hw, fun name => ?_⟩
  rw [heq, hviews name]

end

/-! ## Clock edges -/

section
variable {v v' u : Valuation}

mutual
theorem schedule_renamed (hw : c.widths.Matches f s.widths) (hv : Views f v u) :
    ∀ {statement : Statement} {pending : List (Expr × Word)},
      c.schedule v (statement.renamed f) = .ok pending →
      ∃ own, s.schedule u statement = .ok own ∧ pending = own.map fun p => (p.1.renamed f, p.2)
  | .branch test onTrue onFalse, pending, h => by
      obtain ⟨bits, hbits, h⟩ := bind_ok h
      have htest := Expr.eval_renamed hw hv hbits
      simp only [schedule, htest, ok_bind]
      split at h
      · rename_i hzero
        rw [if_pos hzero]
        exact scheduleAll_renamed hw hv h
      · rename_i hzero
        rw [if_neg hzero]
        exact scheduleAll_renamed hw hv h
  | .nonblocking target value, pending, h => by
      obtain ⟨bits, hbits, h⟩ := bind_ok h
      cases h
      exact ⟨[(target, bits.value)], bind_ok_of (Expr.eval_renamed hw hv hbits) rfl, rfl⟩
theorem scheduleAll_renamed (hw : c.widths.Matches f s.widths) (hv : Views f v u) :
    ∀ {statements : List Statement} {pending : List (Expr × Word)},
      c.scheduleAll v (Statement.renamedAll f statements) = .ok pending →
      ∃ own, s.scheduleAll u statements = .ok own ∧ pending = own.map fun p => (p.1.renamed f, p.2)
  | [], pending, h => by
      cases h
      exact ⟨[], rfl, rfl⟩
  | statement :: rest, pending, h => by
      obtain ⟨first, hfirst, h⟩ := bind_ok h
      obtain ⟨later, hlater, h⟩ := bind_ok h
      cases h
      obtain ⟨own, hown, rfl⟩ := schedule_renamed hw hv hfirst
      obtain ⟨own', hown', rfl⟩ := scheduleAll_renamed hw hv hlater
      exact ⟨own ++ own', bind_ok_of hown (bind_ok_of hown' rfl), (List.map_append ..).symm⟩
end

mutual
theorem schedule_assigned : ∀ {statement : Statement} {pending : List (Expr × Word)},
    c.schedule v statement = .ok pending →
      ∀ p ∈ pending, ∀ name ∈ p.1.reads, name ∈ statement.assigned
  | .branch test onTrue onFalse, pending, h, p, hp, name, hname => by
      obtain ⟨bits, -, h⟩ := bind_ok h
      split at h
      · exact List.mem_append_right _ (scheduleAll_assigned h p hp name hname)
      · exact List.mem_append_left _ (scheduleAll_assigned h p hp name hname)
  | .nonblocking target value, pending, h, p, hp, name, hname => by
      obtain ⟨bits, -, h⟩ := bind_ok h
      cases h
      cases List.mem_singleton.mp hp
      exact hname
theorem scheduleAll_assigned : ∀ {statements : List Statement} {pending : List (Expr × Word)},
    c.scheduleAll v statements = .ok pending → ∀ p ∈ pending, ∀ name ∈ p.1.reads,
      name ∈ Statement.assignedAll statements
  | [], pending, h, p, hp, _, _ => by
      cases h
      exact absurd hp List.not_mem_nil
  | statement :: rest, pending, h, p, hp, name, hname => by
      obtain ⟨first, hfirst, h⟩ := bind_ok h
      obtain ⟨later, hlater, h⟩ := bind_ok h
      cases h
      rcases List.mem_append.mp hp with hp | hp
      · exact List.mem_append_left _ (schedule_assigned hfirst p hp name hname)
      · exact List.mem_append_right _ (scheduleAll_assigned hlater p hp name hname)
end

theorem scheduleAll_append {xs ys : List Statement} {pending : List (Expr × Word)}
    (h : c.scheduleAll v (xs ++ ys) = .ok pending) :
    ∃ first later, c.scheduleAll v xs = .ok first ∧ c.scheduleAll v ys = .ok later ∧
      pending = first ++ later := by
  induction xs generalizing pending with
  | nil => exact ⟨[], pending, rfl, h, rfl⟩
  | cons x rest ih =>
      obtain ⟨first, hfirst, h⟩ := bind_ok h
      obtain ⟨later, hlater, h⟩ := bind_ok h
      cases h
      obtain ⟨mid, last, hmid, hlast, rfl⟩ := ih hlater
      exact ⟨first ++ mid, last, bind_ok_of hfirst (bind_ok_of hmid rfl), hlast,
        (List.append_assoc ..).symm⟩

theorem commit_renamed (hinj : Function.Injective f) (hw : c.widths.Matches f s.widths)
    {own : List (Expr × Word)} (hv : Views f v u)
    (h : c.commit v (own.map fun p => (p.1.renamed f, p.2)) = .ok v') :
    ∃ u', s.commit u own = .ok u' ∧ Views f v' u' := by
  unfold commit at h ⊢
  induction own generalizing v u with
  | nil =>
      cases h
      exact ⟨u, rfl, hv⟩
  | cons p rest ih =>
      rw [List.map_cons, List.foldlM_cons] at h
      obtain ⟨x, hx, h⟩ := bind_ok h
      obtain ⟨y, hy, hviews⟩ := Expr.write_renamed hinj hw hv hx
      obtain ⟨u', hu', hviews'⟩ := ih hviews h
      refine ⟨u', ?_, hviews'⟩
      rw [List.foldlM_cons]
      exact bind_ok_of hy hu'

theorem commit_frame {statements : List Statement} {pending : List (Expr × Word)} {x : Valuation}
    (hpending : c.scheduleAll x statements = .ok pending) (h : c.commit v pending = .ok v')
    {name : String} (hname : name ∉ Statement.assignedAll statements) :
    v'.get name = v.get name := by
  refine (commit_stores h).frame fun hmem => ?_
  obtain ⟨p, hp, hread⟩ := List.mem_flatMap.mp hmem
  exact hname (scheduleAll_assigned hpending p hp name hread)

theorem flatten_renamed (processes : List (List Statement)) :
    (processes.map (Statement.renamedAll f)).flatten =
      Statement.renamedAll f processes.flatten := by
  have happend : ∀ xs ys : List Statement, Statement.renamedAll f (xs ++ ys) =
      Statement.renamedAll f xs ++ Statement.renamedAll f ys := by
    intro xs ys
    induction xs with
    | nil => rfl
    | cons x rest ih =>
        rw [List.cons_append, Statement.renamedAll, Statement.renamedAll, ih, List.cons_append]
  induction processes with
  | nil => rfl
  | cons p rest ih => rw [List.map_cons, List.flatten_cons, ih, List.flatten_cons, happend]

/-- **The processes of the copy do on their own what they do in the host.** -/
theorem Hosts.commit_view (h : c.Hosts s f inputs) (hv : Views f v u) {pending : List (Expr × Word)}
    (hpending : c.scheduled v = .ok pending) (hcommit : c.commit v pending = .ok v') :
    ∃ own u', s.scheduled u = .ok own ∧ s.commit u own = .ok u' ∧ Views f v' u' := by
  obtain ⟨before, after, hprocesses, hbefore, hafter⟩ := h.processes
  rw [scheduled, hprocesses, List.flatten_append, List.flatten_append, flatten_renamed] at hpending
  obtain ⟨first, rest, hfirst, hrest, rfl⟩ := scheduleAll_append hpending
  obtain ⟨mid, last, hmid, hlast, rfl⟩ := scheduleAll_append hrest
  obtain ⟨own, hown, rfl⟩ := scheduleAll_renamed h.widths hv hmid
  unfold commit at hcommit
  rw [List.foldlM_append] at hcommit
  obtain ⟨x, hx, hcommit⟩ := bind_ok hcommit
  rw [List.foldlM_append] at hcommit
  obtain ⟨y, hy, hcommit⟩ := bind_ok hcommit
  -- what the processes around the copy schedule goes past it
  have hviews : Views f x u :=
    fun name => (hv name).trans (commit_frame hfirst hx (hbefore name)).symm
  obtain ⟨u', hu', hviews'⟩ := commit_renamed h.injective h.widths hviews hy
  exact ⟨own, u', hown, hu',
    fun name => (hviews' name).trans (commit_frame hlast hcommit (hafter name)).symm⟩

end

/-! ## Rounds -/

/-- What the copy on its own has in common with the copy in the host from one round to the next. -/
structure Tracks (c s : Circuit) (f : String → String) (inputs : List String) (v u : Valuation) :
    Prop where
  host : v.Tidy c.widths
  own : u.Tidy s.widths
  kept : ∀ name, name ∉ inputs → ∀ i, s.Free name i →
    (u.get name).getLsbD i = (v.get (f name)).getLsbD i

section
variable {v w u : Valuation}

/-- A clock edge, from states that agree. -/
theorem Hosts.tick_tracks (h : c.Hosts s f inputs) {rank : Assign → Nat} (hordered : s.Ordered rank)
    (hv : v.Tidy c.widths) (hpass : c.pass v = .ok v) (hu : u.Tidy s.widths)
    (hquiet : s.pass u = .ok u) (hviews : Views f v u) (htick : c.tick v = .ok w) :
    Yields (¬ s.Static) (c.Tracks s f inputs w) (s.tick u) := by
  obtain ⟨v', pending, written, hsettled, hpending, hwritten, hsettle⟩ := tick_eq htick
  obtain rfl : v = v' := Except.ok.inj ((settle_of_pass hpass).symm.trans hsettled)
  obtain ⟨own, y, hown, hy, hsame⟩ := h.commit_view hviews hpending hwritten
  have htick' : s.tick u = s.settle y := by
    rw [tick, settle_of_pass hquiet, ok_bind, hown, ok_bind, hy, ok_bind]
  rw [htick']
  have hwrittenTidy := (commit_stores hwritten).tidy hv
  have hytidy := (commit_stores hy).tidy hu
  obtain ⟨hwpass, hwstores⟩ := settle_quiet hsettle
  have hw := hwstores.tidy hwrittenTidy
  refine (h.settle_yields hordered hw hwpass hytidy).imp fun x hx _ => ?_
  refine ⟨hw, (settle_quiet hx).2.tidy hytidy, fun name hname i hfree => ?_⟩
  rw [settle_frame hordered.ranges hytidy hx hfree, hsame name,
    h.settle_kept hordered.ranges hwrittenTidy hsettle hname hfree]

end

end Circuit

/-! ## Runs -/

namespace Simulator

/-- Driving signals to given values leaves them there, cut to their widths. -/
theorem drive_get {s t : Simulator} {names : List String} {g : String → Word}
    (h : s.drive (names.map fun name => (name, g name)) = .ok t) (other : String) :
    t.get other =
      if other ∈ names then (g other).low (s.circuit.widths.width other) else s.get other := by
  induction names generalizing s with
  | nil =>
      cases h
      simp
  | cons name rest ih =>
      rw [drive, List.map_cons, List.foldlM_cons] at h
      obtain ⟨x, hx, h⟩ := bind_ok h
      obtain ⟨hset, hcircuit⟩ := map_withValues hx
      obtain ⟨width, hwidth, hset⟩ := bind_ok hset
      obtain ⟨-, rfl⟩ := Widths.get_ok hwidth
      have hvalues : x.values = s.values.put name ((g name).low (s.circuit.widths.width name)) :=
        (Except.ok.inj hset).symm
      have hget : x.get other =
          if other = name then (g name).low (s.circuit.widths.width name) else s.get other := by
        rw [get, hvalues, Valuation.get_put, get]
      rw [ih h, hcircuit, hget]
      by_cases hrest : other ∈ rest
      · rw [if_pos hrest, if_pos (List.mem_cons_of_mem _ hrest)]
      · rw [if_neg hrest]
        by_cases hname : other = name
        · subst hname
          rw [if_pos rfl, if_pos List.mem_cons_self]
        · rw [if_neg hname, if_neg fun hmem => (List.mem_cons.mp hmem).elim hname hrest]

end Simulator

/-- What the inputs of a part are worth in the state of the module around it. -/
def Module.inputsSeen (sub : Module) (f : String → String) (s : Simulator) : List (String × Word) :=
  sub.inputs.map fun name => (name, s.get (f name))

namespace Circuit.Hosts

variable {top sub : Module} {f : String → String} {rank : Assign → Nat}

/--
One round: a simulator of the part, given the inputs that it has in the host,
settles as it does there.
-/
theorem cycle_tracks (h : top.circuit.Hosts sub.circuit f sub.inputs)
    (hordered : sub.circuit.Ordered rank)
    (hfree : ∀ name ∈ sub.inputs, ∀ i, sub.circuit.Free name i)
    (houtside : ∀ name, f name ∉ top.inputs) {inputs : List (String × Word)}
    (hin : ∀ p ∈ inputs, p.1 ∈ top.inputs) {s t settled next : Simulator}
    (hs : s.circuit = top.circuit) (ht : t.circuit = sub.circuit)
    (htracks : top.circuit.Tracks sub.circuit f sub.inputs s.values t.values)
    (hcycle : s.cycle inputs = .ok (settled, next)) :
    next.circuit = top.circuit ∧ Yields (¬ sub.circuit.Static)
      (fun round => (∀ name, round.1.get name = settled.get (f name)) ∧
        round.2.circuit = sub.circuit ∧
        top.circuit.Tracks sub.circuit f sub.inputs next.values round.2.values)
      (t.cycle (sub.inputsSeen f settled)) := by
  obtain ⟨driven, hdriven, hcycle⟩ := bind_ok hcycle
  obtain ⟨settled₁, hsettled, hcycle⟩ := bind_ok hcycle
  obtain ⟨next₁, hnext, hcycle⟩ := bind_ok hcycle
  cases hcycle
  -- the host's side of the round
  obtain ⟨driven₁, hdriven₁, hdcircuit, hdtidy, hdframe⟩ := Module.drive_ok hin hs htracks.host
  obtain rfl : driven₁ = driven := Except.ok.inj (hdriven₁.symm.trans hdriven)
  obtain ⟨hsettled, hscircuit⟩ := Simulator.map_withValues hsettled
  obtain ⟨hnext, hncircuit⟩ := Simulator.map_withValues hnext
  rw [hdcircuit] at hsettled hscircuit
  rw [hscircuit] at hnext hncircuit
  obtain ⟨hpass, hstores⟩ := Circuit.settle_quiet hsettled
  have hstidy := hstores.tidy hdtidy
  refine ⟨hncircuit, ?_⟩
  -- the part on its own, driven with the inputs of the settled host
  have hin' : ∀ p ∈ sub.inputsSeen f settled, p.1 ∈ sub.inputs := by
    intro p hp
    obtain ⟨name, hname, rfl⟩ := List.mem_map.mp hp
    exact hname
  obtain ⟨own, hown, hocircuit, hotidy, hoframe⟩ := Module.drive_ok hin' ht htracks.own
  have hseen : ∀ name i, sub.circuit.Free name i →
      (own.values.get name).getLsbD i = (settled.values.get (f name)).getLsbD i := by
    intro name i hbit
    by_cases hname : name ∈ sub.inputs
    · have hvalue := Simulator.drive_get hown name
      rw [if_pos hname, ht, ← h.widths.width_eq] at hvalue
      exact congrArg (BitVec.getLsbD · i) (hvalue.trans (hstidy.fits (f name)))
    · have hkept : own.values.get name = t.values.get name := hoframe name hname
      have hstart : driven₁.values.get (f name) = s.values.get (f name) :=
        hdframe (f name) (houtside name)
      rw [hkept, htracks.kept name hname i hbit, ← hstart,
        h.settle_kept hordered.ranges hdtidy hsettled hname hbit]
  rw [Simulator.cycle, hown, ok_bind]
  refine Yields.bind (R := fun x => x.circuit = sub.circuit ∧ x.values.Tidy sub.circuit.widths ∧
    sub.circuit.pass x.values = .ok x.values ∧ Views f settled.values x.values) ?_ ?_
  · rw [Simulator.settle, hocircuit]
    exact (h.settle_view hordered hfree hstidy hpass hotidy hseen).map fun _ hw => ⟨hocircuit, hw⟩
  · rintro settled' ⟨hcircuit, htidy, hquiet, hviews⟩
    refine Yields.bind (R := fun x => x.circuit = sub.circuit ∧
      top.circuit.Tracks sub.circuit f sub.inputs next.values x.values) ?_
        fun _ hx => .of_ok rfl ⟨hviews, hx⟩
    rw [Simulator.tick, hcircuit]
    exact (h.tick_tracks hordered hstidy hpass htidy hquiet hviews hnext).map fun _ hw =>
      ⟨hcircuit, hw⟩

/-- **A part behaves in its host as it does alone,** whatever the host does to its inputs. -/
theorem run_tracks (h : top.circuit.Hosts sub.circuit f sub.inputs)
    (hordered : sub.circuit.Ordered rank)
    (hfree : ∀ name ∈ sub.inputs, ∀ i, sub.circuit.Free name i)
    (houtside : ∀ name, f name ∉ top.inputs) {cycles : List (List (String × Word))}
    (hin : ∀ inputs ∈ cycles, ∀ p ∈ inputs, p.1 ∈ top.inputs) {s t : Simulator}
    (hs : s.circuit = top.circuit) (ht : t.circuit = sub.circuit)
    (htracks : top.circuit.Tracks sub.circuit f sub.inputs s.values t.values)
    {trace : List Simulator} (hrun : s.run cycles = .ok trace) :
    Yields (¬ sub.circuit.Static)
      (List.Forall₂ (fun s t => ∀ name, t.get name = s.get (f name)) trace)
      (t.run (trace.map (sub.inputsSeen f))) := by
  induction cycles generalizing s t trace with
  | nil =>
      cases hrun
      exact .of_ok rfl .nil
  | cons inputs rest ih =>
      obtain ⟨⟨settled, next⟩, hcycle, hrun⟩ := bind_ok hrun
      obtain ⟨later, hlater, hrun⟩ := bind_ok hrun
      cases hrun
      obtain ⟨hin₁, hrest⟩ := List.forall_mem_cons.mp hin
      obtain ⟨hnext, hround⟩ := h.cycle_tracks hordered hfree houtside hin₁ hs ht htracks hcycle
      rw [List.map_cons, Simulator.run]
      refine hround.bind fun round hround => ?_
      obtain ⟨hsame, hnext', htracks'⟩ := hround
      exact (ih hrest hnext hnext' htracks' hlater).bind fun _ hall => .of_ok rfl (.cons hsame hall)

end Circuit.Hosts

end Handshake
