import Handshake.Proofs.Footprints
import Handshake.Proofs.Reordering
import Handshake.Proofs.Simulability

/-!
# Modules in another order, step by step

Two modules that have the same items in different orders are driven, settled and
clocked side by side. The stored values come in different orders and the assigns
settle along different ways, but the values are the same after every step. A
settled state knows no order, since every bit has one driver: each assign by
itself leaves it alone (`each_unchanged`), so a pass in the other order does
too, and there is only one such state. A clock edge knows none either, since the
processes are apart (`effect_perm`).

The one thing that the order decides is what the assigns meet on their way. A
position that is computed may lie beyond the word for a moment in one order and
never in the other; one of the simulators stops there then, and for no other
reason (`Yields`).
-/

namespace Handshake

/-! ## Quiet states know no order -/

namespace Circuit

variable {c : Circuit} {u v w : Valuation}

/-- Assigns that change nothing one by one change nothing together, in whatever order. -/
theorem fold_unchanged {assigns : List Assign}
    (h : ∀ a ∈ assigns, ∃ x, c.assign v a = .ok x ∧ x.get = v.get) (hsame : u.get = v.get) :
    ∃ w, assigns.foldlM c.assign u = .ok w ∧ w.get = v.get := by
  induction assigns generalizing u with
  | nil => exact ⟨u, rfl, hsame⟩
  | cons a rest ih =>
      obtain ⟨⟨x, hx, hkept⟩, hrest⟩ := List.forall_mem_cons.mp h
      obtain ⟨y, hy, hsame'⟩ := assign_congr hsame hx
      obtain ⟨w, hw, hfinal⟩ := ih hrest (hsame'.trans hkept)
      exact ⟨w, by rw [List.foldlM_cons, hy, ok_bind, hw], hfinal⟩

/-- A clock edge settles, lets the processes take effect, and settles again. -/
theorem tick_eq_effect (c : Circuit) (v : Valuation) :
    c.tick v = c.settle v >>= fun settled => c.effect settled c.processes.flatten >>= c.settle := by
  simp only [tick, effect, scheduled, bind_assoc]

/--
A circuit whose order does not show: targets have literal positions, assigns are
ranked and drive different bits, and processes are apart.
-/
structure Orderly (c : Circuit) (rank : Assign → Nat) : Prop extends c.Ordered rank where
  disjoint : c.driven.Pairwise Region.Disjoint
  apart : c.processes.Pairwise Statement.Apart

end Circuit

/-! ## Side by side -/

/--
The same widths are declared, and the same assigns and processes are there, in
any order and in any items.
-/
structure Module.Shuffles (m m' : Module) : Prop extends m.Rearranges m' where
  processes : (Item.processesOf m'.items).Perm (Item.processesOf m.items)

namespace Item

theorem processesOf_eq_flatMap (items : List Item) :
    processesOf items = items.flatMap processes := by
  induction items with
  | nil => rfl
  | cons item rest ih => rw [processesOf, ih, List.flatMap_cons]

theorem Reordered.processes {xs ys : List Item} (h : Reordered xs ys) :
    (processesOf xs).Perm (processesOf ys) := by
  induction h with
  | items h =>
      rw [processesOf_eq_flatMap, processesOf_eq_flatMap]
      exact h.flatMap_right _
  | assigns _ => exact .refl _
  | commented _ ih => exact ih.append_right _
  | trans _ _ ih ih' => exact ih.trans ih'

end Item

namespace Module

variable {m m' : Module} {rank : Assign → Nat} {v v' w : Valuation}

theorem Shuffles.of_reordered (hitems : Item.Reordered m.items m'.items)
    (hwidths : ∀ name, m'.circuit.widths.get name = m.circuit.widths.get name) : m.Shuffles m' where
  widths := hwidths
  assigns := hitems.drives.symm
  processes := hitems.processes.symm

namespace Rearranges

theorem ordered (h : m.Rearranges m') (hm : m.circuit.Ordered rank) : m'.circuit.Ordered rank where
  ranges a ha := hm.ranges a (h.mem_assigns.mp ha)
  ranked a ha b hb name hname i hdrives :=
    hm.ranked a (h.mem_assigns.mp ha) b (h.mem_assigns.mp hb) name hname i (h.width_eq ▸ hdrives)

theorem free_of_free (h : m.Rearranges m') {name : String} {i : Nat}
    (hfree : m'.circuit.Free name i) : m.circuit.Free name i := by
  intro a ha hdrives
  exact hfree a (h.mem_assigns.mpr ha) (h.width_eq ▸ hdrives)

mutual
theorem schedule_eq (h : m.Rearranges m') (v : Valuation) :
    ∀ s : Statement, m'.circuit.schedule v s = m.circuit.schedule v s
  | .branch test onTrue onFalse => by
      simp only [Circuit.schedule, Expr.eval_widths h.widths, scheduleAll_eq h v onTrue,
        scheduleAll_eq h v onFalse]
  | .nonblocking target value => by simp only [Circuit.schedule, Expr.eval_widths h.widths]
theorem scheduleAll_eq (h : m.Rearranges m') (v : Valuation) :
    ∀ ss : List Statement, m'.circuit.scheduleAll v ss = m.circuit.scheduleAll v ss
  | [] => rfl
  | s :: rest => by simp only [Circuit.scheduleAll, schedule_eq h v s, scheduleAll_eq h v rest]
end

theorem effect_eq (h : m.Rearranges m') (v : Valuation) (ss : List Statement) :
    m'.circuit.effect v ss = m.circuit.effect v ss := by
  rw [Circuit.effect, Circuit.effect, h.scheduleAll_eq]
  refine bind_congr fun pending => ?_
  simp only [Circuit.commit, Expr.write_widths h.widths]

/-- What a pass leaves alone, a pass in the other order leaves alone as well. -/
theorem pass_unchanged (h : m.Rearranges m') (hranges : ∀ a ∈ m.circuit.assigns, a.target.IsRange)
    (hdisjoint : m.circuit.driven.Pairwise Region.Disjoint) (hv : v.Tidy m.circuit.widths)
    (hpass : m.circuit.pass v = .ok v) : ∃ w, m'.circuit.pass v = .ok w ∧ w.get = v.get := by
  have heach := Circuit.each_unchanged hranges hdisjoint hv hpass rfl
  refine Circuit.fold_unchanged (fun a ha => ?_) rfl
  rw [h.assign_eq]
  exact heach a (h.mem_assigns.mp ha)

/-- **Both settle in the same values.** -/
theorem settle_yields (h : m.Rearranges m') (hm : m.circuit.Ordered rank)
    (hdisjoint : m.circuit.driven.Pairwise Region.Disjoint) (hv : v.Tidy m.circuit.widths)
    (hv' : v'.Tidy m.circuit.widths) (hsame : v'.get = v.get)
    (hsettle : m.circuit.settle v = .ok w) :
    Yields (¬ m.circuit.Static) (fun w' => w'.Tidy m.circuit.widths ∧ w'.get = w.get)
      (m'.circuit.settle v') := by
  obtain ⟨hpass, hstores⟩ := Circuit.settle_quiet hsettle
  have hw := hstores.tidy hv
  obtain ⟨x, hx, hquiet⟩ := h.pass_unchanged hm.ranges hdisjoint hw hpass
  have hm' := h.ordered hm
  rw [← h.tidy_iff] at hv' hw
  have hstatic : m.circuit.Static → m'.circuit.Static :=
    fun hstatic a ha => hstatic a (h.mem_assigns.mp ha)
  -- every assign has been evaluated once, in the settled state
  refine ((hm'.settle_yields hx hv').imp_excuse (mt hstatic)).imp fun w' hw' _ => ?_
  obtain ⟨hpass', hstores'⟩ := Circuit.settle_quiet hw'
  have htidy := hstores'.tidy hv'
  refine ⟨h.tidy_iff.mp htidy, hm'.unique htidy hw hpass' hx rfl hquiet fun name i hfree => ?_⟩
  rw [Circuit.settle_frame hm'.ranges hv' hw' hfree, hsame,
    Circuit.settle_frame hm.ranges hv hsettle (h.free_of_free hfree)]

theorem set_yields (h : m.Rearranges m') {name : String} {value : Word}
    (hv' : v'.Tidy m.circuit.widths) (hsame : v'.get = v.get)
    (hset : m.circuit.set v name value = .ok w) :
    Yields (¬ m.circuit.Static) (fun w' => w'.Tidy m.circuit.widths ∧ w'.get = w.get)
      (m'.circuit.set v' name value) := by
  obtain ⟨width, hwidth, hset⟩ := bind_ok hset
  cases hset
  have hset' : m.circuit.set v' name value = .ok (v'.put name (value.low width)) :=
    bind_ok_of hwidth rfl
  refine .of_ok (bind_ok_of ((h.widths name).trans hwidth) rfl)
    ⟨(Circuit.set_stores hset').tidy hv', ?_⟩
  funext n
  rw [Valuation.get_put, Valuation.get_put, hsame]

end Rearranges

namespace Shuffles

/-- **A clock edge leads both to the same values.** -/
theorem tick_yields (h : m.Shuffles m') (hm : m.circuit.Orderly rank) (hv : v.Tidy m.circuit.widths)
    (hv' : v'.Tidy m.circuit.widths) (hsame : v'.get = v.get) (htick : m.circuit.tick v = .ok w) :
    Yields (¬ m.circuit.Static) (fun w' => w'.Tidy m.circuit.widths ∧ w'.get = w.get)
      (m'.circuit.tick v') := by
  rw [Circuit.tick_eq_effect] at htick ⊢
  obtain ⟨settled, hsettled, htick⟩ := bind_ok htick
  obtain ⟨written, hwritten, hsettle⟩ := bind_ok htick
  have hstidy := (Circuit.settle_quiet hsettled).2.tidy hv
  have hwtidy := Circuit.effect_tidy hwritten hstidy
  refine (h.settle_yields hm.toOrdered hm.disjoint hv hv' hsame hsettled).bind
    fun settled' ⟨hstidy', hssame⟩ => ?_
  -- the processes in the other order, and then on values that are stored in another order
  obtain ⟨x, hx, hxsame⟩ := Circuit.effect_perm h.processes hm.apart hwritten
  obtain ⟨written', hwritten', hwsame⟩ := Circuit.effect_congr hssame hx
  have hwtidy' := Circuit.effect_tidy hwritten' hstidy'
  have heffect : m'.circuit.effect settled' m'.circuit.processes.flatten = .ok written' :=
    (h.effect_eq _ _).trans hwritten'
  rw [heffect, ok_bind]
  exact h.settle_yields hm.toOrdered hm.disjoint hwtidy hwtidy' (hwsame.trans hxsame) hsettle

end Shuffles

end Module

namespace Simulator

/-- The simulator after each of some actions. -/
def history (s : Simulator) : List Action → Except Fault (List Simulator)
  | [] => .ok []
  | action :: rest => do
    let t ← s.act action
    let later ← t.history rest
    return t :: later

/-- Simulators of two modules that show the same values. -/
structure Matches (m m' : Module) (s s' : Simulator) : Prop where
  circuit : s.circuit = m.circuit
  circuit' : s'.circuit = m'.circuit
  tidy : s.values.Tidy m.circuit.widths
  tidy' : s'.values.Tidy m.circuit.widths
  same : s'.values.get = s.values.get

variable {m m' : Module} {rank : Assign → Nat} {s s' t : Simulator}

theorem matches_start (m m' : Module) : Matches m m' (start m) (start m') :=
  ⟨rfl, rfl, Valuation.tidy_zero _, Valuation.tidy_zero _, rfl⟩

theorem Matches.withValues (hs : Matches m m' s s') {excuse : Prop} {x : Except Fault Valuation}
    (hcircuit : t.circuit = s.circuit) (htidy : t.values.Tidy m.circuit.widths)
    (hx : Yields excuse (fun w => w.Tidy m.circuit.widths ∧ w.get = t.values.get) x) :
    Yields excuse (Matches m m' t) (x.map s'.withValues) :=
  hx.map fun _ hw => ⟨hcircuit.trans hs.circuit, hs.circuit', htidy, hw.1, hw.2⟩

/-- What one action keeps. -/
theorem Matches.act_yields (hs : Matches m m' s s') (h : m.Shuffles m')
    (hm : m.circuit.Orderly rank) {action : Action} (hact : s.act action = .ok t) :
    Yields (¬ m.circuit.Static) (Matches m m' t) (s'.act action) := by
  cases action with
  | set name value =>
      obtain ⟨hset, hcircuit⟩ := map_withValues hact
      rw [hs.circuit] at hset
      have hset' := h.set_yields hs.tidy' hs.same hset
      rw [← hs.circuit'] at hset'
      exact hs.withValues hcircuit ((Circuit.set_stores hset).tidy hs.tidy) hset'
  | settle =>
      obtain ⟨hsettle, hcircuit⟩ := map_withValues hact
      rw [hs.circuit] at hsettle
      have hsettle' := h.settle_yields hm.toOrdered hm.disjoint hs.tidy hs.tidy' hs.same hsettle
      rw [← hs.circuit'] at hsettle'
      exact hs.withValues hcircuit ((Circuit.settle_quiet hsettle).2.tidy hs.tidy) hsettle'
  | tick =>
      obtain ⟨htick, hcircuit⟩ := map_withValues hact
      rw [hs.circuit] at htick
      have htick' := h.tick_yields hm hs.tidy hs.tidy' hs.same htick
      rw [← hs.circuit'] at htick'
      exact hs.withValues hcircuit (Circuit.tick_tidy htick hs.tidy) htick'

/-- What a run keeps. -/
theorem Matches.history_yields (hs : Matches m m' s s') (h : m.Shuffles m')
    (hm : m.circuit.Orderly rank) {actions : List Action} {trace : List Simulator}
    (hrun : s.history actions = .ok trace) :
    Yields (¬ m.circuit.Static) (fun trace' => trace'.map get = trace.map get)
      (s'.history actions) := by
  induction actions generalizing s s' trace with
  | nil =>
      cases hrun
      exact .of_ok rfl rfl
  | cons action rest ih =>
      obtain ⟨t, hact, hrun⟩ := bind_ok hrun
      obtain ⟨later, hlater, hrun⟩ := bind_ok hrun
      cases hrun
      refine (hs.act_yields h hm hact).bind fun t' ht => ?_
      refine (ih ht hlater).bind fun later' hsame => ?_
      have hfirst : t'.get = t.get := ht.same
      refine .of_ok rfl ?_
      rw [List.map_cons, List.map_cons, hfirst, hsame]

end Simulator

/-! ## Runs -/

/--
A clock edge, process by process. Each one does to the signals that it assigns
what it would do alone in the settled state before the edge; what assigns drive
besides is theirs.
-/
theorem Circuit.tick_alone {c : Circuit} {v w : Valuation}
    (hranges : ∀ a ∈ c.assigns, a.target.IsRange) (hapart : c.processes.Pairwise Statement.Apart)
    (hv : v.Tidy c.widths) (htick : c.tick v = .ok w) :
    ∃ settled, c.settle v = .ok settled ∧
      ∀ p ∈ c.processes, ∃ alone, c.effect settled p = .ok alone ∧
      ∀ name ∈ Statement.assignedAll p, ∀ i, c.Free name i →
        (w.get name).getLsbD i = (alone.get name).getLsbD i := by
  rw [tick_eq_effect] at htick
  obtain ⟨settled, hsettled, htick⟩ := bind_ok htick
  obtain ⟨written, hwritten, hsettle⟩ := bind_ok htick
  have hwtidy := effect_tidy hwritten ((settle_quiet hsettled).2.tidy hv)
  refine ⟨settled, hsettled, fun p hp => ?_⟩
  obtain ⟨alone, halone, hsame⟩ := effect_alone hapart hwritten p hp
  refine ⟨alone, halone, fun name hname i hfree => ?_⟩
  rw [settle_frame hranges hwtidy hsettle hfree, hsame name hname]

/--
**The order of items does not show.** Take a module in which assigns drive
different bits at literal positions and can be ranked, and in which no process
assigns a signal that occurs in a target of another one. With its items in
another order, and every signal of the width that it had, it goes through the
same runs with the same values after every action, unless some assign selects at
a computed position and comes to lie beyond a word on the way.

At a clock edge every process does to its signals what it would do alone in the
settled state before: tests and values are those of that state, and positions in
targets see besides only what the process itself has assigned.
-/
theorem reordered_runs_alike {m m' : Module} {rank : Assign → Nat} (hm : m.circuit.Orderly rank)
    (hitems : Item.Reordered m.items m'.items)
    (hwidths : ∀ name, m'.circuit.widths.get name = m.circuit.widths.get name) :
    (∀ actions trace, (Simulator.start m).history actions = .ok trace →
      (∃ trace', (Simulator.start m').history actions = .ok trace' ∧
        trace'.map Simulator.get = trace.map Simulator.get) ∨
      ¬ m.circuit.Static ∧ ∃ n, (Simulator.start m').history actions = .error (.shiftTooFar n)) ∧
    ∀ s t, Simulator.Reaches m s → s.tick = .ok t →
      ∃ settled, s.settle = .ok settled ∧
        ∀ p ∈ m.circuit.processes, ∃ alone, m.circuit.effect settled.values p = .ok alone ∧
          ∀ name ∈ Statement.assignedAll p, ∀ i, m.circuit.Free name i →
            (t.get name).getLsbD i = (alone.get name).getLsbD i := by
  refine ⟨fun actions trace hrun => ?_, fun s t hs ht => ?_⟩
  · exact (Simulator.matches_start m m').history_yields (.of_reordered hitems hwidths) hm hrun
  · obtain ⟨hcircuit, hv⟩ := hs.tidy
    obtain ⟨htick, -⟩ := Simulator.map_withValues ht
    rw [hcircuit] at htick
    obtain ⟨settled, hsettled, halone⟩ := Circuit.tick_alone hm.ranges hm.apart hv htick
    refine ⟨s.withValues settled, ?_, halone⟩
    rw [Simulator.settle, hcircuit, hsettled]
    rfl

/--
Two processes. One sets bits of a register, each at a position that it has
changed just before in a register of its own; the other one takes over what the
first has set before the edge, at a position that comes from outside. The result
is driven before the net that it comes from, and after it in the other order.
-/
theorem reordered_runs_alike_two_processes :
    let nets : Item := .declarations [.net 2 "b", .reg 1 "i", .reg 2 "r", .reg 4 "k"]
    let outer : Item := .assigns [⟨.ident "q", .concat [.ident "k", .ident "b"]⟩]
    let inner : Item := .commented "inside" [.assigns [⟨.ident "b", .ident "r"⟩]]
    let marks : List Statement := [.branch (.ident "on")
      [.nonblocking (.ident "i") (.not (.ident "i")),
        .nonblocking (.index "r" (.ident "i")) (.bit true)] []]
    let takes : List Statement :=
      [.nonblocking (.slice "k" (.ident "at") (.decimal 2)) (.ident "b")]
    let m : Module := ⟨"u", [.input 1 "on", .input 2 "at", .output 6 "q"],
      [nets, outer, inner, .clocked marks, .clocked takes]⟩
    let m' : Module := { m with items := [.clocked takes, inner, .clocked marks, outer, nets] }
    let actions : List Simulator.Action := [.set "on" 1, .set "at" 1, .tick, .tick]
    (∃ trace trace', (Simulator.start m).history actions = .ok trace ∧
      (Simulator.start m').history actions = .ok trace' ∧
      trace'.map Simulator.get = trace.map Simulator.get ∧
      trace.map (fun s => s.get "q") = [0, 0, 2, 19]) ∧
    ∃ s t settled alone, Simulator.Reaches m s ∧ s.tick = .ok t ∧ t.get "r" = 2 ∧
      s.settle = .ok settled ∧
      m.circuit.effect settled.values marks = .ok alone ∧
      ∀ i, (t.get "r").getLsbD i = (alone.get "r").getLsbD i := by
  intro nets outer inner marks takes m m' actions
  have hitems : Item.Reordered m.items m'.items := .items (by decide +kernel)
  have hdistinct : (m.signals.map Prod.fst).Nodup := by decide
  have hrearranges : m.Rearranges m' := .of_reordered hdistinct rfl hitems
  let rank : Assign → Nat := fun a => if a.target = .ident "q" then 1 else 0
  have hranked : ∀ a ∈ m.circuit.assigns, ∀ b ∈ m.circuit.assigns, ∀ name ∈ a.value.names,
      ∀ r ∈ b.target.regions m.circuit.widths.width, r.name = name → rank b < rank a := by
    decide +kernel
  have hordered : m.circuit.Ordered rank := by
    refine ⟨List.forall_mem_cons.mpr ⟨trivial, List.forall_mem_singleton.mpr trivial⟩, ?_⟩
    rintro a ha b hb name hname i ⟨r, hr, hcovers⟩
    exact hranked a ha b hb name hname r hr hcovers.1
  have hdisjoint : m.circuit.driven.Pairwise Region.Apart := by decide +kernel
  have hapart : m.circuit.processes.Pairwise fun p q =>
      (∀ name ∈ Statement.assignedAll p, name ∉ Statement.targetedAll q) ∧
        ∀ name ∈ Statement.assignedAll q, name ∉ Statement.targetedAll p := by
    decide +kernel
  have hm : m.circuit.Orderly rank := ⟨hordered, hdisjoint.imp Region.Apart.disjoint, hapart⟩
  obtain ⟨hruns, hedges⟩ := reordered_runs_alike hm hitems hrearranges.widths
  constructor
  · have hrun : ∃ trace ∈ ((Simulator.start m).history actions).toOption,
        trace.map (fun s => s.get "q") = [0, 0, 2, 19] := by
      decide +kernel
    obtain ⟨trace, htrace, hq⟩ := hrun
    have hstatic : m.circuit.Static :=
      List.forall_mem_cons.mpr ⟨⟨trivial, trivial, trivial⟩, List.forall_mem_singleton.mpr trivial⟩
    rcases hruns actions trace (eq_ok_of_mem_toOption htrace)
      with ⟨trace', htrace', hsame⟩ | ⟨hcomputed, -⟩
    · exact ⟨trace, trace', eq_ok_of_mem_toOption htrace, htrace', hsame, hq⟩
    · exact absurd hstatic hcomputed
  · have hrun : ∃ s ∈ ((Simulator.start m).set "on" 1).toOption, ∃ t ∈ s.tick.toOption,
        t.get "r" = 2 := by
      decide +kernel
    obtain ⟨s, hs, t, ht, hr⟩ := hrun
    have hreaches : Simulator.Reaches m s := .set .start (eq_ok_of_mem_toOption hs)
    obtain ⟨settled, hsettled, halone⟩ := hedges s t hreaches (eq_ok_of_mem_toOption ht)
    obtain ⟨alone, heffect, hbits⟩ := halone marks List.mem_cons_self
    have hfree : ∀ a ∈ m.circuit.assigns, ∀ r ∈ a.target.regions m.circuit.widths.width,
        r.name ≠ "r" := by
      decide +kernel
    refine ⟨s, t, settled, alone, hreaches, eq_ok_of_mem_toOption ht, hr, hsettled, heffect,
      fun i => ?_⟩
    refine hbits "r" (by decide +kernel) i ?_
    rintro a ha ⟨r, hr, hcovers⟩
    exact hfree a ha r hr hcovers.1

/--
Processes that assign different signals are not enough. Where one of them
assigns the position at which the other one writes, the position is read before
or after that, as the processes stand.
-/
theorem position_read_after_edge :
    let regs : Item := .declarations [.reg 1 "i", .reg 2 "r"]
    let moves : List Statement := [.nonblocking (.ident "i") (.bit true)]
    let marks : List Statement := [.nonblocking (.index "r" (.ident "i")) (.bit true)]
    let m : Module := ⟨"u", [.input 1 "clk"], [regs, .clocked moves, .clocked marks]⟩
    let m' : Module := { m with items := [regs, .clocked marks, .clocked moves] }
    (∀ name ∈ Statement.assignedAll moves, name ∉ Statement.assignedAll marks) ∧
      m.circuit.assigns = [] ∧
      m.items.Perm m'.items ∧ m'.circuit.widths = m.circuit.widths ∧
      ∃ t t', (Simulator.start m).tick = .ok t ∧ (Simulator.start m').tick = .ok t' ∧
        t.get "r" = 2 ∧ t'.get "r" = 1 := by
  intro regs moves marks m m'
  have hrun : ∃ t ∈ (Simulator.start m).tick.toOption, ∃ t' ∈ (Simulator.start m').tick.toOption,
      t.get "r" = 2 ∧ t'.get "r" = 1 := by
    decide +kernel
  obtain ⟨t, ht, t', ht', hvalues⟩ := hrun
  refine ⟨by decide +kernel, rfl, (List.Perm.swap _ _ _).cons _, rfl, t, t', ?_⟩
  exact ⟨eq_ok_of_mem_toOption ht, eq_ok_of_mem_toOption ht', hvalues⟩

end Handshake
