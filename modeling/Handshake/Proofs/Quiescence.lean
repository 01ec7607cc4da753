import Mathlib.Data.List.Induction
import Handshake.Proofs.Locality
import Handshake.Proofs.Settling

/-!
# Quiet passes

Settling ends with a pass over the assigns that changes nothing, in any circuit:
nothing is asked of the assigns here, they may drive the same bits, or be
written to positions that are computed. In a state that such a pass leaves
alone, an assign holds if none after it drives its bits and if each name that it
reads is written on one side of it only. Simulators come to such states by
settling and by ticking, whatever was done with them before.

A quiet pass may still write: values can change in the course of it, as long as
they are back at the end. So what an assign reads need not be what is there when
the pass is over, and `stable_of_quiet` and `steady_of_quiet` give two reasons
why it is.
-/

namespace Handshake

/-- An assign that leaves the bits of a region alone. -/
def Assign.Spares (widths : Widths) (r : Region) (b : Assign) : Prop :=
  r.name ∉ b.target.reads ∨
    b.target.IsRange ∧ ∀ s ∈ b.target.regions widths.width, r.Apart s

namespace Circuit

variable {c : Circuit} {v w : Valuation}

/-! ## What is written -/

theorem commit_stores {pending : List (Expr × Word)} (h : c.commit v pending = .ok w) :
    Stores c.widths (pending.flatMap fun p => p.1.reads) v w := by
  unfold commit at h
  induction pending generalizing v with
  | nil =>
      cases h
      exact .refl _
  | cons p rest ih =>
      rw [List.foldlM_cons] at h
      obtain ⟨u, hu, h⟩ := bind_ok h
      exact ((Expr.write_stores hu).1.mono fun _ => List.mem_append_left _).trans
        ((ih h).mono fun _ => List.mem_append_right _)

/-- A clock edge settles, schedules, writes what was scheduled, and settles. -/
theorem tick_eq (h : c.tick v = .ok w) :
    ∃ settled pending written, c.settle v = .ok settled ∧ c.scheduled settled = .ok pending ∧
      c.commit settled pending = .ok written ∧ c.settle written = .ok w := by
  obtain ⟨settled, hsettled, h⟩ := bind_ok h
  obtain ⟨pending, hpending, h⟩ := bind_ok h
  obtain ⟨written, hwritten, h⟩ := bind_ok h
  exact ⟨settled, pending, written, hsettled, hpending, hwritten, h⟩

theorem tick_tidy (h : c.tick v = .ok w) (hv : v.Tidy c.widths) : w.Tidy c.widths := by
  obtain ⟨settled, pending, written, hsettled, -, hwritten, h⟩ := tick_eq h
  have hsettled' := (settle_quiet hsettled).2.tidy hv
  exact (settle_quiet h).2.tidy ((commit_stores hwritten).tidy hsettled')

theorem set_stores {name : String} {value : Word} (h : c.set v name value = .ok w) :
    Stores c.widths [name] v w := by
  obtain ⟨width, hwidth, h⟩ := bind_ok h
  obtain ⟨hdeclared, rfl⟩ := Widths.get_ok hwidth
  cases h
  exact .put name value List.mem_cons_self hdeclared (.refl v)

/-! ## What holds -/

theorem fold_spares {after : List Assign} {r : Region} (hspares : ∀ b ∈ after, b.Spares c.widths r)
    (hv : v.Tidy c.widths) (h : after.foldlM c.assign v = .ok w) {j : Nat} (hj : j < r.length) :
    (w.get r.name).getLsbD (r.lo + j) = (v.get r.name).getLsbD (r.lo + j) := by
  induction after generalizing v with
  | nil =>
      cases h
      rfl
  | cons b rest ih =>
      rw [List.foldlM_cons] at h
      obtain ⟨u, hu, h⟩ := bind_ok h
      rw [ih (fun d hd => hspares d (List.mem_cons_of_mem _ hd)) ((assign_stores hu).1.tidy hv) h]
      rcases hspares b List.mem_cons_self with hname | ⟨hrange, hapart⟩
      · rw [(assign_stores hu).1.frame hname]
      · have hcovers : r.Covers r.name (r.lo + j) := ⟨rfl, by omega, by omega⟩
        refine assign_frame hrange hv hu ?_
        rintro ⟨s, hs, hcovered⟩
        exact (hapart s hs).not_covers hcovers hcovered

/--
**An assign holds in a quiet state,** if it reads what is there in the end and
those after it leave its bits alone.
-/
theorem holds_of_quiet {before after : List Assign} {a : Assign}
    (hassigns : c.assigns = before ++ a :: after) (hv : v.Tidy c.widths) (hpass : c.pass v = .ok v)
    (hvalue : a.value.Typed c.widths) (htarget : a.target.IsTarget c.widths)
    (hbound : ∀ name ∈ a.target.reads, c.widths.width name ≤ wordBits)
    (hapart : (a.target.regions c.widths.width).Pairwise Region.Apart)
    (hreads : ∀ u, before.foldlM c.assign v = .ok u →
      ∀ name ∈ a.value.reads, u.get name = v.get name)
    (hspares : ∀ r ∈ a.target.regions c.widths.width, ∀ b ∈ after, b.Spares c.widths r) :
    a.Holds c.widths.width v.get := by
  rw [pass, hassigns, List.foldlM_append] at hpass
  obtain ⟨u, hu, hlater⟩ := bind_ok hpass
  have hsame : a.value.value c.widths.width u.get = a.value.value c.widths.width v.get :=
    Expr.value_congr (hreads u hu)
  rw [List.foldlM_cons] at hlater
  obtain ⟨w, hw, hrest⟩ := bind_ok hlater
  obtain ⟨w', hw', hwrites⟩ :=
    Expr.write_ok ((fold_stores hu).1.tidy hv) (a.value.value c.widths.width u.get) htarget hbound
  rw [assign, Expr.eval_eq u hvalue, ok_bind] at hw
  obtain rfl : w' = w := Except.ok.inj (hw'.symm.trans hw)
  rw [hsame] at hwrites
  exact Spread.congr (fun r hr j hj => fold_spares (hspares r hr) hwrites.tidy hrest hj)
    (fun _ _ => rfl) (hwrites.spread hapart)

/-- A name that is not written from some point of a quiet pass on has its value there already. -/
theorem stable_of_quiet {before after : List Assign} (hassigns : c.assigns = before ++ after)
    (hpass : c.pass v = .ok v) {name : String} (hname : name ∉ Assign.written after) {u : Valuation}
    (hu : before.foldlM c.assign v = .ok u) : u.get name = v.get name := by
  rw [pass, hassigns, List.foldlM_append, hu, ok_bind] at hpass
  exact ((fold_stores hpass).1.frame hname).symm

/--
Names whose bits have one driver each keep their values all through a quiet
pass: a driver writes what is there at the end of the pass, and that is what was
there at its beginning.
-/
theorem steady_of_quiet {P : String → Prop} (hv : v.Tidy c.widths) (hpass : c.pass v = .ok v)
    (hclear : c.assigns.Pairwise fun a b => ∀ r ∈ a.target.regions c.widths.width, P r.name →
      b.Spares c.widths r)
    (hclean : ∀ a ∈ c.assigns, (∀ name ∈ a.target.reads, ¬ P name) ∨ a.target.IsRange)
    {before : List Assign} : ∀ {after : List Assign}, c.assigns = before ++ after →
      ∀ {u : Valuation},
      before.foldlM c.assign v = .ok u → ∀ name, P name → u.get name = v.get name := by
  induction before using List.reverseRecOn with
  | nil =>
      intro after _ u hu name _
      cases hu
      rfl
  | append_singleton before a ih =>
      intro after hassigns u hu name hname
      rw [List.append_assoc, List.singleton_append] at hassigns
      rw [List.foldlM_append] at hu
      obtain ⟨x, hx, hu⟩ := bind_ok hu
      rw [List.foldlM_cons] at hu
      obtain ⟨u', hu, hnil⟩ := bind_ok hu
      cases hnil
      have hsame := ih hassigns hx
      have hrest : after.foldlM c.assign u = .ok v := by
        rw [pass, hassigns, List.foldlM_append, hx, ok_bind, List.foldlM_cons, hu, ok_bind] at hpass
        exact hpass
      have htidy : x.Tidy c.widths := (fold_stores hx).1.tidy hv
      -- the driver writes no such name, or it writes parts that later drivers leave alone
      rcases hclean a (hassigns ▸ List.mem_append_right _ List.mem_cons_self) with hout | hrange
      · rw [(assign_stores hu).1.frame fun hmem => hout name hmem hname]
        exact hsame name hname
      · have hspares : ∀ r ∈ a.target.regions c.widths.width, P r.name →
            ∀ b ∈ after, b.Spares c.widths r := by
          intro r hr hP b hb
          rw [hassigns] at hclear
          exact (List.pairwise_cons.mp (List.pairwise_append.mp hclear).2.1).1 b hb r hr hP
        have hutidy : u.Tidy c.widths := (assign_stores hu).1.tidy htidy
        refine BitVec.eq_of_getLsbD_eq fun i _ => ?_
        by_cases hcovered : a.Drives c.widths.width name i
        · obtain ⟨r, hr, rfl, hlo, hhi⟩ := hcovered
          -- a bit that was written stays until the end of the pass, where it is what it was
          have hkept :=
            fold_spares (hspares r hr hname) hutidy hrest (show i - r.lo < r.length by omega)
          rw [Nat.add_sub_cancel' hlo] at hkept
          exact hkept.symm
        · rw [assign_frame hrange htidy hu hcovered, hsame name hname]

end Circuit

/-! ## Simulators -/

namespace Simulator

/--
The simulators that a module's simulator may become, by driving any signals,
settling and ticking.
-/
inductive Reaches (m : Module) : Simulator → Prop where
  | start : Reaches m (.start m)
  | set {s t : Simulator} {name : String} {value : Word} : Reaches m s → s.set name value = .ok t →
      Reaches m t
  | settle {s t : Simulator} : Reaches m s → s.settle = .ok t → Reaches m t
  | tick {s t : Simulator} : Reaches m s → s.tick = .ok t → Reaches m t

variable {m : Module} {s t : Simulator}

theorem map_withValues {x : Except Fault Valuation} (h : x.map s.withValues = .ok t) :
    x = .ok t.values ∧ t.circuit = s.circuit := by
  cases x with
  | error fault => exact absurd h (by simp [Except.map])
  | ok v =>
      cases h
      exact ⟨rfl, rfl⟩

theorem Reaches.tidy (h : Reaches m s) :
    s.circuit = m.circuit ∧ s.values.Tidy m.circuit.widths := by
  induction h with
  | start => exact ⟨rfl, Valuation.tidy_zero _⟩
  | set _ h ih =>
      obtain ⟨hset, hcircuit⟩ := map_withValues h
      obtain ⟨hs, htidy⟩ := ih
      rw [hs] at hset
      exact ⟨hcircuit.trans hs, (Circuit.set_stores hset).tidy htidy⟩
  | settle _ h ih =>
      obtain ⟨hsettle, hcircuit⟩ := map_withValues h
      obtain ⟨hs, htidy⟩ := ih
      rw [hs] at hsettle
      exact ⟨hcircuit.trans hs, (Circuit.settle_quiet hsettle).2.tidy htidy⟩
  | tick _ h ih =>
      obtain ⟨htick, hcircuit⟩ := map_withValues h
      obtain ⟨hs, htidy⟩ := ih
      rw [hs] at htick
      exact ⟨hcircuit.trans hs, Circuit.tick_tidy htick htidy⟩

/-- After settling and after ticking, a pass changes nothing. -/
theorem Reaches.quiet (h : Reaches m s) (ht : s.settle = .ok t ∨ s.tick = .ok t) :
    t.values.Tidy m.circuit.widths ∧ m.circuit.pass t.values = .ok t.values := by
  have hs := h.tidy.1
  rcases ht with ht | ht
  · obtain ⟨hsettle, -⟩ := map_withValues ht
    rw [hs] at hsettle
    exact ⟨(h.settle ht).tidy.2, (Circuit.settle_quiet hsettle).1⟩
  · obtain ⟨htick, -⟩ := map_withValues ht
    rw [hs] at htick
    obtain ⟨_, _, _, -, -, -, hsettle⟩ := Circuit.tick_eq htick
    exact ⟨(h.tick ht).tidy.2, (Circuit.settle_quiet hsettle).1⟩

end Simulator

end Handshake
