import Mathlib.Data.List.Perm.Basic
import Handshake.Proofs.Hosting

/-!
# What a process does by itself

At a clock edge the processes run on the settled values, and then all that they
have scheduled is written, in order. Tests and values are evaluated while the
processes run, but the positions in a target only when it is written. So what is
written for one process may depend on what has been written for another before,
if a position is computed from a signal that the other one assigns.

Call two processes *apart* if neither assigns a signal that occurs in a target
of the other. If all processes are apart, each of them does to the signals that
it assigns what it would do alone (`commit_alone`), and if each goes through
alone, then all do together (`commit_of_alone`). Neither speaks of an order, so
the order of the processes does not matter (`effect_perm`).
-/

namespace Handshake

namespace Statement

/-! ## What a process speaks of on the left -/

mutual
/--
The names that occur in the targets of a statement: those it may assign, and
those in its positions.
-/
def targeted : Statement → List String
  | .branch _ onTrue onFalse => targetedAll onTrue ++ targetedAll onFalse
  | .nonblocking target _ => target.names
/-- The names that occur in the targets of some statements. -/
def targetedAll : List Statement → List String
  | [] => []
  | s :: rest => targeted s ++ targetedAll rest
end

mutual
theorem assigned_subset_targeted : ∀ {s : Statement}, ∀ name ∈ s.assigned, name ∈ s.targeted
  | .branch _ _ _, name, h => by
      simp only [assigned, targeted, List.mem_append] at h ⊢
      exact h.imp (assignedAll_subset_targeted name) (assignedAll_subset_targeted name)
  | .nonblocking target _, name, h => Expr.reads_subset_names target name h
theorem assignedAll_subset_targeted :
    ∀ {ss : List Statement}, ∀ name ∈ assignedAll ss, name ∈ targetedAll ss
  | [], _, h => h
  | _ :: _, name, h => by
      simp only [assignedAll, targetedAll, List.mem_append] at h ⊢
      exact h.imp (assigned_subset_targeted name) (assignedAll_subset_targeted name)
end

/--
Neither of two processes assigns a signal that occurs in a target of the other,
be it that the other one assigns it too or that it computes a position from it.
-/
def Apart (p q : List Statement) : Prop :=
  (∀ name ∈ assignedAll p, name ∉ targetedAll q) ∧ ∀ name ∈ assignedAll q, name ∉ targetedAll p

theorem Apart.symm {p q : List Statement} (h : Apart p q) : Apart q p := ⟨h.2, h.1⟩

end Statement

namespace Circuit

open Statement

variable {c : Circuit} {u v w : Valuation}

/-- Runs statements on some values and writes what they schedule. -/
def effect (c : Circuit) (values : Valuation) (ss : List Statement) : Except Fault Valuation := do
  let pending ← c.scheduleAll values ss
  c.commit values pending

/-! ## Scheduling -/

mutual
theorem schedule_congr (h : v.get = w.get) : ∀ s : Statement, c.schedule v s = c.schedule w s
  | .branch test onTrue onFalse => by
      have htest : test.eval c.widths v = test.eval c.widths w :=
        Expr.eval_congr fun n _ => congrFun h n
      simp only [schedule, htest, scheduleAll_congr h onTrue, scheduleAll_congr h onFalse]
  | .nonblocking target value => by
      have hvalue : value.eval c.widths v = value.eval c.widths w :=
        Expr.eval_congr fun n _ => congrFun h n
      simp only [schedule, hvalue]
theorem scheduleAll_congr (h : v.get = w.get) :
    ∀ ss : List Statement, c.scheduleAll v ss = c.scheduleAll w ss
  | [] => rfl
  | s :: rest => by simp only [scheduleAll, schedule_congr h s, scheduleAll_congr h rest]
end

/-- What is scheduled by one list of statements and then by another. -/
theorem scheduleAll_append_of {ss ts : List Statement} {first later : List (Expr × Word)}
    (hfirst : c.scheduleAll v ss = .ok first) (hlater : c.scheduleAll v ts = .ok later) :
    c.scheduleAll v (ss ++ ts) = .ok (first ++ later) := by
  induction ss generalizing first with
  | nil =>
      cases hfirst
      exact hlater
  | cons s rest ih =>
      obtain ⟨head, hhead, hfirst⟩ := bind_ok hfirst
      obtain ⟨tail, htail, hfirst⟩ := bind_ok hfirst
      cases hfirst
      rw [List.append_assoc]
      exact bind_ok_of hhead (bind_ok_of (ih htail) rfl)

mutual
/-- What is scheduled goes to targets of the statement. -/
theorem schedule_targeted :
    ∀ {s : Statement} {pending : List (Expr × Word)}, c.schedule v s = .ok pending →
    ∀ p ∈ pending, ∀ name ∈ p.1.names, name ∈ s.targeted
  | .branch test onTrue onFalse, pending, h, p, hp, name, hname => by
      obtain ⟨bits, -, h⟩ := bind_ok h
      split at h
      · exact List.mem_append_right _ (scheduleAll_targeted h p hp name hname)
      · exact List.mem_append_left _ (scheduleAll_targeted h p hp name hname)
  | .nonblocking target value, pending, h, p, hp, name, hname => by
      obtain ⟨bits, -, h⟩ := bind_ok h
      cases h
      cases List.mem_singleton.mp hp
      exact hname
theorem scheduleAll_targeted : ∀ {ss : List Statement} {pending : List (Expr × Word)},
    c.scheduleAll v ss = .ok pending → ∀ p ∈ pending, ∀ name ∈ p.1.names, name ∈ targetedAll ss
  | [], pending, h, p, hp, _, _ => by
      cases h
      exact absurd hp List.not_mem_nil
  | s :: rest, pending, h, p, hp, name, hname => by
      obtain ⟨first, hfirst, h⟩ := bind_ok h
      obtain ⟨later, hlater, h⟩ := bind_ok h
      cases h
      rcases List.mem_append.mp hp with hp | hp
      · exact List.mem_append_left _ (schedule_targeted hfirst p hp name hname)
      · exact List.mem_append_right _ (scheduleAll_targeted hlater p hp name hname)
end

/-! ## Writing -/

/--
Scheduled writes do the same wherever the names that occur in their targets have
the same values.
-/
theorem commit_local {P : String → Prop} {pending : List (Expr × Word)}
    (hnames : ∀ p ∈ pending, ∀ n ∈ p.1.names, P n) {v' : Valuation}
    (hagree : ∀ n, P n → w.get n = v.get n) (h : c.commit v pending = .ok v') :
    ∃ w', c.commit w pending = .ok w' ∧ ∀ n, P n → w'.get n = v'.get n := by
  induction pending generalizing v w with
  | nil =>
      cases h
      exact ⟨w, rfl, hagree⟩
  | cons p rest ih =>
      obtain ⟨hfirst, hlater⟩ := List.forall_mem_cons.mp hnames
      rw [commit, List.foldlM_cons] at h
      obtain ⟨x, hx, h⟩ := bind_ok h
      obtain ⟨y, hy, hsame⟩ := Expr.write_local hagree hfirst hx
      obtain ⟨w', hw', hsame'⟩ := ih hlater hsame h
      refine ⟨w', ?_, hsame'⟩
      rw [commit, List.foldlM_cons]
      exact bind_ok_of hy hw'

theorem commit_append (first later : List (Expr × Word)) :
    c.commit v (first ++ later) = c.commit v first >>= fun x => c.commit x later := by
  rw [commit, List.foldlM_append]
  rfl

/-! ## Processes together and alone -/

/--
The writes of all processes, made from values that differ from those before the
edge at most where none of the targets looks: each process has done to the
signals that it assigns what it would do alone.
-/
theorem commit_alone {processes : List (List Statement)} (hapart : processes.Pairwise Apart)
    {pending : List (Expr × Word)} (hpending : c.scheduleAll v processes.flatten = .ok pending)
    (hu : ∀ p ∈ processes, ∀ name ∈ targetedAll p, u.get name = v.get name)
    (hw : c.commit u pending = .ok w) :
    ∀ p ∈ processes, ∃ alone, c.effect v p = .ok alone ∧
      ∀ name ∈ assignedAll p, w.get name = alone.get name := by
  induction processes generalizing u pending with
  | nil => exact fun p hp => absurd hp List.not_mem_nil
  | cons p rest ih =>
      obtain ⟨hp, hrest⟩ := List.pairwise_cons.mp hapart
      obtain ⟨hup, hurest⟩ := List.forall_mem_cons.mp hu
      rw [List.flatten_cons] at hpending
      obtain ⟨first, later, hfirst, hlater, rfl⟩ := scheduleAll_append hpending
      rw [commit_append] at hw
      obtain ⟨x, hx, hw⟩ := bind_ok hw
      refine List.forall_mem_cons.mpr ⟨?_, ih hrest hlater (fun q hq name hname => ?_) hw⟩
      · obtain ⟨alone, halone, hsame⟩ := commit_local (P := (· ∈ targetedAll p)) (w := v)
          (scheduleAll_targeted hfirst) (fun n hn => (hup n hn).symm) hx
        refine ⟨alone, bind_ok_of hfirst halone, fun name hname => ?_⟩
        have htarget := assignedAll_subset_targeted name hname
        -- the later processes leave alone what this one has assigned
        have hkept : name ∉ assignedAll rest.flatten := by
          intro hmem
          obtain ⟨q, hq, hmem⟩ := mem_assignedAll_flatten hmem
          exact (hp q hq).2 name hmem htarget
        rw [commit_frame hlater hw hkept, hsame name htarget]
      · -- and this one leaves alone what the targets of the later ones look at
        have hkept : name ∉ assignedAll p := fun hmem => (hp q hq).1 name hmem hname
        rw [commit_frame hfirst hx hkept, hurest q hq name hname]

/-- If each process goes through alone, then so do all of them together. -/
theorem commit_of_alone {processes : List (List Statement)} (hapart : processes.Pairwise Apart)
    (halone : ∀ p ∈ processes, ∃ alone, c.effect v p = .ok alone)
    (hu : ∀ p ∈ processes, ∀ name ∈ targetedAll p, u.get name = v.get name) :
    ∃ pending w, c.scheduleAll v processes.flatten = .ok pending ∧ c.commit u pending = .ok w := by
  induction processes generalizing u with
  | nil => exact ⟨[], u, rfl, rfl⟩
  | cons p rest ih =>
      obtain ⟨hp, hrest⟩ := List.pairwise_cons.mp hapart
      obtain ⟨⟨alone, hfirst⟩, hlater⟩ := List.forall_mem_cons.mp halone
      obtain ⟨hup, hurest⟩ := List.forall_mem_cons.mp hu
      obtain ⟨first, hfirst, hcommit⟩ := bind_ok hfirst
      obtain ⟨x, hx, -⟩ := commit_local (P := (· ∈ targetedAll p)) (w := u)
        (scheduleAll_targeted hfirst) hup hcommit
      obtain ⟨later, w, hpending, hw⟩ := ih hrest hlater (u := x) fun q hq name hname => by
        have hkept : name ∉ assignedAll p := fun hmem => (hp q hq).1 name hmem hname
        rw [commit_frame hfirst hx hkept, hurest q hq name hname]
      refine ⟨first ++ later, w, scheduleAll_append_of hfirst hpending, ?_⟩
      rw [commit_append]
      exact bind_ok_of hx hw

theorem effect_frame {ss : List Statement} (h : c.effect v ss = .ok w) {name : String}
    (hname : name ∉ assignedAll ss) : w.get name = v.get name := by
  obtain ⟨pending, hpending, h⟩ := bind_ok h
  exact commit_frame hpending h hname

theorem effect_tidy {ss : List Statement} (h : c.effect v ss = .ok w) (hv : v.Tidy c.widths) :
    w.Tidy c.widths := by
  obtain ⟨pending, -, h⟩ := bind_ok h
  exact (commit_stores h).tidy hv

theorem effect_alone {processes : List (List Statement)} (hapart : processes.Pairwise Apart)
    (h : c.effect v processes.flatten = .ok w) :
    ∀ p ∈ processes, ∃ alone, c.effect v p = .ok alone ∧
      ∀ name ∈ assignedAll p, w.get name = alone.get name := by
  obtain ⟨pending, hpending, h⟩ := bind_ok h
  exact commit_alone hapart hpending (fun _ _ _ _ => rfl) h

/-- Processes do the same to values that are stored in another order. -/
theorem effect_congr {ss : List Statement} {v' : Valuation} (hsame : v'.get = v.get)
    (h : c.effect v ss = .ok w) : ∃ w', c.effect v' ss = .ok w' ∧ w'.get = w.get := by
  obtain ⟨pending, hpending, h⟩ := bind_ok h
  rw [scheduleAll_congr hsame.symm] at hpending
  obtain ⟨w', hw', hsame'⟩ := commit_local (P := fun _ => True) (w := v') (fun _ _ _ _ => trivial)
    (fun n _ => congrFun hsame n) h
  exact ⟨w', bind_ok_of hpending hw', funext fun n => hsame' n trivial⟩

/-- **The order of processes that are apart does not matter.** -/
theorem effect_perm {processes processes' : List (List Statement)}
    (hperm : processes'.Perm processes) (hapart : processes.Pairwise Apart)
    (h : c.effect v processes.flatten = .ok w) :
    ∃ w', c.effect v processes'.flatten = .ok w' ∧ w'.get = w.get := by
  have hapart' : processes'.Pairwise Apart := (hperm.pairwise_iff fun hpq => hpq.symm).mpr hapart
  have halone := effect_alone hapart h
  obtain ⟨pending, w', hpending, hcommit⟩ := commit_of_alone (c := c) (u := v) hapart'
    (fun p hp => (halone p (hperm.mem_iff.mp hp)).imp fun _ hp => hp.1) fun _ _ _ _ => rfl
  have h' : c.effect v processes'.flatten = .ok w' := bind_ok_of hpending hcommit
  refine ⟨w', h', funext fun name => ?_⟩
  by_cases hname : ∃ p ∈ processes, name ∈ assignedAll p
  · -- one process assigns the signal, and does the same in both orders
    obtain ⟨p, hp, hname⟩ := hname
    obtain ⟨alone, hp₁, hsame⟩ := halone p hp
    obtain ⟨alone', hp₂, hsame'⟩ := effect_alone hapart' h' p (hperm.mem_iff.mpr hp)
    obtain rfl : alone = alone' := Except.ok.inj (hp₁.symm.trans hp₂)
    rw [hsame name hname, hsame' name hname]
  · rw [effect_frame h fun hmem => hname (mem_assignedAll_flatten hmem),
      effect_frame h' fun hmem => ?_]
    obtain ⟨p, hp, hmem⟩ := mem_assignedAll_flatten hmem
    exact hname ⟨p, hperm.mem_iff.mp hp, hmem⟩

end Circuit

end Handshake
