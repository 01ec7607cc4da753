import Handshake.Proofs.Settling

/-!
# What a clock edge does

A process schedules values for registers; they are written when all processes
have run. So the value that a register takes depends on the state before the
edge only. `Statement.next` says what it is: the value of the last assignment to
the register that is reached, or the old one if none is.

If every register is assigned by one process, a clock edge in a settled state
gives it what that process says, and leads to a settled state again
(`Clocked.tick_settles`).

Between the two stand the values that wait to be written, a list of targets and
values. `latest` looks up the last one for a register; what statements schedule
and what committing writes are both described by it, and meet there.
-/

namespace Handshake

namespace Statement

section

variable (width : String → Nat) (state : State) (name : String)

mutual
/-- The value of a register after a statement, if it would be `old` before it. -/
def next (old : Word) : Statement → Word
  | .branch test onTrue onFalse =>
    if test.value width state = 0 then nextAll old onFalse else nextAll old onTrue
  | .nonblocking target value =>
      if target = .ident name then (value.value width state).low (width name) else old
/-- The value of a register after some statements. -/
def nextAll (old : Word) : List Statement → Word
  | [] => old
  | s :: rest => nextAll (next old s) rest
end

end

mutual
/-- The registers that a statement may assign. -/
def assigned : Statement → List String
  | .branch _ onTrue onFalse => assignedAll onTrue ++ assignedAll onFalse
  | .nonblocking target _ => target.reads
/-- The registers that statements may assign. -/
def assignedAll : List Statement → List String
  | [] => []
  | s :: rest => assigned s ++ assignedAll rest
end

mutual
/--
A statement that can be run: expressions can be evaluated, and whole declared
signals are assigned.
-/
def Typed (widths : Widths) : Statement → Prop
  | .branch test onTrue onFalse => test.Typed widths ∧ TypedAll widths onTrue ∧
      TypedAll widths onFalse
  | .nonblocking target value => (∃ name, target = .ident name ∧ widths.Declares name) ∧
      value.Typed widths
/-- Statements that can be run. -/
def TypedAll (widths : Widths) : List Statement → Prop
  | [] => True
  | s :: rest => Typed widths s ∧ TypedAll widths rest
end

theorem assignedAll_eq (ss : List Statement) : assignedAll ss = ss.flatMap assigned := by
  induction ss with
  | nil => rfl
  | cons s rest ih => rw [assignedAll, ih, List.flatMap_cons]

theorem typedAll_iff {widths : Widths} {ss : List Statement} :
    TypedAll widths ss ↔ ∀ s ∈ ss, s.Typed widths := by
  induction ss with
  | nil => simp [TypedAll]
  | cons s rest ih => rw [TypedAll, ih, List.forall_mem_cons]

variable {width : String → Nat} {state : State} {name : String}

/-- Statements one after the other: the later ones have the last word. -/
theorem nextAll_append (old : Word) (ss ts : List Statement) :
    nextAll width state name old (ss ++ ts) =
      nextAll width state name (nextAll width state name old ss) ts := by
  induction ss generalizing old with
  | nil => rfl
  | cons s rest ih => simp only [List.cons_append, nextAll, ih]

mutual
/-- A register that a statement does not assign keeps its value. -/
theorem next_of_not_assigned :
    ∀ {s : Statement}, name ∉ s.assigned → ∀ old, s.next width state name old = old
  | .branch test onTrue onFalse, h, old => by
      simp only [assigned, List.mem_append, not_or] at h
      simp only [next]
      split
      · exact nextAll_of_not_assigned h.2 old
      · exact nextAll_of_not_assigned h.1 old
  | .nonblocking target value, h, old => by
      refine if_neg fun heq => h ?_
      rw [assigned, heq]
      exact List.mem_singleton_self name
theorem nextAll_of_not_assigned : ∀ {ss : List Statement}, name ∉ assignedAll ss →
    ∀ old, nextAll width state name old ss = old
  | [], _, _ => rfl
  | s :: rest, h, old => by
      simp only [assignedAll, List.mem_append, not_or] at h
      rw [nextAll, next_of_not_assigned h.1, nextAll_of_not_assigned h.2]
end

theorem mem_assignedAll_flatten {processes : List (List Statement)}
    (h : name ∈ assignedAll processes.flatten) : ∃ p ∈ processes, name ∈ assignedAll p := by
  rw [assignedAll_eq] at h
  obtain ⟨s, hs, hname⟩ := List.mem_flatMap.mp h
  obtain ⟨p, hp, hs⟩ := List.mem_flatten.mp hs
  refine ⟨p, hp, ?_⟩
  rw [assignedAll_eq]
  exact List.mem_flatMap.mpr ⟨s, hs, hname⟩

/--
Of processes that assign different registers, the one that assigns a register
decides its value.
-/
theorem nextAll_flatten {processes : List (List Statement)}
    (hapart : processes.Pairwise fun p q => ∀ name ∈ assignedAll p, name ∉ assignedAll q)
    {p : List Statement} (hp : p ∈ processes) (hname : name ∈ assignedAll p) (old : Word) :
    nextAll width state name old processes.flatten = nextAll width state name old p := by
  induction processes with
  | nil => simp at hp
  | cons q rest ih =>
      obtain ⟨hq, hrest⟩ := List.pairwise_cons.mp hapart
      rw [List.flatten_cons, nextAll_append]
      -- neither the processes before it nor those after it touch the register
      rcases List.mem_cons.mp hp with rfl | hp
      · refine nextAll_of_not_assigned (fun hlater => ?_) _
        obtain ⟨p', hp', hname'⟩ := mem_assignedAll_flatten hlater
        exact hq p' hp' name hname hname'
      · rw [nextAll_of_not_assigned fun hq' => hq p hp name hq' hname, ih hrest hp]

section

variable {f : String → String}

mutual
/-- Renaming a statement renames what it assigns. -/
theorem assigned_renamed : ∀ s : Statement, (s.renamed f).assigned = s.assigned.map f
  | .branch _ onTrue onFalse => by
      simp [renamed, assigned, assignedAll_renamed onTrue, assignedAll_renamed onFalse]
  | .nonblocking target _ => Expr.reads_renamed target
theorem assignedAll_renamed :
    ∀ ss : List Statement, assignedAll (renamedAll f ss) = (assignedAll ss).map f
  | [] => rfl
  | s :: rest => by simp [renamedAll, assignedAll, assigned_renamed s, assignedAll_renamed rest]
end

mutual
theorem typed_renamed {inner outer : Widths} (hf : inner.Embeds f outer) : ∀ {s : Statement},
    s.Typed inner → (s.renamed f).Typed outer
  | .branch _ _ _, ⟨htest, hTrue, hFalse⟩ =>
      ⟨Expr.typed_renamed hf htest, typedAll_renamed hf hTrue, typedAll_renamed hf hFalse⟩
  | .nonblocking _ _, ⟨⟨name, htarget, hname⟩, hvalue⟩ =>
      ⟨⟨f name, by rw [htarget, Expr.renamed], (hf name hname).1⟩, Expr.typed_renamed hf hvalue⟩
theorem typedAll_renamed {inner outer : Widths} (hf : inner.Embeds f outer) :
    ∀ {ss : List Statement},
    TypedAll inner ss → TypedAll outer (renamedAll f ss)
  | [], _ => trivial
  | _ :: _, ⟨hs, hrest⟩ => ⟨typed_renamed hf hs, typedAll_renamed hf hrest⟩
end

mutual
/-- Renamed processes do to renamed registers what the processes do to the registers. -/
theorem next_renamed {inner outer : Widths} (hf : inner.Embeds f outer)
    (hinj : Function.Injective f) :
    ∀ {s : Statement}, s.Typed inner → ∀ old,
      (s.renamed f).next outer.width state (f name) old = s.next inner.width (state ∘ f) name old
  | .branch test onTrue onFalse, ⟨htest, hTrue, hFalse⟩, old => by
      simp only [renamed, next]
      rw [Expr.value_renamed (Expr.reads_embed hf htest), nextAll_renamed hf hinj hTrue,
        nextAll_renamed hf hinj hFalse]
  | .nonblocking target value, ⟨⟨register, htarget, hregister⟩, hvalue⟩, old => by
      subst htarget
      -- renaming is injective, so the register is hit exactly when it was hit before
      simp only [renamed, Expr.renamed, next, Expr.ident.injEq, hinj.eq_iff]
      split
      · rename_i heq
        rw [Expr.value_renamed (Expr.reads_embed hf hvalue), ← heq, (hf register hregister).2]
      · rfl
theorem nextAll_renamed {inner outer : Widths} (hf : inner.Embeds f outer)
    (hinj : Function.Injective f) :
    ∀ {ss : List Statement}, TypedAll inner ss → ∀ old,
      nextAll outer.width state (f name) old (renamedAll f ss) =
        nextAll inner.width (state ∘ f) name old ss
  | [], _, _ => rfl
  | _ :: _, ⟨hs, hrest⟩, old => by
      rw [renamedAll, nextAll, nextAll, next_renamed hf hinj hs, nextAll_renamed hf hinj hrest]
end

end

end Statement

/-! ## Scheduling and writing -/

/-- The value of a register after scheduled writes, if it is `old` before them. -/
def latest (width : String → Nat) (name : String) (old : Word)
    (pending : List (Expr × Word)) : Word :=
  pending.foldl (fun old p => if p.1 = .ident name then p.2.low (width name) else old) old

namespace Circuit

variable {c : Circuit}

mutual
/--
A typed statement schedules writes to declared registers, and the last one to
each register is what `next` says.
-/
theorem schedule_ok (v : Valuation) : ∀ {s : Statement}, s.Typed c.widths →
    ∃ pending, c.schedule v s = .ok pending ∧
      (∀ p ∈ pending, ∃ name, p.1 = .ident name ∧ c.widths.Declares name) ∧
      ∀ name old, latest c.widths.width name old pending = s.next c.widths.width v.get name old
  | .branch test onTrue onFalse, ⟨htest, hTrue, hFalse⟩ => by
      simp only [schedule, Expr.eval_eq v htest, ok_bind, Statement.next]
      split
      · exact scheduleAll_ok v hFalse
      · exact scheduleAll_ok v hTrue
  | .nonblocking target value, ⟨⟨name, htarget, hname⟩, hvalue⟩ => by
      refine ⟨[(target, value.value c.widths.width v.get)], ?_, ?_, fun _ _ => rfl⟩
      · simp [schedule, Expr.eval_eq v hvalue]
      · intro p hp
        rw [List.mem_singleton.mp hp]
        exact ⟨name, htarget, hname⟩
theorem scheduleAll_ok (v : Valuation) : ∀ {ss : List Statement}, Statement.TypedAll c.widths ss →
    ∃ pending, c.scheduleAll v ss = .ok pending ∧
      (∀ p ∈ pending, ∃ name, p.1 = .ident name ∧ c.widths.Declares name) ∧
      ∀ name old, latest c.widths.width name old pending =
        Statement.nextAll c.widths.width v.get name old ss
  | [], _ => ⟨[], rfl, by simp, fun _ _ => rfl⟩
  | s :: rest, ⟨hs, hrest⟩ => by
      obtain ⟨first, hfirst, htargets, hnext⟩ := schedule_ok v hs
      obtain ⟨later, hlater, htargets', hnext'⟩ := scheduleAll_ok v hrest
      refine ⟨first ++ later, ?_, ?_, ?_⟩
      · simp [scheduleAll, hfirst, hlater]
      · intro p hp
        exact (List.mem_append.mp hp).elim (htargets p) (htargets' p)
      · intro name old
        rw [Statement.nextAll, ← hnext, ← hnext', latest, List.foldl_append]
        rfl
end

/-- Writing to a whole signal gives it the value, cut to its width, and changes nothing else. -/
theorem write_ident (hbound : ∀ name, c.widths.width name ≤ wordBits) {target : String}
    (htarget : c.widths.Declares target) (value : Word) {v : Valuation} (hv : v.Tidy c.widths) :
    ∃ w, (Expr.ident target).write c.widths v value = .ok w ∧ w.Tidy c.widths ∧
      ∀ name, w.get name =
        if target = name then value.low (c.widths.width name) else v.get name := by
  obtain ⟨w, hw, hwrites⟩ := Expr.write_ok hv value (e := .ident target) htarget fun n _ => hbound n
  have hregions : Expr.regions c.widths.width (.ident target) =
      [⟨target, 0, c.widths.width target⟩] := rfl
  rw [hregions] at hwrites
  refine ⟨w, hw, hwrites.tidy, fun name => BitVec.eq_of_getLsbD_eq fun i _ => ?_⟩
  split
  · rename_i heq
    subst heq
    rw [← hwrites.tidy.fits target, Word.getLsbD_low, Word.getLsbD_low]
    -- below the width the bit has just been written; above it both sides are zero
    by_cases hi : i < c.widths.width target
    · have hbit := (hwrites.spread (List.pairwise_singleton _ _)).1 i hi
      rw [Nat.zero_add] at hbit
      rw [hbit]
    · simp [hi]
  · rename_i hne
    refine hwrites.frame name i fun r hr hcovers => hne ?_
    rw [List.mem_singleton.mp hr] at hcovers
    exact hcovers.1

/-- Writing all that is scheduled leaves in each register the last value scheduled for it. -/
theorem commit_ok (hbound : ∀ name, c.widths.width name ≤ wordBits) {pending : List (Expr × Word)}
    (htargets : ∀ p ∈ pending, ∃ name, p.1 = .ident name ∧ c.widths.Declares name) {v : Valuation}
    (hv : v.Tidy c.widths) :
    ∃ w, c.commit v pending = .ok w ∧ w.Tidy c.widths ∧
      ∀ name, w.get name = latest c.widths.width name (v.get name) pending := by
  induction pending generalizing v with
  | nil => exact ⟨v, rfl, hv, fun _ => rfl⟩
  | cons p rest ih =>
      obtain ⟨⟨target, htarget, hdeclared⟩, hrest⟩ := List.forall_mem_cons.mp htargets
      obtain ⟨e, value⟩ := p
      obtain rfl : e = .ident target := htarget
      -- writes are made in order, so the last one to a register wins, as in `latest`
      obtain ⟨u, hu, hutidy, huget⟩ := write_ident hbound hdeclared value hv
      obtain ⟨w, hw, htidy, hget⟩ := ih hrest hutidy
      refine ⟨w, ?_, htidy, fun name => ?_⟩
      · rw [commit, List.foldlM_cons]
        dsimp only
        rw [hu, ok_bind]
        exact hw
      · rw [hget, huget, latest, latest, List.foldl_cons]
        simp only [Expr.ident.injEq]

/-! ## The clock edge -/

/-- The signals that processes assign. -/
def registers (c : Circuit) : List String := c.processes.flatMap Statement.assignedAll

/-- What a register holds after a clock edge. -/
def next (c : Circuit) (state : State) (name : String) : Word :=
  Statement.nextAll c.widths.width state name (state name) c.processes.flatten

/-- Processes that can be run, each register assigned by one of them and driven by no assign. -/
structure Clocked (c : Circuit) : Prop where
  statements : ∀ p ∈ c.processes, Statement.TypedAll c.widths p
  exclusive : c.processes.Pairwise fun p q => ∀ name ∈ Statement.assignedAll p,
    name ∉ Statement.assignedAll q
  undriven : ∀ name ∈ c.registers, c.Undriven name

theorem Clocked.typedAll_flatten (hc : c.Clocked) :
    Statement.TypedAll c.widths c.processes.flatten := by
  refine Statement.typedAll_iff.mpr fun s hs => ?_
  obtain ⟨p, hp, hs⟩ := List.mem_flatten.mp hs
  exact Statement.typedAll_iff.mp (hc.statements p hp) s hs

/-- What no process assigns is left alone by a clock edge. -/
theorem next_of_not_mem_registers {state : State} {name : String} (h : name ∉ c.registers) :
    c.next state name = state name := by
  refine Statement.nextAll_of_not_assigned (fun hin => h ?_) _
  obtain ⟨p, hp, hname⟩ := Statement.mem_assignedAll_flatten hin
  exact List.mem_flatMap.mpr ⟨p, hp, hname⟩

/--
**A clock edge in a settled state succeeds, and leads to a settled state
again.** Whatever no assign drives has then what the processes scheduled for it.
-/
theorem Clocked.tick_settles (hc : c.Clocked) (hw : c.Wired) {rank : String → Nat}
    (hrank : c.Acyclic rank) {v : Valuation} (hv : v.Tidy c.widths) (hpass : c.pass v = .ok v) :
    ∃ w, c.tick v = .ok w ∧ w.Tidy c.widths ∧ c.Settled w.get ∧
      ∀ name, c.Undriven name → w.get name = c.next v.get name := by
  obtain ⟨pending, hpending, htargets, hlatest⟩ := scheduleAll_ok v hc.typedAll_flatten
  obtain ⟨u, hu, htidy, hget⟩ := commit_ok hw.bounded htargets hv
  -- of the two settlings at an edge the first changes nothing, and the second nothing
  -- that no assign drives
  obtain ⟨w, hsettle, htidy', -, hsettled, hframe⟩ := hw.settle_ok hrank htidy
  refine ⟨w, ?_, htidy', hsettled, fun name hname => ?_⟩
  · rw [tick, settle_of_pass hpass, ok_bind, scheduled, hpending, ok_bind, hu, ok_bind, hsettle]
  · rw [hframe name hname, hget, hlatest, next]

/-- After a clock edge every register holds what its process scheduled. -/
theorem Clocked.tick_ok (hc : c.Clocked) (hw : c.Wired) {rank : String → Nat}
    (hrank : c.Acyclic rank) {v : Valuation} (hv : v.Tidy c.widths) (hpass : c.pass v = .ok v) :
    ∃ w, c.tick v = .ok w ∧ w.Tidy c.widths ∧
      ∀ name ∈ c.registers, w.get name = c.next v.get name := by
  obtain ⟨w, htick, htidy, -, hnext⟩ := hc.tick_settles hw hrank hv hpass
  exact ⟨w, htick, htidy, fun name hname => hnext name (hc.undriven name hname)⟩

end Circuit

end Handshake
