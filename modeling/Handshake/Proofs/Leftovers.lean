import Handshake.Proofs.Accumulation

/-!
# What a failed call leaves behind

A generator stops at the first call that fails, but an accumulator can be used
on. Most failures leave its artifact as it was: an external that is refused, a
role asked for again, a submodule that cannot be generated or that turns out to
be another module. A merge does not. It has taken over what came before the name
that it refuses, and keeps it.

What stays can be said beforehand (`Call.leaves`), and it is never without
consequence: a module that instantiates something left behind can be finished
only because of the failed call. Where nothing stays, no later call and no later
module can tell that there was one, as long as the role that it used up is not
asked for again.
-/

namespace Handshake

/-- What is added to an artifact that stays coherent has a name that was not defined. -/
theorem Artifact.Coherent.exists_new {a left : Artifact} (h : (a.extend left).Coherent)
    (hleft : left ≠ .empty) :
    ∃ name, (a.extend left).defines name = true ∧ ¬ a.defines name = true := by
  obtain ⟨blocks, externals⟩ := left
  have hdistinct := h.distinct
  have hexternals := h.externals_distinct
  have hapart := h.apart
  rw [extend, List.map_append, List.nodup_append] at hdistinct
  rw [extend, List.nodup_append] at hexternals
  simp only [defines_iff, not_or]
  cases blocks with
  | cons b rest =>
      refine ⟨b.identity, Or.inl (by simp [extend]),
        fun hin => hdistinct.2.2 _ hin b.identity (by simp) rfl, fun hin => ?_⟩
      exact hapart b (by simp [extend]) (List.mem_append_left _ hin)
  | nil =>
      cases externals with
      | nil => exact absurd rfl hleft
      | cons name rest =>
          refine ⟨name, Or.inr (by simp [extend]), fun hin => ?_,
            fun hin => hexternals.2.2 _ hin name (by simp) rfl⟩
          obtain ⟨b, hb, rfl⟩ := List.mem_map.mp hin
          exact hapart b (List.mem_append_left _ hb) (by simp [extend])

namespace Call

/--
What a call gets as far as merging: a submodule for a role that is new, with the
module asked for as its top.
-/
def offered? (acc : Accumulator) : Call → Option Artifact
  | .require role generate =>
    if role ∈ acc.roles then none
    else (generate (acc.id.child role)).toOption.filter fun sub =>
      sub.top?.map Block.identity = some (acc.id.child role).text
  | .external _ => none

/-- What stays of a call that fails. -/
def leaves (acc : Accumulator) (c : Call) : Artifact :=
  (c.offered? acc).elim .empty acc.artifact.taken

end Call

namespace Accumulator

/-- The accumulator after a call, whatever came of it. -/
def after (acc : Accumulator) : Call → Accumulator
  | .require role generate => (acc.tryRequire role generate).2
  | .external name => (acc.tryExternal name).2

/-- The accumulator after some calls, failed ones included. -/
def afterAll (acc : Accumulator) (cs : List Call) : Accumulator := cs.foldl after acc

variable {acc acc' : Accumulator}

/-! ## One failed call -/

/-- A submodule that is not offered fails, and only its role is used up. -/
theorem tryRequire_of_not_offered {role : Role} {generate : Identity → Except Error Artifact}
    (h : (Call.require role generate).offered? acc = none) :
    (acc.tryRequire role generate).2 = acc ∨
      (acc.tryRequire role generate).2 = { acc with roles := acc.roles ++ [role] } := by
  rw [Call.offered?] at h
  unfold Accumulator.tryRequire Accumulator.absorb
  dsimp only
  by_cases hrole : role ∈ acc.roles
  · exact Or.inl (by rw [if_pos (by simpa using hrole)])
  · refine Or.inr ?_
    rw [if_neg hrole] at h
    rw [if_neg (by simpa using hrole)]
    cases hgen : generate (acc.id.child role) with
    | error e => rfl
    | ok sub =>
        rw [hgen] at h
        dsimp only
        cases htop : sub.top? with
        | none => rfl
        | some top =>
            have hother : top.identity ≠ (acc.id.child role).text := by
              intro hname
              simp [Except.toOption, Option.filter, htop, hname] at h
            dsimp only
            rw [if_neg hother]

/-- A submodule that is offered is merged. -/
theorem tryRequire_of_offered {role : Role} {generate : Identity → Except Error Artifact}
    {sub : Artifact} (h : (Call.require role generate).offered? acc = some sub) :
    ∃ top, role ∉ acc.roles ∧ generate (acc.id.child role) = .ok sub ∧ sub.top? = some top ∧
      top.identity = (acc.id.child role).text ∧
      acc.tryRequire role generate =
        ((acc.artifact.merge sub).1.map fun _ => ⟨acc.id.child role, top.latency⟩,
          ⟨acc.id, acc.roles ++ [role], (acc.artifact.merge sub).2⟩) := by
  rw [Call.offered?] at h
  split at h
  · exact absurd h (by simp)
  · rename_i hrole
    obtain ⟨hgen, hname⟩ := Option.filter_eq_some_iff.mp h
    have hsub : generate (acc.id.child role) = .ok sub := by
      cases hg : generate (acc.id.child role) with
      | error e => exact absurd hgen (by simp [hg, Except.toOption])
      | ok made => exact congrArg Except.ok (by simpa [hg, Except.toOption] using hgen)
    obtain ⟨top, htop, hidentity⟩ := Option.map_eq_some_iff.mp (of_decide_eq_true hname)
    refine ⟨top, hrole, hsub, htop, hidentity, ?_⟩
    unfold Accumulator.tryRequire Accumulator.absorb
    dsimp only
    rw [if_neg (by simpa using hrole), hsub]
    dsimp only
    rw [htop]
    dsimp only
    rw [if_pos hidentity]

/-- A submodule that is offered has new names, so what comes of its merge can be said beforehand. -/
theorem Sound.tryRequire_eq (h : acc.Sound) {role : Role}
    {generate : Identity → Except Error Artifact}
    (hpublic : (Call.require role generate).Public acc.id) {sub : Artifact}
    (hoffered : (Call.require role generate).offered? acc = some sub) :
    ∃ top : Block, acc.tryRequire role generate =
      ((Artifact.outcome (acc.artifact.refused? sub)).map fun _ => ⟨acc.id.child role, top.latency⟩,
        ⟨acc.id, acc.roles ++ [role], acc.artifact.extend (acc.artifact.taken sub)⟩) := by
  obtain ⟨top, hrole, hgen, htop, hname, heq⟩ := tryRequire_of_offered hoffered
  have hunit := (hpublic sub hgen (Artifact.ne_empty htop)).isUnit htop hname
  rw [Artifact.merge_eq hunit.wellFormed.toCoherent (h.fresh_child hrole hunit.wellFormed)] at heq
  exact ⟨top, heq⟩

/--
**What is there after a call that fails**: what was there before, and after it
what the call leaves.
-/
theorem Sound.artifact_after (h : acc.Sound) {c : Call} (hpublic : c.Public acc.id) {e : Error}
    (hc : acc.call c = .error e) : (acc.after c).artifact = acc.artifact.extend (c.leaves acc) := by
  cases c with
  | external name =>
      rw [Accumulator.call, Accumulator.external] at hc
      rw [after, Call.leaves, Call.offered?, Option.elim, Artifact.extend_empty]
      unfold Accumulator.tryExternal at hc ⊢
      cases hd : acc.artifact.declare name with
      | error e => rfl
      | ok a =>
          rw [hd] at hc
          exact absurd hc (by simp [Except.map])
  | require role generate =>
      rw [after, Call.leaves]
      cases hoffered : (Call.require role generate).offered? acc with
      | none =>
          rw [Option.elim, Artifact.extend_empty]
          rcases tryRequire_of_not_offered hoffered with heq | heq <;> rw [heq]
      | some sub =>
          obtain ⟨top, heq⟩ := h.tryRequire_eq hpublic hoffered
          rw [heq, Option.elim]

/--
Something is left by a merge only, and the call fails with the name at which the
merge stopped.
-/
theorem Sound.refused_of_leaves (h : acc.Sound) {c : Call} (hpublic : c.Public acc.id) {e : Error}
    (hc : acc.call c = .error e) (hleaves : c.leaves acc ≠ .empty) :
    ∃ role generate sub name, c = .require role generate ∧ role ∉ acc.roles ∧
      generate (acc.id.child role) = .ok sub ∧ acc.artifact.refused? sub = some name ∧
      e = .nameCollision name ∧
      c.leaves acc = acc.artifact.taken sub := by
  cases hoffered : c.offered? acc with
  | none => exact absurd (by rw [Call.leaves, hoffered]; rfl) hleaves
  | some sub =>
      cases c with
      | external name => exact absurd hoffered (by simp [Call.offered?])
      | require role generate =>
          obtain ⟨-, hrole, hgen, -⟩ := tryRequire_of_offered hoffered
          obtain ⟨top, heq⟩ := h.tryRequire_eq hpublic hoffered
          rw [Accumulator.call, Accumulator.require, heq] at hc
          cases hrefused : acc.artifact.refused? sub with
          | none =>
              rw [hrefused] at hc
              exact absurd hc (by simp [Artifact.outcome, Except.map])
          | some name =>
              rw [hrefused] at hc
              refine ⟨role, generate, sub, name, rfl, hrole, hgen, hrefused, ?_,
                by rw [Call.leaves, hoffered]; rfl⟩
              simpa [Artifact.outcome, Except.map] using hc.symm

/-- A call concerns no module but the one that is accumulated, and uses up no role but its own. -/
theorem after_cases (c : Call) : (acc.after c).id = acc.id ∧
    ((acc.after c).roles = acc.roles ∨ ∃ role, c.role? = some role ∧
      (acc.after c).roles = acc.roles ++ [role]) := by
  cases c with
  | external name =>
      unfold after Accumulator.tryExternal
      dsimp only
      split <;> exact ⟨rfl, Or.inl rfl⟩
  | require role generate =>
      rw [after]
      cases hoffered : (Call.require role generate).offered? acc with
      | none =>
          rcases tryRequire_of_not_offered hoffered with heq | heq <;> rw [heq]
          · exact ⟨rfl, Or.inl rfl⟩
          · exact ⟨rfl, Or.inr ⟨role, rfl, rfl⟩⟩
      | some sub =>
          obtain ⟨top, -, -, -, -, heq⟩ := tryRequire_of_offered hoffered
          rw [heq]
          exact ⟨rfl, Or.inr ⟨role, rfl, rfl⟩⟩

/-! ## Going on after it -/

/--
Two accumulators of the same module with the same artifact, for which the same
roles are used up, one apart.
-/
structure SameBut (role? : Option Role) (acc acc' : Accumulator) : Prop where
  id_eq : acc.id = acc'.id
  artifact_eq : acc.artifact = acc'.artifact
  roles_iff : ∀ role, role? ≠ some role → (role ∈ acc.roles ↔ role ∈ acc'.roles)

variable {role? : Option Role}

theorem SameBut.finish (h : SameBut role? acc acc') (content : Module) (latency : Nat) :
    acc.finish content latency = acc'.finish content latency := by
  rw [Accumulator.finish, Accumulator.finish, h.id_eq, h.artifact_eq]

/-- One call that does not ask for the role. -/
theorem SameBut.after (h : SameBut role? acc acc') {c : Call}
    (hc : ∀ role, role? = some role → c.role? ≠ some role) :
    SameBut role? (acc.after c) (acc'.after c) := by
  obtain ⟨id, roles, artifact⟩ := acc
  obtain ⟨id', roles', artifact'⟩ := acc'
  obtain ⟨rfl, rfl, hroles⟩ := h
  cases c with
  | external name =>
      unfold Accumulator.after Accumulator.tryExternal
      dsimp only
      split <;> exact ⟨rfl, rfl, hroles⟩
  | require role generate =>
      -- another role was asked for here if and only if it was asked for there
      have hrole : role ∈ roles ↔ role ∈ roles' := hroles role fun heq => hc role heq rfl
      have hasked : SameBut role? ⟨id, roles ++ [role], artifact⟩
          ⟨id, roles' ++ [role], artifact⟩ :=
        ⟨rfl, rfl, fun other hother => by simp [hroles other hother]⟩
      unfold Accumulator.after Accumulator.tryRequire Accumulator.absorb
      dsimp only
      by_cases hin : role ∈ roles
      · rw [if_pos (by simpa using hin), if_pos (by simpa using hrole.mp hin)]
        exact ⟨rfl, rfl, hroles⟩
      · rw [if_neg (by simpa using hin), if_neg (by simpa using fun hin' => hin (hrole.mpr hin'))]
        split
        · split
          · split
            · exact ⟨rfl, rfl, hasked.roles_iff⟩
            · exact hasked
          · exact hasked
        · exact hasked

/-- Calls that do not ask for the role. -/
theorem SameBut.afterAll (h : SameBut role? acc acc') {cs : List Call}
    (hcs : ∀ role, role? = some role → ∀ c ∈ cs, c.role? ≠ some role) :
    SameBut role? (acc.afterAll cs) (acc'.afterAll cs) := by
  induction cs generalizing acc acc' with
  | nil => exact h
  | cons c rest ih =>
      refine ih (h.after fun role hrole => ?_) fun role hrole d hd => ?_
      · exact hcs role hrole c List.mem_cons_self
      · exact hcs role hrole d (List.mem_cons_of_mem _ hd)

/-- A call that leaves nothing only uses up its role. -/
theorem sameBut_after {c : Call} (h : (acc.after c).artifact = acc.artifact) :
    SameBut c.role? (acc.after c) acc := by
  obtain ⟨hid, hroles⟩ := @after_cases acc c
  refine ⟨hid, h, fun role hrole => ?_⟩
  rcases hroles with heq | ⟨own, hown, heq⟩
  · rw [heq]
  · have hne : role ≠ own := fun h => hrole (h ▸ hown)
    simp [heq, hne]

/-! ## Telling accumulators apart -/

/-- A module that instantiates one other module. -/
def probe (name : String) : Module := ⟨"", [], [.inst ⟨name, "", []⟩]⟩

theorem unresolved?_probe (acc : Accumulator) (name : String) :
    acc.artifact.unresolved? ⟨{ probe name with name := acc.id.text }, 0⟩ =
      [name].find? fun name => name != acc.id.text && !acc.artifact.defines name := rfl

theorem finish_probe_unknown {name : String} (hown : name ≠ acc.id.text)
    (hname : ¬ acc.artifact.defines name = true) :
    acc.finish (probe name) 0 = .error (.unresolvedReference acc.id.text name) := by
  rw [finish, Artifact.define, unresolved?_probe, List.find?_cons_of_pos (by simp [hown, hname])]
  rfl

theorem finish_probe_known {name : String}
    (hname : name = acc.id.text ∨ acc.artifact.defines name = true) :
    acc.finish (probe name) 0 =
      acc.artifact.insert ⟨{ probe name with name := acc.id.text }, 0⟩ := by
  have hfound : ¬ (name != acc.id.text && !acc.artifact.defines name) = true := by
    rcases hname with heq | hdefined
    · simp [heq]
    · simp [hdefined]
  rw [finish, Artifact.define, unresolved?_probe, List.find?_cons_of_neg (by exact hfound)]
  rfl

/-- With something added, some module is finished differently. -/
theorem Sound.told_apart (h : acc.Sound) (h' : acc'.Sound) (hid : acc'.id = acc.id)
    {left : Artifact} (hextend : acc'.artifact = acc.artifact.extend left) (hleft : left ≠ .empty) :
    ∃ content latency, acc'.finish content latency ≠ acc.finish content latency := by
  have hcoherent := h'.coherent
  rw [hextend] at hcoherent
  obtain ⟨name, hthere, hhere⟩ := hcoherent.exists_new hleft
  rw [← hextend] at hthere
  refine ⟨probe name, 0, fun heq => ?_⟩
  rw [finish_probe_known (Or.inr hthere)] at heq
  by_cases hown : name = acc.id.text
  · -- the own name is external now: the module was fine, and is refused
    rw [finish_probe_known (Or.inl hown)] at heq
    have hexternal : acc'.id.text ∈ acc'.artifact.externals := by
      rw [Artifact.defines_iff, hown, ← hid] at hthere
      exact hthere.resolve_left h'.not_own
    have hfree : acc.id.text ∉ acc.artifact.externals := by
      rw [hown] at hhere
      exact fun hin => hhere (Artifact.defines_iff.mpr (Or.inr hin))
    have hfine : acc.artifact.insert ⟨{ probe name with name := acc.id.text }, 0⟩ = .ok _ :=
      Artifact.insert_new h.not_own hfree
    rcases Artifact.insert_cases (heq.trans hfine) with ⟨hin, -⟩ | ⟨-, hnot, -⟩
    · exact h'.not_own (List.mem_map_of_mem hin)
    · exact hnot hexternal
  · -- otherwise the module was refused because of the name, and is no longer
    rw [finish_probe_unknown hown hhere] at heq
    obtain ⟨-, herror⟩ := Artifact.insert_error h'.not_own heq
    cases herror

end Accumulator

theorem Accumulating.after {acc : Accumulator} (h : Accumulating acc) {c : Call}
    (hpublic : c.Public acc.id) : Accumulating (acc.after c) := by
  cases c with
  | require role generate => exact .require role generate h hpublic
  | external name => exact .external name h

/--
**A failed call leaves what its merge had taken over, and nothing else.** The
artifact is what it was, extended by what the call leaves; something is left
only if a submodule was being merged, and the error is the name that its merge
refused. Later modules are finished as if the call had not been made, whatever
is called in between except for its role, if and only if it leaves nothing.
-/
theorem failed_call_leaves {acc : Accumulator} (hacc : Accumulating acc) {c : Call}
    (hpublic : c.Public acc.id) {e : Error} (hc : acc.call c = .error e) :
    (acc.after c).artifact = acc.artifact.extend (c.leaves acc) ∧
    (c.leaves acc ≠ .empty → ∃ role generate sub name, c = .require role generate ∧
      role ∉ acc.roles ∧
      generate (acc.id.child role) = .ok sub ∧ acc.artifact.refused? sub = some name ∧
      e = .nameCollision name ∧
      c.leaves acc = acc.artifact.taken sub) ∧
    ((∀ cs : List Call, (∀ role, c.role? = some role → ∀ d ∈ cs, d.role? ≠ some role) →
        ∀ content latency,
        ((acc.after c).afterAll cs).finish content latency =
          (acc.afterAll cs).finish content latency) ↔
      c.leaves acc = .empty) := by
  have hartifact := hacc.sound.artifact_after hpublic hc
  refine ⟨hartifact, hacc.sound.refused_of_leaves hpublic hc, fun hsame => ?_,
    fun hnothing cs hcs content latency => ?_⟩
  · by_contra hleft
    obtain ⟨content, latency, hdiffer⟩ := hacc.sound.told_apart (hacc.after hpublic).sound
      (Accumulator.after_cases c).1 hartifact hleft
    exact hdiffer (hsame [] (fun _ _ d hd => absurd hd List.not_mem_nil) content latency)
  · rw [hnothing, Artifact.extend_empty] at hartifact
    exact ((Accumulator.sameBut_after hartifact).afterAll hcs).finish content latency

/--
A merge that stops in the middle: `u_inner` is to be external, so a submodule of
that name is refused, but by then its external and its own submodule have been
taken over. That is noticed later.
-/
theorem failed_call_leaves_submodule :
    let leaf : Identity → Except Error Artifact :=
      fun id => (Accumulator.start id).finish ⟨"", [], []⟩ 1
    let inner : Identity → Except Error Artifact := fun id =>
      (((Accumulator.start id).tryExternal "ip").2.tryRequire .buff leaf).2.finish ⟨"", [], []⟩ 2
    let acc := (Accumulator.start ⟨"u", [], rfl⟩).after (.external "u_inner")
    let c := Call.require .inner inner
    let left : Artifact := ⟨[⟨⟨"u_inner_buff", [], []⟩, 1⟩], ["ip"]⟩
    acc.call c = .error (.nameCollision "u_inner") ∧ c.leaves acc = left ∧
      (acc.after c).artifact = acc.artifact.extend left ∧
      ¬ ∀ cs : List Call, (∀ role, c.role? = some role → ∀ d ∈ cs, d.role? ≠ some role) →
        ∀ content latency,
        ((acc.after c).afterAll cs).finish content latency =
          (acc.afterAll cs).finish content latency := by
  intro leaf inner acc c left
  have hacc : Accumulating acc := .external "u_inner" (.start _)
  have hpublic : c.Public acc.id := by
    intro sub hsub _
    refine .finish (.require .buff leaf (.external "ip" (.start _)) ?_) hsub
    exact fun sub hsub _ => .finish (.start _) hsub
  have hc : acc.call c = .error (.nameCollision "u_inner") := by decide +kernel
  have hleft : c.leaves acc = left := by decide +kernel
  obtain ⟨hartifact, -, hiff⟩ := failed_call_leaves hacc hpublic hc
  rw [hleft] at hartifact hiff
  exact ⟨hc, hleft, hartifact, fun hsame => absurd (hiff.mp hsame) (by decide)⟩

/--
The artifact handed out in the end can show that a call has failed: here an
external that no module of it needs.
-/
theorem failed_merge_keeps_external :
    let inner : Identity → Except Error Artifact := fun id =>
      ((Accumulator.start id).tryExternal "ip").2.finish ⟨"", [], []⟩ 0
    let acc := (Accumulator.start ⟨"u", [], rfl⟩).after (.external "u_inner")
    let u : Block := ⟨⟨"u", [], []⟩, 0⟩
    acc.call (.require .inner inner) = .error (.nameCollision "u_inner") ∧
      acc.finish u.content 0 = .ok ⟨[u], ["u_inner"]⟩ ∧
      (acc.after (.require .inner inner)).finish u.content 0 = .ok ⟨[u], ["u_inner", "ip"]⟩ := by
  decide +kernel

end Handshake
