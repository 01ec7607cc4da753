import Handshake.Proofs.Blocks
import Handshake.Proofs.Simulability

/-!
# The names in generated modules are identifiers

Most names are chosen by the generators, and are looked up in a table. The
others are put together: a register has a number, the port of an extra signal
has the name of the signal behind that of its group, and a submodule is named
after its parent. All of those have an underscore, which only two reserved words
have.

So there are two arguments. `chosenNames` is the table, and that it holds only
identifiers is decided once. For names that are put together, the letters are
right because those of the parts are, and reserved words are avoided because
both that have an underscore begin with a letter that none of the stems begins
with (`isIdentifier_append`). `Body.identifiers` collects the two for every body
that a block can have.
-/

namespace Handshake

/-! ## Names that are put together -/

/-- A name with an underscore in its stem, which does not begin like a reserved word with one. -/
theorem isIdentifier_append {stem rest : String} (hstem : isSimpleName stem.toList = true)
    (hunder : '_' ∈ stem.toList) (hhead : stem.toList.head? ≠ some 'p')
    (hrest : rest.toList.all isNamePart = true) :
    isIdentifier (stem ++ rest) = true := by
  rw [isIdentifier_iff, String.toList_append]
  refine ⟨isSimpleName_append hstem hrest, fun hmem => hhead ?_⟩
  have hword :=
    (underscore_reserved _ hmem
      (by rw [String.toList_append]; exact List.mem_append_left _ hunder)).1
  rw [String.toList_append, List.head?_append_of_ne_nil _ (List.ne_nil_of_mem hunder)] at hword
  exact hword

/-- A stem with an underscore and a number behind it is an identifier. -/
theorem isIdentifier_numbered {stem : String} (hstem : isSimpleName stem.toList = true)
    (hunder : '_' ∈ stem.toList) (hhead : stem.toList.head? ≠ some 'p') (i : Nat) :
    isIdentifier (stem ++ i.repr) = true := by
  refine isIdentifier_append hstem hunder hhead (List.all_eq_true.mpr fun c hc => ?_)
  rw [Nat.toList_repr] at hc
  have hdigit := Nat.isDigit_of_mem_toDigits (by decide) (by decide) hc
  simp [isNamePart, Char.isAlphanum, hdigit]

/-- The ports of a group are named by identifiers. -/
theorem PortGroup.identifiers {g : PortGroup} (hname : isIdentifier g.name = true)
    (hhead : (g.name ++ "_").toList.head? ≠ some 'p') (direction : Direction) :
    ∀ p ∈ g.ports direction, isIdentifier p.name = true := by
  have hstem : isSimpleName (g.name ++ "_").toList = true := by
    rw [String.toList_append]
    exact isSimpleName_append (isIdentifier_iff.mp hname).1 (by decide +kernel)
  have hunder : '_' ∈ (g.name ++ "_").toList := by
    rw [String.toList_append]
    exact List.mem_append_right _ (by decide)
  have hsuffixed : ∀ suffix : String, suffix.toList.all isNamePart = true →
      isIdentifier (g.name ++ "_" ++ suffix) = true := fun suffix hsuffix =>
    isIdentifier_append hstem hunder hhead hsuffix
  intro p hp
  rcases PortGroup.mem_names.mp (List.mem_map_of_mem hp) with ⟨-, heq⟩ | ⟨s, hs, heq⟩ | heq | heq
  · rw [heq]
    exact hname
  · rw [heq]
    exact hsuffixed s.name
      (isNamePart_of_isSimpleName (isIdentifier_iff.mp (g.extra.declarable.1 s hs).1).1)
  · rw [heq, show "_valid" = "_" ++ "valid" from rfl, ← String.append_assoc]
    exact hsuffixed "valid" (by decide +kernel)
  · rw [heq, show "_ready" = "_" ++ "ready" from rfl, ← String.append_assoc]
    exact hsuffixed "ready" (by decide +kernel)

/-! ## The bodies of blocks -/

/-- The names that generators choose themselves. -/
def chosenNames : List String :=
  ["clk", "rst", "ins", "ins_valid", "ins_ready", "outs", "outs_valid", "outs_ready", "lhs",
    "lhs_valid", "lhs_ready", "rhs", "rhs_valid", "rhs_ready", "result", "result_valid",
    "result_ready", "full", "valid_reg", "data_reg", "valid_in", "ready_in", "valid_out", "en",
    "ce", "a", "b", "p", "a_reg", "b_reg", "q0", "q1", "q2", "mul", "one_slot_break_r_data_in",
    "one_slot_break_r_pvalid", "one_slot_break_r_ready", "merge_ins", "one_slot_break_r",
    "join_valid", "buff_valid", "one_slot_break_dv_ready", "join_inputs", "buff",
    "one_slot_break_dv", "multiply_unit", "ip_lhs", "ip_rhs", "ip_result", "rhs_neg",
    "ieee2nfloat_lhs", "ieee2nfloat_rhs", "nfloat2ieee_result", "ip", "ins_inner", "outs_inner",
    "inner", "extra_ins", "extra_outs", "extra_ins_valid"]

/-- Every name in the table is an identifier. -/
theorem isIdentifier_chosen {name : String} (h : name ∈ chosenNames) :
    isIdentifier name = true := by
  have hall : chosenNames.all isIdentifier = true := by decide +kernel
  exact List.all_eq_true.mp hall name h

section

variable (size width : Nat) (join delay output : String)

/-- What a join declares is in the table; so it is for the units after it. -/
theorem Join.declared_chosen : ∀ name ∈ (body size).declared, name ∈ chosenNames := by
  simp [Module.declared, body, anonymous, names_handshakePorts, ifData, Item.declsOf, Item.decls,
    Item.instancesOf, Item.instances, chosenNames]

theorem PriorityMerge.declared_chosen :
    ∀ name ∈ (body size width).declared, name ∈ chosenNames := by
  by_cases h : 0 < width <;>
    simp [Module.declared, body, anonymous, names_passThroughPorts, ifData, h, Item.declsOf,
      Item.decls, Item.instancesOf, Item.instances, chosenNames]

theorem ReadyBreak.declared_chosen : ∀ name ∈ (body width).declared, name ∈ chosenNames := by
  rw [Module.declared, declsOf_body, instancesOf_readyBreak]
  by_cases h : 0 < width <;>
    simp [body, anonymous, names_passThroughPorts, decls, ifData, h, Decl.reg, chosenNames]

theorem DataBreak.declared_chosen : ∀ name ∈ (body width).declared, name ∈ chosenNames := by
  rw [Module.declared, declsOf_body, instancesOf_dataBreak]
  by_cases h : 0 < width <;>
    simp [body, anonymous, names_passThroughPorts, decls, ifData, h, Decl.reg, chosenNames]

/-- The instances of a merge are among its chosen names. -/
theorem Merge.declared_chosen :
    ∀ name ∈ (body join output size width).declared, name ∈ chosenNames := by
  by_cases h : 0 < width <;>
    simp [Module.declared, body, decls, mergeInstance, bufferInstance, anonymous,
      names_passThroughPorts, ifData, h, Item.declsOf, Item.decls, Item.instancesOf, Item.instances,
      Decl.net, chosenNames]

theorem Multiplier.declared_core_chosen :
    ∀ name ∈ (coreBody width).declared, name ∈ chosenNames := by
  show ∀ name ∈ ["clk", "ce", "a", "b", "p", "a_reg", "b_reg", "q0", "q1", "q2", "mul"],
    name ∈ chosenNames
  simp [chosenNames]

/-- An operator chooses the names of its control, and those of its datapath. -/
theorem Operator.declared_chosen {datapath : List Item}
    (hdecls : ∀ name ∈ (Item.declsOf datapath).map Decl.name, name ∈ chosenNames)
    (hinstances : ∀ name ∈ (Item.instancesOf datapath).map Instance.name, name ∈ chosenNames) :
    ∀ name ∈ (body width join delay output datapath).declared, name ∈ chosenNames := by
  have hports : ∀ name ∈ (Operator.ports width).map Port.name, name ∈ chosenNames := by
    rw [names_operatorPorts]
    by_cases h : 0 < width <;> simp [ifData, h, chosenNames]
  have hcontrol : ∀ name ∈ ["join_valid", "buff_valid", enable] ++ ["join_inputs", "buff",
      "one_slot_break_dv"],
      name ∈ chosenNames := by
    simp [enable, chosenNames]
  obtain ⟨hnets, hparts⟩ := List.forall_mem_append.mp hcontrol
  exact List.forall_mem_append.mpr
    ⟨List.forall_mem_append.mpr ⟨hports, List.forall_mem_append.mpr ⟨hnets, hdecls⟩⟩,
    List.forall_mem_append.mpr ⟨hparts, hinstances⟩⟩

theorem FloatOperator.declared_chosen (op : FloatOperator) (p : Precision) :
    ∀ name ∈ (operatorBody op p join delay output).declared, name ∈ chosenNames := by
  refine Operator.declared_chosen _ _ _ _ ?_ ?_
  · cases op <;> simp [datapath, decls, converter, Item.declsOf, Item.decls, Decl.net, chosenNames]
  · cases op <;> simp [datapath, converter, Item.instancesOf, Item.instances, chosenNames]

end

/-- The slots of a delay are numbered, and its ports are chosen. -/
theorem DelayBuffer.identifiers (slots : Nat) :
    ∀ name ∈ (body slots).declared, isIdentifier name = true := by
  rw [declared_delayBuffer]
  refine List.forall_mem_append.mpr
    ⟨fun name hname => isIdentifier_chosen ?_, List.forall_mem_map.mpr fun i _ => ?_⟩
  · revert name
    simp [chosenNames]
  · exact isIdentifier_numbered (by decide +kernel) (by decide) (by decide) i

theorem DelayLine.identifiers {line : DelayLine} (h : line.latency ≠ 0) (hw : 0 < line.width) :
    ∀ name ∈ line.body.declared, isIdentifier name = true := by
  rw [declared_delayLine, if_neg h]
  simp only [ifData, if_pos hw]
  refine List.forall_mem_append.mpr
    ⟨List.forall_mem_append.mpr ⟨fun name hname => isIdentifier_chosen ?_,
    List.forall_mem_append.mpr ⟨?_, ?_⟩⟩, fun name hname => isIdentifier_chosen ?_⟩
  · revert name
    simp [chosenNames]
  · exact List.forall_mem_map.mpr fun i _ =>
      isIdentifier_numbered (by decide +kernel) (by decide) (by decide) i
  · exact List.forall_mem_map.mpr fun i _ =>
      isIdentifier_numbered (by decide +kernel) (by decide) (by decide) i
  · revert name
    simp [chosenNames]

namespace Manager

/--
The port of an extra signal is named by an identifier: the signal itself is one,
and the name of the group comes in front of it.
-/
theorem identifiers_outerPorts {ins outs : List PortGroup}
    (h : ∀ g ∈ ins ++ outs, g.name ∈ chosenNames ∧ (g.name ++ "_").toList.head? ≠ some 'p') :
    ∀ name ∈ (outerPorts ins outs).map Port.name, isIdentifier name = true := by
  refine List.forall_mem_map.mpr
    (List.forall_mem_append.mpr ⟨List.forall_mem_append.mpr ⟨?_, ?_⟩, ?_⟩)
  · intro p hp
    refine isIdentifier_chosen ?_
    revert p
    simp [clockPorts, Port.input, chosenNames]
  · intro p hp
    obtain ⟨g, hg, hp⟩ := List.mem_flatMap.mp hp
    obtain ⟨hname, hhead⟩ := h g (List.mem_append_left _ hg)
    exact PortGroup.identifiers (isIdentifier_chosen hname) hhead .input p hp
  · intro p hp
    obtain ⟨g, hg, hp⟩ := List.mem_flatMap.mp hp
    obtain ⟨hname, hhead⟩ := h g (List.mem_append_right _ hg)
    exact PortGroup.identifiers (isIdentifier_chosen hname) hhead .output p hp

/-- The wrapper of a unit that hands tokens on declares identifiers. -/
theorem Grouped.identifiers {width : Nat} {extra : ExtraSignals} {layout : Layout}
    {size : Option Nat} {inner : String}
    (h : Grouped width extra layout [⟨"ins", width, extra, size⟩] [⟨"outs", width, extra, none⟩]) :
    ∀ name ∈ (bundling inner [⟨"ins", width, extra, size⟩] [⟨"outs", width, extra, none⟩]
      layout).declared,
      isIdentifier name = true := by
  have hports :
      ∀ name ∈ (outerPorts [⟨"ins", width, extra, size⟩]
        [⟨"outs", width, extra, none⟩]).map Port.name,
      isIdentifier name = true := by
    refine identifiers_outerPorts (List.forall_mem_cons.mpr ⟨?_, List.forall_mem_singleton.mpr ?_⟩)
    · exact ⟨by simp [chosenNames], (by decide : ("ins" ++ "_").toList.head? ≠ some 'p')⟩
    · exact ⟨by simp [chosenNames], (by decide : ("outs" ++ "_").toList.head? ≠ some 'p')⟩
  rw [Module.declared, Grouped.declsOf_bundling h.bus_pos, h.instancesOf_bundling]
  refine List.forall_mem_append.mpr ⟨List.forall_mem_append.mpr ⟨hports, ?_⟩, ?_⟩
  · intro name hname
    refine isIdentifier_chosen ?_
    revert name
    simp [busOf, Decl.net, chosenNames]
  · exact List.forall_mem_singleton.mpr
      (isIdentifier_chosen (by simp [bundlingInstance, chosenNames]))

/-- The wrapper of an operator declares identifiers. -/
theorem identifiers_wrapper {inner line : String} {width : Nat} {extra : ExtraSignals}
    {layout : Layout} (htotal : 0 < layout.total) :
    ∀ name ∈ (wrapper inner line width extra layout).declared, isIdentifier name = true := by
  rw [wrapper, declared_bypassBody, ifData, if_pos htotal]
  refine List.forall_mem_append.mpr
    ⟨identifiers_outerPorts ?_, fun name hname => isIdentifier_chosen ?_⟩
  · simp only [operands, results, List.cons_append, List.nil_append, List.forall_mem_cons,
      List.not_mem_nil, false_imp_iff, implies_true, and_true]
    exact ⟨⟨by simp [chosenNames], by decide⟩, ⟨by simp [chosenNames], by decide⟩,
      by simp [chosenNames], by decide⟩
  · revert name
    simp [chosenNames]

end Manager

/-- **Everything that a block declares is named by an identifier.** -/
theorem Body.identifiers {a : Artifact} {m : Module} (h : Body a m) :
    ∀ name ∈ m.declared, isIdentifier name = true := by
  cases h with
  | join => exact fun name hname => isIdentifier_chosen (Join.declared_chosen _ name hname)
  | priorityMerge => exact fun name hname =>
      isIdentifier_chosen (PriorityMerge.declared_chosen _ _ name hname)
  | readyBreak => exact fun name hname =>
      isIdentifier_chosen (ReadyBreak.declared_chosen _ name hname)
  | dataBreak => exact fun name hname =>
      isIdentifier_chosen (DataBreak.declared_chosen _ name hname)
  | delayBuffer slots => exact DelayBuffer.identifiers slots
  | delayLine hlatency hwidth => exact DelayLine.identifiers hlatency hwidth
  | multiplierCore => exact fun name hname =>
      isIdentifier_chosen (Multiplier.declared_core_chosen _ name hname)
  | merge => exact fun name hname => isIdentifier_chosen (Merge.declared_chosen _ _ _ _ name hname)
  | multiplier =>
      refine fun name hname => isIdentifier_chosen
        (Operator.declared_chosen _ _ _ _ ?_ ?_ name hname)
      · exact fun name hname => absurd hname List.not_mem_nil
      · simp [Item.instancesOf, Item.instances, Multiplier.coreInstance, chosenNames]
  | float op p => exact fun name hname =>
      isIdentifier_chosen (FloatOperator.declared_chosen _ _ _ op p name hname)
  | bundling hgrouped => exact hgrouped.identifiers
  | bypassing hpos hne hlayout =>
      refine Manager.identifiers_wrapper ?_
      rw [Layout.total_of hlayout, Nat.zero_add]
      exact ExtraSignals.totalWidth_pos hne

end Handshake
