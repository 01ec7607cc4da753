import Handshake.Proofs.Widths

/-!
# Tilings of signals by what drives them

A module is driven by the targets of its assigns and by what the outputs of its
instances are connected to. Each of these sources consists of pieces of signals.
Every bit of the outputs and nets is driven by one source if the pieces of all
sources tile the outputs and nets: if every bit lies in as many pieces as whole
signals. Tilings can be put side by side, reordered and refined, so that a
module needs little more than the list of its sources.

Counting makes this work without any case distinction on overlaps: a bit that
two pieces cover is counted twice, and one that none covers not at all, and both
would show. For the shapes that generated modules have there are ready lemmas,
from modules that drive whole signals to those with channels or a slot.
-/

namespace Handshake

/-! ## Tilings -/

instance (r : Region) (name : String) (i : Nat) : Decidable (r.Covers name i) :=
  inferInstanceAs (Decidable (_ ∧ _))

/--
Every bit lies in as many of the pieces as of the whole regions, and pieces are
of signals that the regions are of.
-/
structure Tiles (pieces whole : List Region) : Prop where
  names : ∀ r ∈ pieces, ∃ s ∈ whole, s.name = r.name
  count : ∀ name i, pieces.countP (fun r => r.Covers name i) = whole.countP fun r => r.Covers name i

namespace Tiles

theorem of_perm {pieces whole : List Region} (h : pieces.Perm whole) : Tiles pieces whole :=
  ⟨fun r hr => ⟨r, h.mem_iff.mp hr, rfl⟩, fun _ _ => h.countP_eq _⟩

theorem trans {pieces middle whole : List Region} (h : Tiles pieces middle)
    (h' : Tiles middle whole) : Tiles pieces whole := by
  refine ⟨fun r hr => ?_, fun name i => (h.count name i).trans (h'.count name i)⟩
  obtain ⟨s, hs, hname⟩ := h.names r hr
  obtain ⟨t, ht, hname'⟩ := h'.names s hs
  exact ⟨t, ht, hname'.trans hname⟩

theorem append {pieces whole pieces' whole' : List Region} (h : Tiles pieces whole)
    (h' : Tiles pieces' whole') : Tiles (pieces ++ pieces') (whole ++ whole') := by
  refine ⟨List.forall_mem_append.mpr ⟨fun r hr => ?_, fun r hr => ?_⟩, fun name i => ?_⟩
  · obtain ⟨s, hs, hname⟩ := h.names r hr
    exact ⟨s, List.mem_append_left _ hs, hname⟩
  · obtain ⟨s, hs, hname⟩ := h'.names r hr
    exact ⟨s, List.mem_append_right _ hs, hname⟩
  · rw [List.countP_append, List.countP_append, h.count, h'.count]

theorem flatMap {α : Type} {xs : List α} {pieces whole : α → List Region}
    (h : ∀ x ∈ xs, Tiles (pieces x) (whole x)) : Tiles (xs.flatMap pieces) (xs.flatMap whole) := by
  induction xs with
  | nil => exact of_perm (List.Perm.refl _)
  | cons x rest ih =>
      obtain ⟨hx, hrest⟩ := List.forall_mem_cons.mp h
      exact hx.append (ih hrest)

/-- Two neighbours make one region. -/
theorem join (name : String) (lo length more : Nat) :
    Tiles [⟨name, lo, length⟩, ⟨name, lo + length, more⟩] [⟨name, lo, length + more⟩] := by
  refine ⟨by simp, fun other i => ?_⟩
  have hcovers : ∀ lo length : Nat, (⟨name, lo, length⟩ : Region).Covers other i ↔
      name = other ∧ lo ≤ i ∧ i < lo + length := fun _ _ => Iff.rfl
  simp only [List.countP_cons, List.countP_nil, decide_eq_true_eq, hcovers]
  by_cases hname : name = other
  · by_cases hlow : lo ≤ i
    · by_cases hmid : i < lo + length
      · have h₁ : ¬ lo + length ≤ i := by omega
        have h₂ : i < lo + (length + more) := by omega
        simp [hname, hlow, hmid, h₁, h₂]
      · have h₁ : lo + length ≤ i := by omega
        simp [hname, hlow, hmid, h₁, Nat.add_assoc]
    · have h₁ : ¬ lo + length ≤ i := by omega
      simp [hlow, h₁]
  · simp [hname]

theorem empty (name : String) (lo : Nat) : Tiles [] [⟨name, lo, 0⟩] := by
  refine ⟨fun r hr => absurd hr List.not_mem_nil, fun other i => ?_⟩
  rw [List.countP_nil, eq_comm, List.countP_eq_zero]
  intro r hr hcovers
  rw [List.mem_singleton.mp hr] at hcovers
  obtain ⟨-, hlow, hhigh⟩ := of_decide_eq_true hcovers
  exact absurd hhigh (Nat.not_lt.mpr hlow)

/-- Channels side by side. -/
theorem channels (name : String) (width n : Nat) :
    Tiles ((List.range n).map fun c => ⟨name, c * width, width⟩) [⟨name, 0, n * width⟩] := by
  induction n with
  | zero =>
      rw [Nat.zero_mul]
      exact empty name 0
  | succ n ih =>
      rw [List.range_succ, List.map_append, Nat.succ_mul]
      have hjoin := join name 0 (n * width) width
      rw [Nat.zero_add] at hjoin
      exact (ih.append (of_perm (List.Perm.refl _))).trans hjoin

/-- Channels side by side, in several signals at once. -/
theorem columns {α : Type} (xs : List α) (name : α → String) (width : α → Nat) (n : Nat) :
    Tiles ((List.range n).flatMap fun c => xs.map fun x => ⟨name x, c * width x, width x⟩)
      (xs.map fun x => ⟨name x, 0, n * width x⟩) := by
  induction xs with
  | nil =>
      rw [List.flatMap_eq_nil_iff.mpr fun c _ => List.map_nil]
      exact of_perm (List.Perm.refl _)
  | cons x rest ih =>
      have hfirst := channels (name x) (width x) n
      rw [List.map_eq_flatMap] at hfirst
      exact (of_perm (List.flatMap_append_perm (List.range n) _ _).symm).trans (hfirst.append ih)

/-- Fields one above the other. -/
theorem place (name : String) (base lo : Nat) (fields : List (Field × Nat)) :
    Tiles ((Layout.place lo fields).map fun s => ⟨name, base + s.lo, s.width⟩)
      [⟨name, base + lo, (fields.map Prod.snd).sum⟩] := by
  induction fields generalizing lo with
  | nil => exact empty name (base + lo)
  | cons field rest ih =>
      have hrest := ih (lo + field.2)
      rw [← Nat.add_assoc] at hrest
      have hfirst : Tiles [⟨name, base + lo, field.2⟩] [⟨name, base + lo, field.2⟩] :=
        of_perm (List.Perm.refl _)
      exact (hfirst.append hrest).trans (join name (base + lo) field.2 _)

end Tiles

/-- What lies in one element of one list lies in one list. -/
theorem countP_of_flatMap {α β : Type} {xs : List α} {f : α → List β} {P : β → Prop}
    [DecidablePred P] (h : (xs.flatMap f).countP (fun y => P y) = 1) :
    xs.countP (fun x => ∃ y ∈ f x, P y) = 1 := by
  induction xs with
  | nil => exact absurd h (by simp)
  | cons x rest ih =>
      rw [List.flatMap_cons, List.countP_append] at h
      by_cases hx : ∃ y ∈ f x, P y
      · have hpos : 0 < (f x).countP fun y => P y := List.countP_pos_iff.mpr (by simpa using hx)
        have hzero : (rest.flatMap f).countP (fun y => P y) = 0 := by omega
        have hnone : rest.countP (fun x => ∃ y ∈ f x, P y) = 0 := by
          refine List.countP_eq_zero.mpr fun x' hx' hany => ?_
          obtain ⟨y, hy, hP⟩ := of_decide_eq_true hany
          exact List.countP_eq_zero.mp hzero y (List.mem_flatMap.mpr ⟨x', hx', hy⟩)
            (decide_eq_true hP)
        rw [List.countP_cons, hnone, if_pos (decide_eq_true hx)]
      · have hzero : (f x).countP (fun y => P y) = 0 :=
          List.countP_eq_zero.mpr fun y hy hP => hx ⟨y, hy, of_decide_eq_true hP⟩
        rw [List.countP_cons, if_neg (by simpa using hx)]
        exact ih (by omega)

/-! ## Sources -/

namespace Expr

mutual
/--
An expression that can stand on the left: a signal, a fixed part of a signal, or
such side by side.
-/
def isLvalue : Expr → Bool
  | .ident _ => true
  | .index _ position => position.count?.isSome
  | .slice _ base length => base.count?.isSome && length.count?.isSome
  | .concat parts => allLvalues parts
  | .number _ | .paren _ | .not _ | .binary _ _ _ | .cond _ _ _ => false
/-- Whether all of some expressions can. -/
def allLvalues : List Expr → Bool
  | [] => true
  | part :: rest => isLvalue part && allLvalues rest
end

section

variable (declared : String → Option Nat)

mutual
/-- The pieces of signals that a target consists of. -/
def pieces : Expr → List Region
  | .ident name => [⟨name, 0, (declared name).getD 0⟩]
  | .index name position => [⟨name, position.count?.getD 0, 1⟩]
  | .slice name base length => [⟨name, base.count?.getD 0, length.count?.getD 0⟩]
  | .concat parts => piecesAll parts
  | .number _ | .paren _ | .not _ | .binary _ _ _ | .cond _ _ _ => []
/-- The pieces of targets side by side. -/
def piecesAll : List Expr → List Region
  | [] => []
  | part :: rest => pieces part ++ piecesAll rest
end

/-- A target has the given bit of a signal. -/
def Drives (e : Expr) (name : String) (i : Nat) : Prop := ∃ r ∈ e.pieces declared, r.Covers name i

instance (e : Expr) (name : String) (i : Nat) : Decidable (e.Drives declared name i) :=
  inferInstanceAs (Decidable (∃ r ∈ e.pieces declared, r.Covers name i))

end

theorem pieces_select {declared : String → Option Nat} {name : String} {total lo width : Nat}
    (hname : declared name = some total) :
    (select name total lo width).pieces declared = [⟨name, lo, width⟩] := by
  unfold select
  by_cases hwhole : lo = 0 ∧ width = total
  · rw [if_pos hwhole, pieces, hname, hwhole.1, hwhole.2]
    rfl
  · rw [if_neg hwhole]
    by_cases hone : width = 1
    · rw [if_pos hone, pieces, count?_decimal, hone]
      rfl
    · rw [if_neg hone, pieces, count?_decimal, count?_decimal]
      rfl

theorem isLvalue_select (name : String) (total lo width : Nat) :
    (select name total lo width).isLvalue = true := by
  unfold select
  split
  · rfl
  · split <;> simp [isLvalue, count?_decimal]

end Expr

/--
The output ports of a module that is instantiated. Of an external core or
converter it is the port `R`.
-/
def Artifact.outputs (a : Artifact) (name : String) : List String :=
  match a.get? name with
  | some b => (b.content.ports.filter fun p => p.direction = .output).map Port.name
  | none => ["R"]

/-- What the outputs of an instance are connected to. -/
def Instance.driven (a : Artifact) (i : Instance) : List Expr :=
  i.connections.filterMap fun c => if c.1 ∈ a.outputs i.moduleName then c.2 else none

namespace Module

/-- All that drives signals of a module: its assigns, and the outputs of its instances. -/
def sources (a : Artifact) (m : Module) : List Expr :=
  (Item.drivesOf m.items).map Assign.target ++
    (Item.instancesOf m.items).flatMap (Instance.driven a)

/-- Every bit of a module has one driver. -/
structure DrivenOnce (a : Artifact) (m : Module) : Prop where
  /-- Each bit of an output is driven by one source. -/
  outputs : ∀ p ∈ m.ports, p.direction = .output → ∀ i < p.width,
    (m.sources a).countP (fun e => e.Drives m.width? p.name i) = 1
  /-- So is each bit of a declared net. -/
  nets : ∀ d ∈ Item.declsOf m.items, d.storage = .net → ∀ i < d.width,
    (m.sources a).countP (fun e => e.Drives m.width? d.name i) = 1
  /-- A declared register is assigned in one process. -/
  registers : ∀ d ∈ Item.declsOf m.items, d.storage = .reg →
    (Item.processesOf m.items).countP (fun body => d.name ∈ Statement.assignedAll body) = 1
  /-- No part of it is driven by a source. -/
  stored : ∀ d ∈ Item.declsOf m.items, d.storage = .reg →
    ∀ e ∈ m.sources a, ∀ r ∈ e.pieces m.width?, r.name ≠ d.name
  /-- No part of an input is driven by a source. -/
  inputs : ∀ p ∈ m.ports, p.direction = .input →
    ∀ e ∈ m.sources a, ∀ r ∈ e.pieces m.width?, r.name ≠ p.name
  /-- Processes assign nothing but declared registers. -/
  processes : ∀ body ∈ Item.processesOf m.items, ∀ name ∈ Statement.assignedAll body,
    ∃ d ∈ Item.declsOf m.items, d.storage = .reg ∧ d.name = name
  /-- What is driven by a source can stand on the left. -/
  targets : ∀ e ∈ m.sources a, e.isLvalue = true

/-- A signal as a region. -/
def whole (m : Module) (name : String) : Region := ⟨name, 0, (m.width? name).getD 0⟩

/--
The sources of a module tile its outputs and nets, and each process has its own
share of the registers.
-/
structure Tiled (a : Artifact) (m : Module) (shares : List (List String)) : Prop where
  tiles : Tiles ((m.sources a).flatMap (Expr.pieces m.width?)) (m.drivable.map m.whole)
  targets : ∀ e ∈ m.sources a, e.isLvalue = true
  storage : m.storage = shares.flatten
  shares : List.Forall₂ (fun body share => ∀ name, name ∈ Statement.assignedAll body ↔ name ∈ share)
    (Item.processesOf m.items) shares

variable {a : Artifact} {m : Module} {shares : List (List String)}

theorem drivable_sublist : m.drivable.Sublist (m.signals.map Prod.fst) := by
  rw [map_fst_signals]
  exact (List.filter_sublist.map _).append (List.filter_sublist.map _)

theorem storage_sublist : m.storage.Sublist (m.signals.map Prod.fst) := by
  rw [map_fst_signals]
  exact (List.filter_sublist.map _).trans (List.sublist_append_right _ _)

/-- A bit of an output or a net lies in one of the whole signals. -/
theorem countP_whole (hdistinct : (m.signals.map Prod.fst).Nodup) {name : String} {width i : Nat}
    (hname : name ∈ m.drivable) (hwidth : m.width? name = some width) (hi : i < width) :
    (m.drivable.map m.whole).countP (fun r => r.Covers name i) = 1 := by
  have hcovers : ∀ other ∈ m.drivable, decide ((m.whole other).Covers name i) = true ↔
      (other == name) = true := by
    intro other _
    rw [decide_eq_true_iff, beq_iff_eq]
    refine ⟨fun h => h.1, ?_⟩
    rintro rfl
    have hlength : (m.whole other).length = width := by rw [whole, hwidth]; rfl
    exact ⟨rfl, Nat.zero_le i, by rw [hlength, whole]; omega⟩
  rw [List.countP_map, ← List.count_eq_one_of_mem (hdistinct.sublist drivable_sublist) hname]
  exact List.countP_congr hcovers

theorem Tiled.driven (h : m.Tiled a shares) (hdistinct : (m.signals.map Prod.fst).Nodup)
    {name : String} {width i : Nat} (hname : name ∈ m.drivable)
    (hwidth : m.width? name = some width) (hi : i < width) :
    (m.sources a).countP (fun e => e.Drives m.width? name i) = 1 :=
  countP_of_flatMap ((h.tiles.count name i).trans (countP_whole hdistinct hname hwidth hi))

theorem Tiled.name_piece (h : m.Tiled a shares) {e : Expr} (he : e ∈ m.sources a) {r : Region}
    (hr : r ∈ e.pieces m.width?) : r.name ∈ m.drivable := by
  obtain ⟨s, hs, hname⟩ := h.tiles.names r (List.mem_flatMap.mpr ⟨e, he, hr⟩)
  obtain ⟨name, hdrivable, rfl⟩ := List.mem_map.mp hs
  exact hname ▸ hdrivable

theorem countP_shares {processes : List (List Statement)} {shares : List (List String)}
    {name : String}
    (h : List.Forall₂ (fun body share => ∀ name, name ∈ Statement.assignedAll body ↔ name ∈ share)
      processes shares) :
    processes.countP (fun body => name ∈ Statement.assignedAll body) = shares.countP fun share =>
      name ∈ share := by
  induction h with
  | nil => rfl
  | cons hbody _ ih =>
      rw [List.countP_cons, List.countP_cons, ih]
      simp [hbody name]

theorem exists_share {processes : List (List Statement)} {shares : List (List String)}
    {body : List Statement}
    (h : List.Forall₂ (fun body share => ∀ name, name ∈ Statement.assignedAll body ↔ name ∈ share)
      processes shares)
    (hbody : body ∈ processes) :
    ∃ share ∈ shares, ∀ name, name ∈ Statement.assignedAll body ↔ name ∈ share := by
  induction h with
  | nil => exact absurd hbody List.not_mem_nil
  | cons hfirst _ ih =>
      rcases List.mem_cons.mp hbody with rfl | hbody
      · exact ⟨_, List.mem_cons_self, hfirst⟩
      · obtain ⟨share, hshare, hassigned⟩ := ih hbody
        exact ⟨share, List.mem_cons_of_mem _ hshare, hassigned⟩

theorem Tiled.drivenOnce (h : m.Tiled a shares) (hdistinct : (m.signals.map Prod.fst).Nodup) :
    m.DrivenOnce a where
  outputs := by
    intro p hp hdirection i hi
    have hname : p.name ∈ m.drivable :=
      List.mem_append_left _
        (List.mem_map_of_mem (List.mem_filter.mpr ⟨hp, by simpa using hdirection⟩))
    have hsignal : (p.name, p.width) ∈ m.signals :=
      List.mem_append_left _ (List.mem_map.mpr ⟨p, hp, rfl⟩)
    exact h.driven hdistinct hname (width?_of_mem hdistinct hsignal) hi
  nets := by
    intro d hd hstorage i hi
    have hname : d.name ∈ m.drivable :=
      List.mem_append_right _
        (List.mem_map_of_mem (List.mem_filter.mpr ⟨hd, by simpa using hstorage⟩))
    have hsignal : (d.name, d.width) ∈ m.signals :=
      List.mem_append_right _ (List.mem_map.mpr ⟨d, hd, rfl⟩)
    exact h.driven hdistinct hname (width?_of_mem hdistinct hsignal) hi
  registers := by
    intro d hd hstorage
    have hmem : d.name ∈ m.storage :=
      List.mem_map_of_mem (List.mem_filter.mpr ⟨hd, by simpa using hstorage⟩)
    have hcount : (shares.flatMap id).countP (fun other => other = d.name) = 1 := by
      rw [List.flatMap_id, ← h.storage,
        ← List.count_eq_one_of_mem (hdistinct.sublist storage_sublist) hmem]
      exact List.countP_congr (by simp)
    rw [countP_shares h.shares, ← countP_of_flatMap hcount]
    exact List.countP_congr (by simp)
  stored := by
    intro d hd hstorage e he r hr
    have hmem : d.name ∈ m.storage :=
      List.mem_map_of_mem (List.mem_filter.mpr ⟨hd, by simpa using hstorage⟩)
    exact drivable_ne_storage hdistinct (h.name_piece he hr) hmem
  inputs := by
    intro p hp hdirection e he r hr
    have hmem : p.name ∈ m.inputs :=
      List.mem_map_of_mem (List.mem_filter.mpr ⟨hp, by simpa using hdirection⟩)
    exact input_ne_drivable hdistinct hmem (h.name_piece he hr)
  processes := by
    intro body hbody name hname
    obtain ⟨share, hshare, hassigned⟩ := exists_share h.shares hbody
    have hmem : name ∈ m.storage := by
      rw [h.storage]
      exact List.mem_flatten.mpr ⟨share, hshare, (hassigned name).mp hname⟩
    obtain ⟨d, hd, hdname⟩ := List.mem_map.mp hmem
    obtain ⟨hd, hreg⟩ := List.mem_filter.mp hd
    exact ⟨d, hd, by simpa using hreg, hdname⟩
  targets := h.targets

/-! ## Shapes of modules -/

theorem drivable_of_nets (h : ∀ d ∈ Item.declsOf m.items, d.storage = .net) :
    m.drivable = (m.ports.filter fun p => p.direction = .output).map Port.name ++
      (Item.declsOf m.items).map Decl.name := by
  rw [drivable, List.filter_eq_self.mpr fun d hd => decide_eq_true (h d hd)]

theorem storage_of_nets (h : ∀ d ∈ Item.declsOf m.items, d.storage = .net) : m.storage = [] := by
  rw [storage, List.map_eq_nil_iff, List.filter_eq_nil_iff]
  intro d hd
  simp [h d hd]

theorem sources_of_leaf {assigns : List Assign} (hleaf : Item.instancesOf m.items = [])
    (hassigns : m.circuit.assigns = assigns) : m.sources a = assigns.map Assign.target := by
  have hdrives : Item.drivesOf m.items = assigns := hassigns
  rw [sources, hdrives, hleaf, List.flatMap_nil, List.append_nil]

theorem pieces_idents (names : List String) :
    (names.map Expr.ident).flatMap (Expr.pieces m.width?) = names.map m.whole := by
  rw [List.flatMap_map, List.map_eq_flatMap]
  rfl

/-- A module that drives signals as wholes. -/
theorem Tiled.of_names {names : List String} (hsources : m.sources a = names.map Expr.ident)
    (hnames : names.Perm m.drivable) (hstorage : m.storage = shares.flatten)
    (hshares : List.Forall₂
      (fun body share => ∀ name, name ∈ Statement.assignedAll body ↔ name ∈ share)
      (Item.processesOf m.items) shares) : m.Tiled a shares where
  tiles := by
    rw [hsources, pieces_idents]
    exact .of_perm (hnames.map _)
  targets := by
    rw [hsources]
    exact List.forall_mem_map.mpr fun _ _ => rfl
  storage := hstorage
  shares := hshares

/-- A module without registers that drives some signals part by part, and the others as wholes. -/
theorem Tiled.of_parts {parts : List Expr} {split names : List String}
    (hprocesses : Item.processesOf m.items = []) (hstorage : m.storage = [])
    (hsources : (m.sources a).Perm (parts ++ names.map Expr.ident))
    (htargets : ∀ e ∈ parts, e.isLvalue = true)
    (htiles : Tiles (parts.flatMap (Expr.pieces m.width?)) (split.map m.whole))
    (hnames : (split ++ names).Perm m.drivable) : m.Tiled a [] where
  tiles := by
    refine Tiles.trans (.of_perm (hsources.flatMap_right _)) ?_
    rw [List.flatMap_append, pieces_idents]
    refine (htiles.append (.of_perm (List.Perm.refl _))).trans ?_
    rw [← List.map_append]
    exact .of_perm (hnames.map _)
  targets := by
    intro e he
    rcases List.mem_append.mp (hsources.mem_iff.mp he) with he | he
    · exact htargets e he
    · obtain ⟨name, -, rfl⟩ := List.mem_map.mp he
      rfl
  storage := hstorage
  shares := by
    rw [hprocesses]
    exact .nil

/--
A module without registers that drives the ready bits of its channels one by
one, and other outputs as wholes.
-/
theorem Tiled.of_lanes {size : Nat} {outputs : List (String × Expr)} {ready : Nat → Expr}
    (hleaf : Item.instancesOf m.items = []) (hprocesses : Item.processesOf m.items = [])
    (hstorage : m.storage = [])
    (hassigns : m.circuit.assigns = outputs.map (fun o => ⟨.ident o.1, o.2⟩) ++
      (List.range size).map fun i => ⟨Expr.select "ins_ready" size i 1, ready i⟩)
    (hready : m.width? "ins_ready" = some size)
    (hnames : ("ins_ready" :: outputs.map Prod.fst).Perm m.drivable) : m.Tiled a [] := by
  have hsources : (m.sources a).Perm
      (((List.range size).map fun i => Expr.select "ins_ready" size i 1) ++
      (outputs.map Prod.fst).map Expr.ident) := by
    rw [sources_of_leaf hleaf hassigns, List.map_append, List.map_map, List.map_map, List.map_map]
    exact List.perm_append_comm
  have hlanes : ((List.range size).map fun i => Expr.select "ins_ready" size i 1).flatMap
      (Expr.pieces m.width?) =
      (List.range size).map fun i => ⟨"ins_ready", i * 1, 1⟩ := by
    rw [List.flatMap_map, List.map_eq_flatMap]
    refine List.flatMap_congr fun i _ => ?_
    rw [Expr.pieces_select hready, Nat.mul_one]
  have hwhole : ["ins_ready"].map m.whole = [⟨"ins_ready", 0, size * 1⟩] := by
    rw [List.map_singleton, whole, hready, Nat.mul_one]
    rfl
  have htiles := Tiles.channels "ins_ready" 1 size
  rw [← hlanes, ← hwhole] at htiles
  exact .of_parts hprocesses hstorage hsources
    (List.forall_mem_map.mpr fun i _ => Expr.isLvalue_select _ _ _ _) htiles hnames

/--
A module of one channel with a slot: one register says whether the slot is full,
and one holds the payload.
-/
theorem Tiled.of_slot {width : Nat} {flag : String} {ready valid outs : Expr}
    {flagged stored : List Statement} (hports : m.ports = passThroughPorts 1 width)
    (hleaf : Item.instancesOf m.items = [])
    (hdecls : Item.declsOf m.items = [Decl.reg 1 flag] ++ ifData width [Decl.reg width "data_reg"])
    (hassigns : m.circuit.assigns = [⟨.ident "ins_ready", ready⟩, ⟨.ident "outs_valid", valid⟩] ++
      ifData width [⟨.ident "outs", outs⟩])
    (hprocesses : m.circuit.processes = [flagged] ++ ifData width [stored])
    (hflag : ∀ name, name ∈ Statement.assignedAll flagged ↔ name ∈ [flag])
    (hdata : ∀ name, name ∈ Statement.assignedAll stored ↔ name ∈ ["data_reg"]) :
    m.Tiled a ([[flag]] ++ ifData width [["data_reg"]]) := by
  have hsources : m.sources a =
      (["ins_ready", "outs_valid"] ++ ifData width ["outs"]).map Expr.ident := by
    rw [sources_of_leaf hleaf hassigns]
    by_cases hw : 0 < width <;> simp [ifData, hw]
  have hdrivable : m.drivable = ["ins_ready"] ++ ifData width ["outs"] ++ ["outs_valid"] := by
    rw [drivable, hdecls, ports_passThrough hports]
    by_cases hw : 0 < width <;> simp [ifData, hw, clockPorts, Port.input, Decl.reg]
  have hstorage : m.storage = ([[flag]] ++ ifData width [["data_reg"]]).flatten := by
    rw [Module.storage, hdecls]
    by_cases hw : 0 < width <;> simp [ifData, hw, Decl.reg]
  refine .of_names hsources ?_ hstorage ?_
  · rw [hdrivable]
    unfold ifData
    split <;> decide
  · rw [show Item.processesOf m.items = [flagged] ++ ifData width [stored] from hprocesses]
    unfold ifData
    split
    · exact .cons hflag (.cons hdata .nil)
    · exact .cons hflag .nil

end Module

end Handshake
