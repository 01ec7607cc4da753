import Handshake.Proofs.Reading
import Handshake.Proofs.WrittenJson
import Handshake.Request

/-!
# Requests survive serialization

What is written for a parameter, for parameters and for a request denotes a JSON
value, and reading that value gives back what was written. Order is kept because
a map is read by inserting its fields one by one: no name comes twice, so every
field goes to the end and stays there.

Texts come in only through `Denotes`, by which a text stands for a value and is
parsed as that value. What remains is to relate values to parameters, in the
direction of writing (`json`) and in that of reading. Extra signals that have
been checked are listed in the map with their widths as integers, and are
accepted again when they are read.
-/

namespace Handshake

/-! ## Maps -/

namespace OrderedMap

variable {α : Type}

/-- A value under a new name goes behind the others. -/
theorem entries_insert_new {m : OrderedMap α} {name : String} (h : name ∉ m.entries.map Prod.fst)
    (value : α) : (m.insert name value).entries = m.entries ++ [(name, value)] := by
  have hothers : others m.entries name = m.entries := by
    refine List.filter_eq_self.mpr fun entry hentry => ?_
    have hne : entry.1 ≠ name := fun heq => h (List.mem_map.mpr ⟨entry, hentry, heq⟩)
    simpa using hne
  show others m.entries name ++ [(name, value)] = _
  rw [hothers]

/-- Entries under names that are new and distinct are inserted in their order. -/
theorem foldl_insert_new {β : Type} (key : β → String) (value : β → α) {xs : List β}
    {m : OrderedMap α} (h : (m.entries.map Prod.fst ++ xs.map key).Nodup) :
    (xs.foldl (fun m x => m.insert (key x) (value x)) m).entries =
      m.entries ++ xs.map fun x => (key x, value x) := by
  induction xs generalizing m with
  | nil => simp
  | cons x rest ih =>
      have hnew : key x ∉ m.entries.map Prod.fst := fun hin =>
        (List.nodup_append.mp h).2.2 _ hin _ List.mem_cons_self rfl
      have hentries := entries_insert_new hnew (value x)
      have hrest : ((m.insert (key x) (value x)).entries.map Prod.fst ++ rest.map key).Nodup := by
        rw [hentries]
        simpa using h
      rw [List.foldl_cons, ih hrest, hentries]
      simp

/-- Reading the fields of a map, each of which can be read, inserts them one by one. -/
theorem ofFields?_map {read : Json → Option α} {json : α → Json}
    (hread : ∀ v, read (json v) = some v) (entries : List (String × α)) :
    ofFields? read (entries.map fun e => (some e.1, json e.2)) =
      some (entries.foldl (fun m e => m.insert e.1 e.2) empty) := by
  have hfold : ∀ m : OrderedMap α,
      (entries.map fun e => (some e.1, json e.2)).foldlM
        (fun m (field : Option String × Json) => do
          return m.insert (← field.1) (← read field.2)) m =
      some (entries.foldl (fun m e => m.insert e.1 e.2) m) := by
    induction entries with
    | nil => exact fun _ => rfl
    | cons e rest ih =>
        intro m
        rw [List.map_cons, List.foldlM_cons]
        simp only [hread, Option.bind_eq_bind, Option.bind_some, Option.pure_def]
        exact ih _
  exact hfold empty

/-- **A map is read back with its entries in their order.** -/
theorem ofFields?_entries {read : Json → Option α} (json : α → Json)
    (hread : ∀ v, read (json v) = some v) (m : OrderedMap α) :
    ofFields? read (m.entries.map fun e => (some e.1, json e.2)) = some m := by
  have hnodup : ((empty : OrderedMap α).entries.map Prod.fst ++ m.entries.map Prod.fst).Nodup :=
    m.nodup
  have hentries := foldl_insert_new Prod.fst Prod.snd hnodup
  rw [ofFields?_map hread, Option.some.injEq]
  have heq : ∀ n : OrderedMap α, n.entries = m.entries → n = m := by
    rintro ⟨entries, _⟩ rfl
    rfl
  refine heq _ (hentries.trans ?_)
  simp [empty]

end OrderedMap

/-! ## Parameters -/

theorem int64?_toInt (i : Int64) : int64? i.toInt = some i := by
  rw [int64?, if_pos ⟨i.minValue_le_toInt, i.toInt_le⟩, Int64.ofInt_toInt]

namespace ParamValue

/-- The JSON value of a parameter. -/
def json : ParamValue → Json
  | .bool b => .bool b
  | .int i => .integer i.toInt
  | .str s => .string (some s)
  | .signals m => .object (m.entries.map fun e => (some e.1, .integer e.2.toInt))

theorem denotes_toJson (value : ParamValue) : Json.Denotes value.toJson value.json := by
  cases value with
  | bool b => exact Json.denotes_writeBool b
  | int i => exact Json.denotes_writeInteger i.toInt
  | str s => exact Json.denotes_writeString s
  | signals m =>
      exact Json.denotes_writeObject (fun width : Int64 => Json.writeInteger width.toInt)
        (fun width => .integer width.toInt) m.entries fun e _ => Json.denotes_writeInteger e.2.toInt

theorem ofJson?_json (value : ParamValue) : ofJson? value.json = some value := by
  cases value with
  | bool b => rfl
  | int i => rw [json, ofJson?, int64?_toInt, Option.map_some]
  | str s => rfl
  | signals m =>
      have hread : ∀ width : Int64, integer? (.integer width.toInt) = some width := int64?_toInt
      rw [json, ofJson?, OrderedMap.ofFields?_entries (fun width : Int64 => .integer width.toInt)
        hread, Option.map_some]

end ParamValue

namespace Params

/-- The JSON value of parameters. -/
def json (p : Params) : Json := .object (p.entries.map fun e => (some e.1, e.2.json))

theorem denotes_toJson (p : Params) : Json.Denotes p.toJson p.json :=
  Json.denotes_writeObject ParamValue.toJson ParamValue.json p.entries fun e _ => e.2.denotes_toJson

theorem ofJson?_json (p : Params) : ofJson? p.json = some p :=
  OrderedMap.ofFields?_entries _ ParamValue.ofJson?_json p

end Params

/-! ## Extra signals -/

namespace ExtraSignals

/-- Extra signals as a signal map lists them. -/
def listed (extra : ExtraSignals) : SignalList :=
  extra.signals.map fun s => (s.name, (s.width : Int))

theorem declared_listed (extra : ExtraSignals) : extra.listed.declared = extra.signals := by
  simp [listed, SignalList.declared, Function.comp_def]

theorem width_lt (extra : ExtraSignals) : ∀ s ∈ extra.signals, s.width < countLimit := by
  have hsum : ∀ signals : List ExtraSignal, ∀ s ∈ signals, s.width ≤ sumWidths signals := by
    intro signals
    induction signals with
    | nil => exact fun s hs => absurd hs List.not_mem_nil
    | cons first rest ih =>
        rw [sumWidths]
        refine List.forall_mem_cons.mpr ⟨by omega, fun s hs => ?_⟩
        have := ih s hs
        omega
  exact fun s hs => Nat.lt_of_le_of_lt (hsum _ s hs) extra.fits

/-- Extra signals have been checked already. -/
theorem legal_listed (extra : ExtraSignals) : extra.listed.Legal := by
  have hwidths : ∀ s ∈ extra.listed, 1 ≤ s.2 ∧ s.2 ≤ 2 ^ 32 - 1 := by
    refine List.forall_mem_map.mpr fun s hs => ?_
    have hpos := (extra.declarable.1 s hs).2
    have hlt := extra.width_lt s hs
    unfold countLimit UInt32.size at hlt
    dsimp only
    omega
  have hfits := extra.fits
  have htotal := SignalList.sum_declared hwidths
  rw [declared_listed] at htotal
  unfold countLimit UInt32.size at hfits
  exact ⟨List.forall_mem_map.mpr fun s hs => (extra.declarable.1 s hs).1, hwidths, by omega⟩

end ExtraSignals

/-- Extra signals that are put under their key are listed there, in their order. -/
theorem Params.lists_set (p : Params) (extra : ExtraSignals) :
    (p.set .extraSignals (.ofExtraSignals extra)).Lists extra.listed := by
  have hfind : (p.set .extraSignals (.ofExtraSignals extra)).find? .extraSignals =
      some (.ofExtraSignals extra) :=
    (OrderedMap.get?_insert _ _ _ _).trans (if_pos rfl)
  refine Or.inr ⟨_, hfind, ?_⟩
  have hnodup : ((OrderedMap.empty : OrderedMap Int64).entries.map Prod.fst ++
      extra.signals.map ExtraSignal.name).Nodup := extra.declarable.2
  rw [OrderedMap.foldl_insert_new ExtraSignal.name (fun s => Int64.ofNat s.width) hnodup]
  simp only [OrderedMap.empty, List.nil_append, List.map_map]
  refine List.map_congr_left fun s hs => ?_
  have hlt := extra.width_lt s hs
  unfold countLimit UInt32.size at hlt
  rw [Function.comp_apply, Int64.toInt_ofNat_of_lt (by omega)]

/-! ## Requests -/

namespace Request

/-- The JSON value of a request. -/
def json (r : Request) : Json :=
  .object [(some "kind", .string (some r.kind)), (some "name", .string (some r.name)),
    (some "params", r.params.json)]

theorem denotes_toJson (r : Request) : Json.Denotes r.toJson r.json := by
  refine Json.denotes_writeObject Prod.fst
    Prod.snd [("kind", Json.writeString r.kind, Json.string (some r.kind)),
    ("name", Json.writeString r.name, .string (some r.name)),
    ("params", r.params.toJson, r.params.json)] ?_
  simp only [List.forall_mem_cons, List.not_mem_nil, false_imp_iff, implies_true, and_true]
  exact ⟨Json.denotes_writeString _, Json.denotes_writeString _, r.params.denotes_toJson⟩

theorem ofJson?_json (r : Request) : ofJson? r.json = some r := by
  simp [json, ofJson?, Draft.read, Draft.finish, textOf?, Params.ofJson?_json]

theorem parse_of_denotes {text : String} {r : Request} (h : Json.Denotes text r.json) :
    parse text = .ok r := by
  rw [parse, h.parse?, Option.bind_some, ofJson?_json]

end Request

/--
**Requests survive serialization.** Every request is read back from its JSON
text as it was, parameters and signals in their order. So extra signals that are
put among the parameters are what a reader of the text finds there.
-/
theorem requests_survive_serialization (request : Request) :
    Request.parse request.toJson = .ok request ∧
      ∀ extra : ExtraSignals, ∃ parsed,
        Request.parse ({ request with
          params := request.params.set .extraSignals (.ofExtraSignals extra) } : Request).toJson =
            .ok parsed ∧
          parsed.params.extraSignals = .ok extra := by
  have hparse : ∀ r : Request, Request.parse r.toJson = .ok r :=
    fun r => Request.parse_of_denotes r.denotes_toJson
  refine ⟨hparse request, fun extra => ⟨_, hparse _, Params.extraSignals_ok_iff.mpr ?_⟩⟩
  exact ⟨extra.listed, request.params.lists_set extra, extra.legal_listed,
    extra.declared_listed.symm⟩

end Handshake
