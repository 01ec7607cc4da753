import Mathlib.Data.List.Chain
import Mathlib.Data.List.Forall2

/-!
# Elastic pipelines

An elastic pipeline is a row of stages that advance together, whenever the last
one is empty or its consumer is ready, and that a reset empties. `Pipeline`
names what can be seen of one, and `Pipeline.Steps` is the law of its clock
edges. Nothing is said here about what implements it.

Tokens are followed through the stages by their origin: the moment in which they
were accepted. Between two resets, what was accepted is what was delivered, in
the same order, followed by what is still inside (`conserved`). So the `k`-th
delivery is of the token accepted as the `k`-th, and the pipeline never holds
more tokens than it has stages.
-/

namespace Handshake

/-- What can be seen of a pipeline in its states. Stages are counted from the entry. -/
structure Pipeline (σ : Type) where
  /-- The number of stages. -/
  depth : Nat
  /-- The pipeline is being reset. -/
  reset : σ → Bool
  /-- A token is offered at the entry. -/
  offered : σ → Bool
  /-- The consumer takes what the last stage holds. -/
  ready : σ → Bool
  /-- A stage holds a token. -/
  occupied : Nat → σ → Bool
  /-- What a stage holds is what was offered in another state. -/
  carries : Nat → σ → σ → Prop

namespace Pipeline

variable {σ : Type} (p : Pipeline σ)

/-- The last stage holds a token. -/
def full (s : σ) : Bool := p.occupied (p.depth - 1) s

/-- The stages advance. -/
def enabled (s : σ) : Bool := !p.full s || p.ready s

/-- A token enters. -/
def accepts (s : σ) : Bool := p.offered s && p.enabled s

/-- A token leaves. -/
def delivers (s : σ) : Bool := p.full s && p.ready s

/-- What a clock edge does: it empties the stages, moves them on, or leaves them as they are. -/
structure Steps (s t : σ) : Prop where
  emptied : p.reset s = true → ∀ i < p.depth, p.occupied i t = false
  entered : p.reset s = false → p.enabled s = true →
    p.occupied 0 t = p.offered s ∧ (p.offered s = true → p.carries 0 t s)
  moved : p.reset s = false → p.enabled s = true → ∀ i, i + 1 < p.depth →
    p.occupied (i + 1) t = p.occupied i s ∧ ∀ o, p.carries i s o → p.carries (i + 1) t o
  stalled : p.reset s = false → p.enabled s = false → ∀ i < p.depth,
    p.occupied i t = p.occupied i s ∧ ∀ o, p.carries i s o → p.carries i t o

variable {p} in
/-- Steps from a law for the valid bits of all stages, and what happens to their contents. -/
theorem Steps.of_stages {s t : σ} (hdepth : 0 < p.depth)
    (hoccupied : ∀ i < p.depth, p.occupied i t =
      if p.reset s then false
      else if p.enabled s then (if i = 0 then p.offered s else p.occupied (i - 1) s)
      else p.occupied i s)
    (hentered : p.enabled s = true → p.offered s = true → p.carries 0 t s)
    (hmoved : p.enabled s = true → ∀ i, i + 1 < p.depth → ∀ o, p.carries i s o →
      p.carries (i + 1) t o)
    (hstalled : p.enabled s = false → ∀ i < p.depth, ∀ o, p.carries i s o → p.carries i t o) :
    p.Steps s t where
  emptied hreset i hi := by
    rw [hoccupied i hi, hreset, if_pos rfl]
  entered hreset hen := by
    refine ⟨?_, hentered hen⟩
    rw [hoccupied 0 hdepth, hreset, hen, if_neg Bool.false_ne_true, if_pos rfl, if_pos rfl]
  moved hreset hen i hi := by
    refine ⟨?_, hmoved hen i hi⟩
    rw [hoccupied (i + 1) hi, hreset, hen, if_neg Bool.false_ne_true, if_pos rfl,
      if_neg (Nat.succ_ne_zero i), Nat.add_sub_cancel]
  stalled hreset hen i hi := by
    refine ⟨?_, hstalled hen i hi⟩
    rw [hoccupied i hi, hreset, hen, if_neg Bool.false_ne_true, if_neg Bool.false_ne_true]

/-! ## Tokens -/

/-- A moment: a state, and when it was. -/
abbrev Moment (σ : Type) : Type := σ × Nat

/-- The moments in which something is the case. -/
def momentsFrom (time : Nat) (holds : σ → Bool) (states : List σ) : List (Moment σ) :=
  (states.zipIdx time).filter fun moment => holds moment.1

theorem momentsFrom_cons (time : Nat) (holds : σ → Bool) (s : σ) (rest : List σ) :
    momentsFrom time holds (s :: rest) =
      (if holds s then [(s, time)] else []) ++ momentsFrom (time + 1) holds rest := by
  unfold momentsFrom
  rw [List.zipIdx_cons, List.filter_cons]
  split <;> rfl

/-- The origins of the tokens in the stages: those that are in a state, at a time. -/
structure Tracks (slots : List (Option (Moment σ))) (s : σ) (time : Nat) : Prop where
  occupied : ∀ (i : Nat) slot, slots[i]? = some slot → p.occupied i s = slot.isSome
  carries : ∀ (i : Nat) (origin : Moment σ), slots[i]? = some (some origin) → p.carries i s origin.1
  earlier : ∀ (i : Nat) (origin : Moment σ), slots[i]? = some (some origin) → origin.2 < time

/-- The origins of the tokens inside, the one that leaves first in front. -/
def inside (slots : List (Option (Moment σ))) : List (Moment σ) := slots.reverse.filterMap id

theorem inside_advance (slot last : Option (Moment σ)) (slots : List (Option (Moment σ))) :
    inside (slots ++ [last]) ++ slot.toList = last.toList ++ inside (slot :: slots) := by
  cases slot <;> cases last <;> simp [inside]

theorem length_inside (slots : List (Option (Moment σ))) :
    (inside slots).length ≤ slots.length := by
  unfold inside
  exact (List.length_filterMap_le id slots.reverse).trans_eq (List.length_reverse)

variable {p}

/-- An advance puts what is offered into the first stage, and moves all others on. -/
theorem Steps.tracks_advance {s t : σ} (h : p.Steps s t) (hreset : p.reset s = false)
    (hen : p.enabled s = true) {slots : List (Option (Moment σ))} {last : Option (Moment σ)}
    {time : Nat} (hlength : (slots ++ [last]).length = p.depth)
    (hs : p.Tracks (slots ++ [last]) s time) :
    p.Tracks ((if p.offered s then some (s, time) else none) :: slots) t (time + 1) := by
  obtain ⟨hfirst, hcarried⟩ := h.entered hreset hen
  -- a slot that moves on is not the last one
  have hold : ∀ i slot, slots[i]? = some slot →
      (slots ++ [last])[i]? = some slot ∧ i + 1 < p.depth := by
    intro i slot hslot
    have hi : i < slots.length := (List.getElem?_eq_some_iff.mp hslot).1
    rw [List.getElem?_append_left hi]
    rw [List.length_append, List.length_singleton] at hlength
    exact ⟨hslot, by omega⟩
  have hnew : ∀ origin, (if p.offered s then some (s, time) else none) = some origin →
      p.offered s = true ∧ (s, time) = origin := by
    intro origin horigin
    cases hoffered : p.offered s with
    | false => simp [hoffered] at horigin
    | true => exact ⟨rfl, by simpa [hoffered] using horigin⟩
  constructor
  · intro i slot hslot
    cases i with
    | zero =>
        rw [List.getElem?_cons_zero, Option.some.injEq] at hslot
        rw [hfirst, ← hslot]
        cases p.offered s <;> rfl
    | succ i =>
        rw [List.getElem?_cons_succ] at hslot
        obtain ⟨hslot, hi⟩ := hold i slot hslot
        rw [(h.moved hreset hen i hi).1, hs.occupied i slot hslot]
  · intro i origin hslot
    cases i with
    | zero =>
        rw [List.getElem?_cons_zero, Option.some.injEq] at hslot
        obtain ⟨hoffered, rfl⟩ := hnew origin hslot
        exact hcarried hoffered
    | succ i =>
        rw [List.getElem?_cons_succ] at hslot
        obtain ⟨hslot, hi⟩ := hold i _ hslot
        exact (h.moved hreset hen i hi).2 _ (hs.carries i origin hslot)
  · intro i origin hslot
    cases i with
    | zero =>
        rw [List.getElem?_cons_zero, Option.some.injEq] at hslot
        obtain ⟨-, rfl⟩ := hnew origin hslot
        exact Nat.lt_succ_self time
    | succ i =>
        rw [List.getElem?_cons_succ] at hslot
        obtain ⟨hslot, -⟩ := hold i _ hslot
        exact Nat.lt_succ_of_lt (hs.earlier i origin hslot)

theorem Steps.tracks_stall {s t : σ} (h : p.Steps s t) (hreset : p.reset s = false)
    (hen : p.enabled s = false) {slots : List (Option (Moment σ))} {time : Nat}
    (hlength : slots.length = p.depth) (hs : p.Tracks slots s time) :
    p.Tracks slots t (time + 1) := by
  have hstage : ∀ i slot, slots[i]? = some slot → i < p.depth := fun i slot hslot =>
    hlength ▸ (List.getElem?_eq_some_iff.mp hslot).1
  constructor
  · intro i slot hslot
    rw [(h.stalled hreset hen i (hstage i slot hslot)).1, hs.occupied i slot hslot]
  · intro i origin hslot
    exact (h.stalled hreset hen i (hstage i _ hslot)).2 _ (hs.carries i origin hslot)
  · intro i origin hslot
    exact Nat.lt_succ_of_lt (hs.earlier i origin hslot)

/-- A delivery is of an earlier moment, and what the last stage holds is what was offered then. -/
def Matches (p : Pipeline σ) (delivery origin : Moment σ) : Prop :=
  origin.2 < delivery.2 ∧ p.carries (p.depth - 1) delivery.1 origin.1

/--
**Between resets, no token is lost, duplicated or overtaken.** What was inside,
followed by what is accepted, is what is delivered, followed by what is inside
in the end.
-/
theorem conserved {states : List σ} (hsteps : states.IsChain p.Steps)
    (hreset : ∀ s ∈ states, p.reset s = false) {slots : List (Option (Moment σ))} {time : Nat}
    (hdepth : 0 < p.depth) (hlength : slots.length = p.depth)
    (htracks : ∀ s ∈ states.head?, p.Tracks slots s time) :
    ∃ origins remaining, List.Forall₂ p.Matches (momentsFrom time p.delivers states) origins ∧
      inside slots ++ momentsFrom time p.accepts states = origins ++ inside remaining ∧
      remaining.length = p.depth := by
  induction states generalizing slots time with
  | nil =>
      refine ⟨[], slots, List.Forall₂.nil, ?_, hlength⟩
      rw [momentsFrom, List.zipIdx_nil, List.filter_nil, List.append_nil, List.nil_append]
  | cons s rest ih =>
      obtain ⟨hnext, hrest⟩ := List.isChain_cons.mp hsteps
      obtain ⟨hs, hresets⟩ := List.forall_mem_cons.mp hreset
      have hnow := htracks s rfl
      have hne : slots ≠ [] := fun hnil => by
        rw [hnil] at hlength; exact absurd hlength (Nat.ne_of_lt hdepth)
      obtain ⟨front, last, rfl⟩ := List.eq_nil_or_concat' slots |>.resolve_left hne
      have hlast : (front ++ [last])[p.depth - 1]? = some last := by
        rw [← hlength, List.length_append, List.length_singleton, Nat.add_sub_cancel]
        exact List.getElem?_concat_length
      have hfull : p.full s = last.isSome := hnow.occupied _ _ hlast
      rw [momentsFrom_cons, momentsFrom_cons]
      cases hen : p.enabled s with
      | false =>
          -- a stall: the last stage holds a token, and its consumer is not ready
          have hready : p.ready s = false := by
            cases hr : p.ready s with
            | false => rfl
            | true => simp [enabled, hr] at hen
          obtain ⟨origins, remaining, hmatch, hcons, hlen⟩ :=
            ih hrest hresets hlength fun t ht => (hnext t ht).tracks_stall hs hen hlength hnow
          refine ⟨origins, remaining, ?_, ?_, hlen⟩
          · simpa [delivers, hready] using hmatch
          · simpa [accepts, hen] using hcons
      | true =>
          -- an advance: the token in the last stage leaves, if there is one, and what
          -- is offered enters
          have hlength' : ((if p.offered s then some (s, time) else none) :: front).length =
              p.depth := by
            rw [← hlength, List.length_append, List.length_singleton, List.length_cons]
          obtain ⟨origins, remaining, hmatch, hcons, hlen⟩ :=
            ih hrest hresets hlength' fun t ht => (hnext t ht).tracks_advance hs hen hlength hnow
          refine ⟨last.toList ++ origins, remaining, ?_, ?_, hlen⟩
          · cases last with
            | none => simpa [delivers, hfull] using hmatch
            | some origin =>
                have hready : p.ready s = true := by simpa [enabled, hfull] using hen
                have hfirst : p.Matches (s, time) origin :=
                  ⟨hnow.earlier _ origin hlast, hnow.carries _ origin hlast⟩
                simpa [delivers, hfull, hready] using ⟨hfirst, hmatch⟩
          · have hslot : (if p.accepts s then [(s, time)] else []) =
                (if p.offered s then some (s, time) else none).toList := by
              simp only [accepts, hen, Bool.and_true]
              cases p.offered s <;> rfl
            rw [hslot, ← List.append_assoc, inside_advance, List.append_assoc, hcons,
              List.append_assoc]

/-! ## Since the last reset -/

/-- The states after the last one in which there is a reset; all of them if there is none. -/
def sinceReset (reset : σ → Bool) (states : List σ) : List σ :=
  (states.reverse.takeWhile fun s => !reset s).reverse

theorem mem_of_mem_sinceReset {reset : σ → Bool} {states : List σ} {s : σ}
    (h : s ∈ sinceReset reset states) : s ∈ states :=
  List.mem_reverse.mp (List.takeWhile_subset _ (List.mem_reverse.mp h))

theorem not_reset_of_mem_sinceReset {reset : σ → Bool} {states : List σ} {s : σ}
    (h : s ∈ sinceReset reset states) : reset s = false := by
  have hall : (states.reverse.takeWhile fun s => !reset s).all (fun s => !reset s) = true :=
    List.all_takeWhile
  simpa using List.all_eq_true.mp hall s (List.mem_reverse.mp h)

theorem sinceReset_congr {reset other : σ → Bool} {states : List σ}
    (h : ∀ s ∈ states, reset s = other s) : sinceReset reset states = sinceReset other states := by
  have key : ∀ backwards : List σ, (∀ s ∈ backwards, reset s = other s) →
      (backwards.takeWhile fun s => !reset s) = backwards.takeWhile fun s => !other s := by
    intro backwards hall
    induction backwards with
    | nil => rfl
    | cons s rest ih =>
        obtain ⟨hs, hrest⟩ := List.forall_mem_cons.mp hall
        rw [List.takeWhile_cons, List.takeWhile_cons, hs, ih hrest]
  rw [sinceReset, sinceReset, key _ fun s hs => h s (List.mem_reverse.mp hs)]

/-- Before the states since the last reset there is a reset, or nothing. -/
theorem sinceReset_cases (reset : σ → Bool) (states : List σ) :
    sinceReset reset states = states ∨
      ∃ before s, states = before ++ [s] ++ sinceReset reset states ∧ reset s = true := by
  have hsplit : states = (states.reverse.dropWhile fun s => !reset s).reverse ++
      sinceReset reset states := by
    unfold sinceReset
    rw [← List.reverse_append, List.takeWhile_append_dropWhile, List.reverse_reverse]
  -- read backwards, the first state that is not skipped is the last reset
  cases hdrop : states.reverse.dropWhile fun s => !reset s with
  | nil =>
      rw [hdrop, List.reverse_nil, List.nil_append] at hsplit
      exact Or.inl hsplit.symm
  | cons s rest =>
      have hs : reset s = true := by
        have hhead := List.head?_dropWhile_not (fun s => !reset s) states.reverse
        simpa [hdrop] using hhead
      rw [hdrop, List.reverse_cons] at hsplit
      exact Or.inr ⟨rest.reverse, s, hsplit, hs⟩

theorem isChain_sinceReset {R : σ → σ → Prop} (reset : σ → Bool) {states : List σ}
    (h : states.IsChain R) : (sinceReset reset states).IsChain R := by
  rcases sinceReset_cases reset states with heq | ⟨before, s, heq, -⟩
  · rwa [heq]
  · rw [heq] at h
    exact (List.isChain_append.mp h).2.1

/-- Stages without tokens are tracked by empty slots. -/
theorem tracks_empty {s : σ} (h : ∀ i < p.depth, p.occupied i s = false) (time : Nat) :
    p.Tracks (List.replicate p.depth none) s time := by
  have hslot : ∀ (i : Nat) slot, (List.replicate p.depth none)[i]? = some slot →
      i < p.depth ∧ slot = (none : Option (Moment σ)) := by
    intro i slot hslot
    rw [List.getElem?_replicate] at hslot
    split at hslot
    · rename_i hi
      exact ⟨hi, (Option.some.inj hslot).symm⟩
    · exact absurd hslot (by simp)
  constructor
  · intro i slot hi
    obtain ⟨hlt, rfl⟩ := hslot i slot hi
    rw [h i hlt]
    rfl
  · intro i origin hi
    exact absurd (hslot i _ hi).2 (by simp)
  · intro i origin hi
    exact absurd (hslot i _ hi).2 (by simp)

/-- In the first state after a reset all stages are empty. -/
theorem empty_sinceReset {states : List σ} (hsteps : states.IsChain p.Steps)
    (hstart : ∀ s ∈ states.head?, ∀ i < p.depth, p.occupied i s = false) :
    ∀ s ∈ (sinceReset p.reset states).head?, ∀ i < p.depth, p.occupied i s = false := by
  intro s hs
  rcases sinceReset_cases p.reset states with heq | ⟨before, r, heq, hreset⟩
  · rw [heq] at hs
    exact hstart s hs
  · rw [heq, List.append_assoc] at hsteps
    have hstep : p.Steps r s :=
      (List.isChain_cons.mp (List.isChain_append.mp hsteps).2.1).1 s hs
    exact hstep.emptied hreset

/--
Things enter and leave in the same order, each leaving later than it enters, in
a way that relates the two states; and at most `room` of them are inside in the
end.
-/
structure InOrder (states : List σ) (room : Nat) (enters leaves : σ → Bool)
    (related : σ → σ → Prop) : Prop where
  paired : ∀ (k : Nat) leaving, (momentsFrom 0 leaves states)[k]? = some leaving →
    ∃ entering, (momentsFrom 0 enters states)[k]? = some entering ∧ entering.2 < leaving.2 ∧
      related leaving.1 entering.1
  left_le : (momentsFrom 0 leaves states).length ≤ (momentsFrom 0 enters states).length
  entered_le : (momentsFrom 0 enters states).length ≤ (momentsFrom 0 leaves states).length + room

/--
**The `k`-th delivery since the last reset is of the token accepted as the
`k`-th.** The pipeline has accepted at least as many tokens as it has delivered,
and at most as many more as it has stages.
-/
theorem delivered_in_order {states : List σ} (hsteps : states.IsChain p.Steps)
    (hstart : ∀ s ∈ states.head?, ∀ i < p.depth, p.occupied i s = false) (hdepth : 0 < p.depth) :
    InOrder (sinceReset p.reset states) p.depth p.accepts p.delivers (p.carries (p.depth - 1)) := by
  obtain ⟨origins, remaining, hmatch, hcons, hlength⟩ :=
    conserved (isChain_sinceReset _ hsteps) (fun s hs => not_reset_of_mem_sinceReset hs) hdepth
      List.length_replicate
      fun s hs => tracks_empty (empty_sinceReset hsteps hstart s hs) 0
  -- nothing is inside at first, so what is accepted has been delivered or is inside at the end
  have hempty : inside (List.replicate p.depth (none : Option (Moment σ))) = [] := by simp [inside]
  rw [hempty, List.nil_append] at hcons
  have hcount := hmatch.length_eq
  have hinside := length_inside remaining
  have haccepted := congrArg List.length hcons
  rw [List.length_append] at haccepted
  refine ⟨fun k delivery hk => ?_, by omega, by omega⟩
  obtain ⟨hlt, hget⟩ := List.getElem?_eq_some_iff.mp hk
  have hlt' : k < origins.length := hcount ▸ hlt
  refine ⟨origins[k], ?_, ?_⟩
  · rw [hcons, List.getElem?_append_left hlt', List.getElem?_eq_getElem hlt']
  · rw [← hget]
    exact List.forall₂_iff_get.mp hmatch |>.2 k hlt hlt'

theorem mem_of_moment {time k : Nat} {holds : σ → Bool} {states : List σ} {moment : Moment σ}
    (h : (momentsFrom time holds states)[k]? = some moment) : moment.1 ∈ states :=
  List.fst_mem_of_mem_zipIdx (List.mem_filter.mp (List.mem_of_getElem? h)).1

theorem momentsFrom_congr {holds other : σ → Bool} {states : List σ}
    (h : ∀ s ∈ states, holds s = other s) (time : Nat) :
    momentsFrom time holds states = momentsFrom time other states := by
  exact List.filter_congr fun moment hmoment => h moment.1 (List.fst_mem_of_mem_zipIdx hmoment)

/--
What enters and leaves may be described in other words, as long as they agree on
the states in question.
-/
theorem InOrder.congr {states : List σ} {room : Nat} {enters leaves enters' leaves' : σ → Bool}
    {related related' : σ → σ → Prop} (h : InOrder states room enters leaves related)
    (henters : ∀ s ∈ states, enters' s = enters s) (hleaves : ∀ s ∈ states, leaves' s = leaves s)
    (hrelated : ∀ s ∈ states, ∀ o ∈ states, related s o → related' s o) :
    InOrder states room enters' leaves' related' := by
  have hin := momentsFrom_congr henters 0
  have hout := momentsFrom_congr hleaves 0
  refine ⟨fun k leaving hk => ?_, by rw [hin, hout]; exact h.left_le,
    by rw [hin, hout]; exact h.entered_le⟩
  rw [hout] at hk
  obtain ⟨entering, hentering, hlater, hrel⟩ := h.paired k leaving hk
  rw [hin]
  exact ⟨entering, hentering, hlater,
    hrelated _ (mem_of_moment hk) _ (mem_of_moment hentering) hrel⟩

section

variable {τ : Type} {f : τ → σ} {states : List τ}

theorem momentsFrom_map (time : Nat) (holds : σ → Bool) (f : τ → σ) (states : List τ) :
    momentsFrom time holds (states.map f) =
      (momentsFrom time (holds ∘ f) states).map (Prod.map f id) := by
  rw [momentsFrom, List.zipIdx_map, List.filter_map]
  rfl

theorem sinceReset_map (reset : σ → Bool) :
    sinceReset reset (states.map f) = (sinceReset (reset ∘ f) states).map f := by
  rw [sinceReset, sinceReset, ← List.map_reverse, List.takeWhile_map, List.map_reverse]
  rfl

/-- What enters and leaves a part of a system, seen from the system. -/
theorem InOrder.of_map {room : Nat} {enters leaves : σ → Bool} {related : σ → σ → Prop}
    (h : InOrder (states.map f) room enters leaves related) :
    InOrder states room (enters ∘ f) (leaves ∘ f) fun s o => related (f s) (f o) := by
  have hin := momentsFrom_map 0 enters f states
  have hout := momentsFrom_map 0 leaves f states
  obtain ⟨hpaired, hleft, hentered⟩ := h
  rw [hin, hout, List.length_map, List.length_map] at hleft hentered
  refine ⟨fun k leaving hk => ?_, hleft, hentered⟩
  obtain ⟨entering, hentering, hlater, hrelated⟩ :=
    hpaired k (Prod.map f id leaving) (by rw [hout]; simp [hk])
  rw [hin, List.getElem?_map] at hentering
  obtain ⟨origin, horigin, rfl⟩ := Option.map_eq_some_iff.mp hentering
  exact ⟨origin, horigin, hlater, hrelated⟩

end

/-! ## Pipelines side by side -/

/-- A pipeline inside a larger system, whose states are viewed as states of the pipeline. -/
def comap {τ : Type} (p : Pipeline σ) (view : τ → σ) : Pipeline τ where
  depth := p.depth
  reset := p.reset ∘ view
  offered := p.offered ∘ view
  ready := p.ready ∘ view
  occupied i := p.occupied i ∘ view
  carries i s o := p.carries i (view s) (view o)

theorem Steps.comap {τ : Type} {view : τ → σ} {s t : τ} (h : p.Steps (view s) (view t)) :
    (p.comap view).Steps s t where
  emptied := h.emptied
  entered := h.entered
  moved hreset hen i hi :=
    ⟨(h.moved hreset hen i hi).1, fun o => (h.moved hreset hen i hi).2 (view o)⟩
  stalled hreset hen i hi :=
    ⟨(h.stalled hreset hen i hi).1, fun o => (h.stalled hreset hen i hi).2 (view o)⟩

/-- Two pipelines of one depth are reset, fed and drained alike. -/
structure Together (p q : Pipeline σ) (s : σ) : Prop where
  depth : p.depth = q.depth
  reset : p.reset s = q.reset s
  offered : p.offered s = q.offered s
  ready : p.ready s = q.ready s

/-- Two pipelines hold tokens in the same stages. -/
def Aligned (p q : Pipeline σ) (s : σ) : Prop := ∀ i < p.depth, p.occupied i s = q.occupied i s

section

variable {q : Pipeline σ} {s t : σ}

theorem Aligned.full (h : p.Aligned q s) (htogether : p.Together q s) (hdepth : 0 < p.depth) :
    p.full s = q.full s := by
  rw [Pipeline.full, Pipeline.full, ← htogether.depth]
  exact h _ (by omega)

theorem Aligned.accepts (h : p.Aligned q s) (htogether : p.Together q s) (hdepth : 0 < p.depth) :
    p.accepts s = q.accepts s := by
  rw [Pipeline.accepts, Pipeline.accepts, enabled, enabled, htogether.offered, htogether.ready,
    h.full htogether hdepth]

theorem Aligned.delivers (h : p.Aligned q s) (htogether : p.Together q s) (hdepth : 0 < p.depth) :
    p.delivers s = q.delivers s := by
  rw [Pipeline.delivers, Pipeline.delivers, htogether.ready, h.full htogether hdepth]

/-- Aligned pipelines advance under the same condition, so a clock edge keeps them aligned. -/
theorem Aligned.step (h : p.Aligned q s) (htogether : p.Together q s) (hp : p.Steps s t)
    (hq : q.Steps s t) : p.Aligned q t := by
  intro i hi
  have hi' : i < q.depth := htogether.depth ▸ hi
  -- whether a pipeline advances depends on its last stage, and these are aligned
  have hen : p.enabled s = q.enabled s := by
    rw [enabled, enabled, htogether.ready, h.full htogether (by omega)]
  cases hreset : p.reset s with
  | true => rw [hp.emptied hreset i hi, hq.emptied (htogether.reset ▸ hreset) i hi']
  | false =>
      have hreset' : q.reset s = false := htogether.reset ▸ hreset
      cases hadvance : p.enabled s with
      | false =>
          rw [(hp.stalled hreset hadvance i hi).1,
            (hq.stalled hreset' (hen ▸ hadvance) i hi').1, h i hi]
      | true =>
          cases i with
          | zero =>
              rw [(hp.entered hreset hadvance).1, (hq.entered hreset' (hen ▸ hadvance)).1,
                htogether.offered]
          | succ i =>
              rw [(hp.moved hreset hadvance i hi).1, (hq.moved hreset' (hen ▸ hadvance) i hi').1,
                h i (by omega)]

end

/-- **Pipelines that are reset, fed and drained alike stay aligned, whatever stalls.** -/
theorem aligned_of_together {q : Pipeline σ} {states : List σ}
    (htogether : ∀ s ∈ states, p.Together q s) (hp : states.IsChain p.Steps)
    (hq : states.IsChain q.Steps) (hstart : ∀ s ∈ states.head?, p.Aligned q s) :
    ∀ s ∈ states, p.Aligned q s := by
  induction states with
  | nil => simp
  | cons s rest ih =>
      obtain ⟨hnow, hlater⟩ := List.forall_mem_cons.mp htogether
      obtain ⟨hpnext, hprest⟩ := List.isChain_cons.mp hp
      obtain ⟨hqnext, hqrest⟩ := List.isChain_cons.mp hq
      have hs := hstart s rfl
      refine List.forall_mem_cons.mpr ⟨hs, ih hlater hprest hqrest fun t ht => ?_⟩
      exact hs.step hnow (hpnext t ht) (hqnext t ht)

end Pipeline

end Handshake
