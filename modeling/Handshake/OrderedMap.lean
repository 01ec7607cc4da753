import Handshake.Lookup

/-!
# Maps in order of insertion

A map from names to values whose order can be seen: entries stand in the order
in which they were last inserted. Inserting under a name that is present drops
the old entry, and the new one goes to the end.

Both the parameters of a request and its extra signals are such maps, and for
the latter the order is that of bits on a bus. A map is read from JSON by
inserting fields one by one, so of fields with one name the last one counts. The
entries come with the proof that no name occurs twice.
-/

namespace Handshake

/-- A map from names to values, in order of insertion. -/
structure OrderedMap (α : Type) where
  /-- The entries, in order. -/
  entries : List (String × α)
  /-- Each name has one entry. -/
  nodup : (entries.map Prod.fst).Nodup
deriving DecidableEq

namespace OrderedMap

variable {α : Type}

/-- The map without entries. -/
def empty : OrderedMap α := ⟨[], by simp⟩

/-- The value under a name. -/
def get? (m : OrderedMap α) (name : String) : Option α := m.entries.lookup name

/-- Whether a name has an entry. -/
def contains (m : OrderedMap α) (name : String) : Bool := (m.get? name).isSome

/-- The entries under other names. -/
def others (entries : List (String × α)) (name : String) : List (String × α) :=
  entries.filter fun entry => entry.1 != name

theorem nodup_insert {entries : List (String × α)} (h : (entries.map Prod.fst).Nodup)
    (name : String) (value : α) :
    ((others entries name ++ [(name, value)]).map Prod.fst).Nodup := by
  rw [List.map_append, List.nodup_append]
  refine ⟨?_, by simp, ?_⟩
  · exact h.sublist (List.filter_sublist.map Prod.fst)
  · intro a ha b hb
    obtain ⟨entry, hentry, rfl⟩ := List.mem_map.mp ha
    obtain rfl := List.mem_singleton.mp hb
    have hne := (List.mem_filter.mp hentry).2
    simpa using hne

/-- Puts a value under a name, at the end. -/
def insert (m : OrderedMap α) (name : String) (value : α) : OrderedMap α :=
  ⟨others m.entries name ++ [(name, value)], nodup_insert m.nodup name value⟩

theorem lookup_insert (entries : List (String × α)) (name other : String) (value : α) :
    (others entries name ++ [(name, value)]).lookup other =
      if other = name then some value else entries.lookup other := by
  induction entries with
  | nil => exact lookup_cons other name value []
  | cons entry rest ih =>
    obtain ⟨key, old⟩ := entry
    by_cases hkey : key = name
    · subst hkey
      have hdrop : others ((key, old) :: rest) key = others rest key := by simp [others]
      rw [hdrop, ih, lookup_cons]
      split <;> rfl
    · have hkeep : others ((key, old) :: rest) name = (key, old) :: others rest name := by
        simp [others, hkey]
      rw [hkeep, List.cons_append, lookup_cons, ih, lookup_cons]
      by_cases h : other = key
      · subst h
        rw [if_pos rfl, if_neg hkey, if_pos rfl]
      · rw [if_neg h, if_neg h]

/-- The value inserted last under a name is the one found, and other names keep theirs. -/
theorem get?_insert (m : OrderedMap α) (name other : String) (value : α) :
    (m.insert name value).get? other = if other = name then some value else m.get? other :=
  lookup_insert m.entries name other value

end OrderedMap

end Handshake
