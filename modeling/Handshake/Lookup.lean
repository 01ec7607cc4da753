/-!
# Looking names up

Tables here are lists of pairs, and the first pair with a name is the one that
counts. `lookup_cons` says so as a choice between two propositions, which is the
form that case splits want.
-/

namespace Handshake

theorem lookup_cons {α : Type} (name key : String) (value : α) (rest : List (String × α)) :
    ((key, value) :: rest).lookup name = if name = key then some value else rest.lookup name := by
  by_cases h : name = key
  · subst h
    simp
  · have hbeq : (name == key) = false := by simpa using h
    rw [List.lookup_cons, hbeq, if_neg h]

end Handshake
