/-!
# Reading a computation that succeeded

A computation in steps succeeds if every step does, so from its success one
learns the outcome of each step in turn.

Generators, accessors and the simulator are all written as such computations.
Statements about them begin with a success and take it apart from the front
(`bind_ok`), or establish it step by step (`bind_ok_of`); where only the
existence of a result matters, `exists_bind_ok` does both at once. A computation
on fixed inputs can be evaluated, as an option, and `eq_ok_of_mem_toOption`
turns what comes out into a success.
-/

namespace Handshake

variable {ε α β : Type}

/-- A step and what follows it have both succeeded. -/
theorem bind_ok {x : Except ε α} {f : α → Except ε β} {r : β} (h : x >>= f = .ok r) :
    ∃ a, x = .ok a ∧ f a = .ok r := by
  cases x with
  | error e => exact absurd h (by simp [bind, Except.bind])
  | ok a => exact ⟨a, rfl, h⟩

/-- A step and what follows it both succeed. -/
theorem bind_ok_of {x : Except ε α} {f : α → Except ε β} {a : α} {r : β} (hx : x = .ok a)
    (hf : f a = .ok r) : x >>= f = .ok r := by
  subst hx
  exact hf

theorem bind_eq_ok_iff {x : Except ε α} {f : α → Except ε β} {r : β} :
    x >>= f = .ok r ↔ ∃ a, x = .ok a ∧ f a = .ok r :=
  ⟨bind_ok, fun ⟨_, hx, hf⟩ => bind_ok_of hx hf⟩

/-- A computation in steps gives something if its first step does, and so does what follows it. -/
theorem exists_bind_ok {x : Except ε α} {f : α → Except ε β} :
    (∃ r, x >>= f = .ok r) ↔ ∃ a, x = .ok a ∧ ∃ r, f a = .ok r := by
  constructor
  · rintro ⟨r, h⟩
    obtain ⟨a, ha, hr⟩ := bind_ok h
    exact ⟨a, ha, r, hr⟩
  · rintro ⟨a, rfl, r, hr⟩
    exact ⟨r, hr⟩

/-- What follows a step that succeeds. -/
@[simp] theorem ok_bind (a : α) (f : α → Except ε β) : (Except.ok a >>= f) = f a := rfl

@[simp] theorem pure_eq_ok (a : α) : (pure a : Except ε α) = .ok a := rfl

theorem eq_ok_of_mem_toOption {ε α : Type} {x : Except ε α} {a : α} (h : a ∈ x.toOption) :
    x = .ok a := by
  cases x with
  | error e => exact absurd h (by simp [Except.toOption])
  | ok b => exact congrArg Except.ok (Option.some.inj h)

end Handshake
