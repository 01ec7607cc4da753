import Mathlib.Data.List.Nodup
import Handshake.Proofs.Behaviour
import Handshake.Verilog.Wiring

/-!
# Chains of registers

Processes that clear a chain of registers, or move it on by one. The registers
of a chain are numbered, and different numbers make different names.

The delay of a valid bit, both kinds of stages of a delay line and the product
registers of the multiplier are such chains. What an edge does to one is said
here once, for bits that a reset clears (`next_bits`) and for data that it
leaves alone (`next_data`), from the laws of single statements: clearing makes
every register zero, and shifting gives each one what its predecessor held
before the edge, no matter in which order the registers are written.
-/

namespace Handshake

/-- The lowest bit of a signal. -/
def high (state : State) (name : String) : Bool := (state name).getLsbD 0

/-- A token is handed over at a handshake port: it is valid, and the other side is ready. -/
def transfers (port : String) (state : State) : Bool :=
  high state (port ++ "_valid") && high state (port ++ "_ready")

/-- Registers that hold nothing at the start are low in the first state. -/
theorem Circuit.Behaves.low_start {c : Circuit} {states : List State}
    (h : c.Behaves (fun _ => 0) states) {x : State} (hx : x ∈ states.head?) {name : String}
    (hname : name ∈ c.registers) : high x name = false := by
  rw [high, h.start x hx name hname]
  exact BitVec.getLsbD_zero

/-- A signal of one bit is zero or high. -/
theorem eq_zero_iff_not_high {widths : Widths} {state : State} (hfits : widths.Fits state)
    {name : String} (hname : widths.Declares name) (hwidth : widths.width name = 1) :
    state name = 0 ↔ high state name = false := by
  constructor
  · intro h
    simp [high, h]
  · intro h
    refine BitVec.eq_of_getLsbD_eq fun i _ => ?_
    rw [← hfits name hname, hwidth, Word.getLsbD_low]
    cases i with
    | zero => simpa [high] using h
    | succ i => simp

namespace Expr

theorem typed_bit (widths : Widths) (b : Bool) : (bit b).Typed widths := by
  cases b <;> exact rfl

@[simp] theorem value_bit_false (width : String → Nat) (state : State) :
    (bit false).value width state = 0 := by
  rfl

@[simp] theorem value_bit_true (width : String → Nat) (state : State) :
    (bit true).value width state = 1 := by
  rfl

end Expr

namespace Statement

variable {width : String → Nat} {state : State}

/-- Statements that assign numbered registers, each its own expression. -/
theorem nextAll_numbered {register : Nat → String} (hinj : Function.Injective register)
    (value : Nat → Expr) {n j : Nat} (hj : j < n) (old : Word) :
    nextAll width state (register j) old
      ((List.range n).map fun i => .nonblocking (.ident (register i)) (value i)) =
      ((value j).value width state).low (width (register j)) := by
  induction n with
  | zero => exact absurd hj (Nat.not_lt_zero j)
  | succ n ih =>
      rw [List.range_succ, List.map_append, nextAll_append]
      simp only [List.map_cons, List.map_nil, nextAll, next, Expr.ident.injEq, hinj.eq_iff]
      -- the induction takes off the last assignment, which is the one to register `n`
      by_cases heq : n = j
      · rw [if_pos heq, heq]
      · rw [if_neg heq]
        exact ih (by omega)

/-- Clearing makes every register of a chain zero. -/
theorem nextAll_clear {register : Nat → String} (hinj : Function.Injective register) {n j : Nat}
    (hj : j < n) (old : Word) : nextAll width state (register j) old (clear register n) = 0 := by
  unfold clear
  rw [nextAll_numbered hinj _ hj, Expr.value_bit_false]
  simp [Word.low]

/-- Shifting gives a register what its predecessor held, and the first one the input. -/
theorem nextAll_shift {register : Nat → String} (hinj : Function.Injective register)
    (input : String) {n j : Nat} (hj : j < n) (old : Word) :
    nextAll width state (register j) old (shift input register n) =
      (if j = 0 then state input else state (register (j - 1))).low (width (register j)) := by
  unfold shift
  rw [nextAll_numbered hinj _ hj]
  split <;> rfl

/-- What a numbered chain of assignments writes to. -/
theorem mem_assigned_numbered {register : Nat → String} {value : Nat → Expr} {n : Nat}
    {name : String} :
    name ∈ assignedAll ((List.range n).map fun i => .nonblocking (.ident (register i)) (value i)) ↔
      ∃ i < n, register i = name := by
  simp [assignedAll_eq, List.mem_flatMap, assigned, Expr.reads, eq_comm]

theorem mem_assigned_clear {register : Nat → String} {n : Nat} {name : String} :
    name ∈ assignedAll (clear register n) ↔ ∃ i < n, register i = name :=
  mem_assigned_numbered

theorem mem_assigned_shift {register : Nat → String} {input : String} {n : Nat} {name : String} :
    name ∈ assignedAll (shift input register n) ↔ ∃ i < n, register i = name :=
  mem_assigned_numbered

theorem typed_clear {widths : Widths} {register : Nat → String} {n : Nat}
    (h : ∀ i < n, widths.Declares (register i)) : TypedAll widths (clear register n) := by
  refine typedAll_iff.mpr fun s hs => ?_
  obtain ⟨i, hi, rfl⟩ := List.mem_map.mp hs
  exact ⟨⟨register i, rfl, h i (List.mem_range.mp hi)⟩, Expr.typed_bit widths false⟩

theorem typed_shift {widths : Widths} {register : Nat → String} {input : String} {n : Nat}
    (hinput : widths.Declares input) (h : ∀ i < n, widths.Declares (register i)) :
    TypedAll widths (shift input register n) := by
  refine typedAll_iff.mpr fun s hs => ?_
  obtain ⟨i, hi, rfl⟩ := List.mem_map.mp hs
  have hi := List.mem_range.mp hi
  refine ⟨⟨register i, rfl, h i hi⟩, ?_⟩
  split
  · exact hinput
  · exact h (i - 1) (by omega)

end Statement

/-! ## Chains with an enable -/

namespace Circuit.Clocked

variable {c : Circuit} {register : Nat → String} {n : Nat} {input enable : String} {x : State}

/-- A chain of data moves on while it is enabled. -/
theorem next_data (hc : c.Clocked) (hinj : Function.Injective register)
    (hp : [.branch (.ident enable) (shift input register n) []] ∈ c.processes) {i : Nat}
    (hi : i < n) :
    register i ∈ c.registers ∧ c.next x (register i) =
      if x enable = 0 then x (register i)
      else (if i = 0 then x input else x (register (i - 1))).low (c.widths.width (register i)) := by
  have hmem : register i ∈
      Statement.assignedAll [.branch (.ident enable) (shift input register n) []] := by
    simp only [Statement.assignedAll, Statement.assigned, List.append_nil,
      Statement.mem_assigned_shift]
    exact ⟨i, hi, rfl⟩
  refine ⟨List.mem_flatMap.mpr ⟨_, hp, hmem⟩, ?_⟩
  rw [Circuit.next, Statement.nextAll_flatten hc.exclusive hp hmem]
  simp only [Statement.nextAll, Statement.next, Expr.value, Statement.nextAll_shift hinj input hi]

theorem mem_assigned_bits {reset : String} {i : Nat} (hi : i < n) :
    register i ∈ Statement.assignedAll [.branch (.ident reset) (clear register n)
      [.branch (.ident enable) (shift input register n) []]] := by
  simp only [Statement.assignedAll, Statement.assigned, List.append_nil, List.mem_append,
    Statement.mem_assigned_clear]
  exact Or.inl ⟨i, hi, rfl⟩

/-- A chain of bits is cleared by a reset, and moves on while it is enabled. -/
theorem next_bits (hc : c.Clocked) (hinj : Function.Injective register) {reset : String}
    (hp : [.branch (.ident reset) (clear register n)
      [.branch (.ident enable) (shift input register n) []]] ∈ c.processes)
    (hfits : c.widths.Fits x) (hreset : c.widths.Declares reset)
    (hreset' : c.widths.width reset = 1) (henable : c.widths.Declares enable)
    (henable' : c.widths.width enable = 1) {i : Nat} (hi : i < n)
    (hwidth : c.widths.width (register i) = 1) :
    high (c.next x) (register i) =
      if high x reset then false
      else if high x enable then (if i = 0 then high x input else high x (register (i - 1)))
      else high x (register i) := by
  have hrst := eq_zero_iff_not_high hfits hreset hreset'
  have hen := eq_zero_iff_not_high hfits henable henable'
  rw [high, Circuit.next, Statement.nextAll_flatten hc.exclusive hp (mem_assigned_bits hi)]
  simp only [Statement.nextAll, Statement.next, Expr.value, Statement.nextAll_shift hinj input hi,
    Statement.nextAll_clear hinj hi, hrst, hen, hwidth]
  cases high x reset <;> cases high x enable <;> simp [high, Word.getLsbD_low]
  split <;> rfl

end Circuit.Clocked

end Handshake
