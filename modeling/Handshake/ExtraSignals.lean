import Handshake.Error
import Handshake.Text.Identifier

/-!
# Extra signals

Extra signals (tags, speculation bits and the like) accompany the payload of a
token. Their order is part of the layout of every bus that carries them, so they
form a list. The list is kept with what was checked when it was made: names are
distinct identifiers, no signal is empty, and the widths add up to a number of
32 bits.

Signals are declared one after the other, in the order in which a request lists
them, and the first one that is refused is the one reported: for its name, then
for being declared twice, then for its width. The sum of the widths is looked at
when all of them have been declared.
-/

namespace Handshake

/-- Widths and counts are unsigned numbers of 32 bits: they lie below this bound. -/
def countLimit : Nat := UInt32.size

/-- A signal that accompanies a token. -/
structure ExtraSignal where
  /-- Its name, which follows the port's name in the name of its own port. -/
  name : String
  /-- Its width in bits. -/
  width : Nat
deriving DecidableEq

/-- The width of signals side by side. -/
def sumWidths : List ExtraSignal → Nat
  | [] => 0
  | s :: rest => s.width + sumWidths rest

/-- Signals that each could be declared, under distinct names. -/
def Declarable (signals : List ExtraSignal) : Prop :=
  (∀ s ∈ signals, isIdentifier s.name = true ∧ 0 < s.width) ∧ (signals.map ExtraSignal.name).Nodup

/-- The extra signals of a unit, in their order. -/
structure ExtraSignals where
  /-- The signals. -/
  signals : List ExtraSignal
  /-- Names are distinct identifiers, and no signal is empty. -/
  declarable : Declarable signals
  /-- The widths add up to a number of 32 bits. -/
  fits : sumWidths signals < countLimit
deriving DecidableEq

namespace ExtraSignals

/-- No extra signals. -/
def empty : ExtraSignals where
  signals := []
  declarable := by simp [Declarable]
  fits := by decide

/-- Whether there are none. -/
def isEmpty (extra : ExtraSignals) : Bool := extra.signals.isEmpty

/-- The width of all signals side by side. -/
def totalWidth (extra : ExtraSignals) : Nat := sumWidths extra.signals

/-- A refusal of the extra signals, for the given reason. -/
def refusal (reason : String) : Error := .invalidParameter "extra_signals" reason

theorem declarable_concat {seen : List ExtraSignal} {name : String} {width : Nat}
    (h : Declarable seen) (hname : isIdentifier name = true)
    (hnew : name ∉ seen.map ExtraSignal.name) (hwidth : 0 < width) :
    Declarable (seen ++ [⟨name, width⟩]) := by
  refine ⟨?_, ?_⟩
  · intro s hs
    rcases List.mem_append.mp hs with hs | hs
    · exact h.1 s hs
    · obtain rfl := List.mem_singleton.mp hs
      exact ⟨hname, hwidth⟩
  · rw [List.map_append, List.nodup_append]
    refine ⟨h.2, by simp, ?_⟩
    intro a ha b hb
    obtain rfl := List.mem_singleton.mp hb
    exact fun hab => hnew (hab ▸ ha)

/-- Declares one more signal after those already declared. -/
def declare (seen : { signals : List ExtraSignal // Declarable signals }) (name : String)
    (width : Int) : Except Error { signals : List ExtraSignal // Declarable signals } :=
  if hname : isIdentifier name = true then
    if hnew : name ∈ seen.val.map ExtraSignal.name then
      .error (refusal ("signal " ++ Error.mark name ++ " is declared twice"))
    else if hwidth : 0 < width ∧ width < countLimit then
      .ok ⟨seen.val ++ [⟨name, width.toNat⟩], declarable_concat seen.property hname hnew (by omega)⟩
    else .error (refusal ("signal " ++ Error.mark name ++ " has bitwidth " ++ toString width))
  else .error (refusal (Error.mark name ++ " is not a valid signal name"))

/--
Checks names and widths in their order, then the sum of the widths. The first
thing wrong is the one reported.
-/
def ofPairs (pairs : List (String × Int)) : Except Error ExtraSignals := do
  let declared ← pairs.foldlM (fun seen pair => declare seen pair.1 pair.2)
    ⟨[], by simp [Declarable]⟩
  if h : sumWidths declared.val < countLimit then
    .ok ⟨declared.val, declared.property, h⟩
  else .error (refusal "total bitwidth does not fit in 32 bits")

end ExtraSignals

end Handshake
