/-
  Names shared by all components.
-/
import Mathlib.Data.List.AList

namespace Timbre

/-- An account address: the hexadecimal form of a public key. -/
abbrev Address := String

/-- How a call goes wrong: it returns an error, or it panics. -/
inductive Err where
  | error : String → Err
  | panic : String → Err
deriving DecidableEq, Repr

theorem except_bind_ok {α β : Type} {c : Except Err α} {f : α → Except Err β} {b : β}
    (h : (c >>= f) = .ok b) : ∃ a, c = .ok a ∧ f a = .ok b := by
  cases c with
  | error e => cases h
  | ok a => exact ⟨a, rfl, h⟩

theorem except_map_ok {α β : Type} {c : Except Err α} {f : α → β} {b : β} (h : c.map f = .ok b) :
    ∃ a, c = .ok a ∧ f a = b := by
  cases c with
  | error e => cases h
  | ok a => exact ⟨a, rfl, Except.ok.inj h⟩

end Timbre
