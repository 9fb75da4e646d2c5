import Mathlib

/-!
# Sequential checks

A decoder is a sequence of checks and reads, each of which may refuse. It is
written with `require` in the `Except` monad, in the order of the source. The
rules below turn "the sequence succeeded" into the conjunction of what was
checked, so that proofs never unfold the sequence itself.
-/
namespace Gcoms.Fallible
variable {ε ε' α β : Type}

/-- Refuses with `e` unless the condition holds. -/
def require (c : Prop) [Decidable c] (e : ε) : Except ε Unit := if c then .ok () else .error e

/-- The value, or `e` when there is none. -/
def found (e : ε) : Option α → Except ε α
  | none => .error e
  | some a => .ok a

/-- A step that is taken only under a condition. -/
def whenever (c : Prop) [Decidable c] (x : Except ε Unit) : Except ε Unit :=
  if c then x else .ok ()

@[simp] theorem require_eq_ok {c : Prop} [Decidable c] {e : ε} {u : Unit} :
    require c e = .ok u ↔ c := by
  unfold require
  split_ifs with h <;> simp [h]

@[simp] theorem whenever_eq_ok {c : Prop} [Decidable c] {x : Except ε Unit} {u : Unit} :
    whenever c x = .ok u ↔ (c → x = .ok ()) := by
  unfold whenever
  split_ifs with h <;> simp [h]

@[simp] theorem found_eq_ok {e : ε} {x : Option α} {a : α} :
    found e x = .ok a ↔ x = some a := by
  cases x with
  | none => simp [found]
  | some b => simp [found]

@[simp] theorem renamed_eq_ok {f : ε → ε'} {x : Except ε α} {a : α} :
    x.mapError f = .ok a ↔ x = .ok a := by
  cases x with
  | error e => simp [Except.mapError]
  | ok b => simp [Except.mapError]

/-- A sequence succeeds through the result of its head. -/
@[simp] theorem sequence_eq_ok {x : Except ε α} {f : α → Except ε β} {b : β} :
    (x >>= f) = .ok b ↔ ∃ a, x = .ok a ∧ f a = .ok b := by
  refine ⟨fun h => ?_,fun ⟨a,hx,hf⟩ => by rw [hx]; exact hf⟩
  cases x with
  | error e => nomatch h
  | ok a => exact ⟨a,rfl,h⟩

@[simp] theorem done_eq_ok {a b : α} : (pure a : Except ε α) = .ok b ↔ a = b :=
  Except.ok.injEq a b ▸ Iff.rfl

end Gcoms.Fallible
