import Mathlib

/-!
# Symmetric key chains with external mixing

A chain value is stepped once per counter; a step yields the next value and a
message key. Between two counters the chain may be replaced by a mixture with a
secret. A `Transcript` records, for every counter, the value after its step and
the value its step started from. A party that follows the same steps from any
point of the transcript, with no mixture in between, recomputes the recorded
values and keys.
-/
namespace Gcoms.KeyChains

structure Transcript (C : Type) where
  chain : ℕ → C
  mixed : ℕ → C

section Chains
variable {C K : Type} (step : C → ℕ → C × K)

/-- `n` consecutive steps from counter `ctr` on, with the keys they yield. -/
def advance (chain : C) (ctr : ℕ) : ℕ → C × List (ℕ × K)
  | 0 => (chain,[])
  | n+1 =>
      let r := advance (step chain ctr).1 (ctr+1) n
      (r.1,(ctr,(step chain ctr).2)::r.2)

theorem advance_counters (chain : C) (ctr n : ℕ) :
    (advance step chain ctr n).2.map Prod.fst = List.range' ctr n := by
  induction n generalizing chain ctr with
  | zero => rfl
  | succ n ih => simp only [advance,List.map_cons,ih,List.range'_succ]

namespace Transcript

def key (step : C → ℕ → C × K) (T : Transcript C) (i : ℕ) : K := (step (T.mixed i) i).2

/-- Counter `i` was stepped from the recorded value. -/
def Stepped (step : C → ℕ → C × K) (T : Transcript C) (i : ℕ) : Prop :=
  T.chain i = (step (T.mixed i) i).1

/-- No mixture took place between counters `i-1` and `i`. -/
def Plain (T : Transcript C) (i : ℕ) : Prop := T.mixed i = T.chain (i-1)

/-- From a recorded start, a plain stretch recomputes the recorded starts and keys. -/
theorem advance_mixed (T : Transcript C) (a n : ℕ)
    (hs : ∀ i, a ≤ i → i < a+n → T.Stepped step i) (hp : ∀ i, a < i → i ≤ a+n → T.Plain i) :
    advance step (T.mixed a) a n =
      (T.mixed (a+n),(List.range' a n).map (fun i => (i,T.key step i))) := by
  induction n generalizing a with
  | zero => rfl
  | succ n ih =>
      have hnext : (step (T.mixed a) a).1 = T.mixed (a+1) := by
        rw [← hs a le_rfl (by omega)]
        exact (hp (a+1) (by omega) (by omega)).symm
      have hrest := ih (a+1) (fun i h₁ h₂ => hs i (by omega) (by omega))
        (fun i h₁ h₂ => hp i (by omega) (by omega))
      simp only [advance,hnext,hrest,List.range'_succ,List.map_cons,Prod.mk.injEq]
      exact ⟨by congr 1; omega,rfl⟩

/-- Following a plain stretch recomputes the recorded values and keys. -/
theorem advance_chain (T : Transcript C) (a n : ℕ)
    (hs : ∀ i, a < i → i ≤ a+n → T.Stepped step i) (hp : ∀ i, a < i → i ≤ a+n → T.Plain i) :
    advance step (T.chain a) (a+1) n =
      (T.chain (a+n),(List.range' (a+1) n).map (fun i => (i,T.key step i))) := by
  induction n generalizing a with
  | zero => rfl
  | succ n ih =>
      have hmix : T.mixed (a+1) = T.chain a := hp (a+1) (by omega) (by omega)
      have hnext : (step (T.chain a) (a+1)).1 = T.chain (a+1) := by
        rw [← hmix]
        exact (hs (a+1) (by omega) (by omega)).symm
      have hrest := ih (a+1) (fun i h₁ h₂ => hs i (by omega) (by omega))
        (fun i h₁ h₂ => hp i (by omega) (by omega))
      simp only [advance,hnext,hrest,List.range'_succ,List.map_cons,Prod.mk.injEq]
      refine ⟨by congr 1; omega,?_⟩
      rw [key,hmix]

/-- Records one more counter. -/
def push (T : Transcript C) (i : ℕ) (mixed chain : C) : Transcript C :=
  ⟨Function.update T.chain i chain,Function.update T.mixed i mixed⟩

theorem push_chain_self (T : Transcript C) (i : ℕ) (m c : C) : (T.push i m c).chain i = c := by
  simp [push]

theorem push_mixed_self (T : Transcript C) (i : ℕ) (m c : C) : (T.push i m c).mixed i = m := by
  simp [push]

theorem push_chain_of_ne (T : Transcript C) {i j : ℕ} (m c : C) (h : j ≠ i) :
    (T.push i m c).chain j = T.chain j := by
  simp [push,h]

theorem push_mixed_of_ne (T : Transcript C) {i j : ℕ} (m c : C) (h : j ≠ i) :
    (T.push i m c).mixed j = T.mixed j := by
  simp [push,h]

theorem push_key_of_ne (T : Transcript C) {i j : ℕ} (m c : C) (h : j ≠ i) :
    (T.push i m c).key step j = T.key step j := by
  simp [key,push,h]

theorem push_stepped_of_ne {T : Transcript C} {i j : ℕ} (m c : C) (h : j ≠ i) :
    (T.push i m c).Stepped step j ↔ T.Stepped step j := by
  simp [Stepped,push,h]

/-- Plainness looks one counter back. -/
theorem push_plain_of_lt {T : Transcript C} {i j : ℕ} (m c : C) (h : j < i) :
    (T.push i m c).Plain j ↔ T.Plain j := by
  have h₁ : j ≠ i := by omega
  have h₂ : j-1 ≠ i := by omega
  simp [Plain,push,h₁,h₂]

end Transcript

end Chains

end Gcoms.KeyChains
