import Mathlib

/-!
# Commands that may fail halfway

A command reads and changes a state and may fail at any point. What it changed
before a failure stays changed: a failing command is not a transaction. The
rules say what a successful sequence has done, and where a sequence can fail.
`Aborts A x s` holds when every failure of `x` from `s` satisfies `A`, for
instance when it left the state as it was. A proof of it follows the sequence,
and from the first change of the state on it has to show success.
-/
namespace Gcoms.Commands

def Cmd (σ ε α : Type) : Type := σ → Except ε α × σ

section Commands
variable {σ ε ε' α β : Type}

instance : Monad (Cmd σ ε) where
  pure a := fun s => (.ok a,s)
  bind x f := fun s =>
    match x s with
    | (.ok a,s') => f a s'
    | (.error e,s') => (.error e,s')

def Cmd.fail (e : ε) : Cmd σ ε α := fun s => (.error e,s)

def Cmd.read (g : σ → α) : Cmd σ ε α := fun s => (.ok (g s),s)

def Cmd.update (g : σ → σ) : Cmd σ ε Unit := fun s => (.ok (),g s)

/-- Fails with `e` unless the condition holds. -/
def Cmd.demand (c : Prop) [Decidable c] (e : ε) : Cmd σ ε Unit := fun s =>
  if c then (.ok (),s) else (.error e,s)

/-- A fallible computation that leaves the state alone. -/
def Cmd.attempt (wrap : ε' → ε) (x : Except ε' α) : Cmd σ ε α := fun s =>
  match x with
  | .ok a => (.ok a,s)
  | .error e => (.error (wrap e),s)

/-- The value, or `e` when there is none. -/
def Cmd.obtain (e : ε) (x : Option α) : Cmd σ ε α := fun s =>
  match x with
  | some a => (.ok a,s)
  | none => (.error e,s)

/-! ## Success -/

theorem pure_run (a : α) (s : σ) : (pure a : Cmd σ ε α) s = (.ok a,s) := rfl

theorem pure_ok {a b : α} {s s' : σ} :
    (pure a : Cmd σ ε α) s = (.ok b,s') ↔ a = b ∧ s = s' := by
  simp [pure_run]

theorem bind_run (x : Cmd σ ε α) (f : α → Cmd σ ε β) (s : σ) : (x >>= f) s =
    match x s with
    | (.ok a,s') => f a s'
    | (.error e,s') => (.error e,s') := rfl

theorem bind_ok {x : Cmd σ ε α} {f : α → Cmd σ ε β} {s s' : σ} {b : β} :
    (x >>= f) s = (.ok b,s') ↔ ∃ a s₁, x s = (.ok a,s₁) ∧ f a s₁ = (.ok b,s') := by
  rw [bind_run]
  cases hx : x s with
  | mk r s₁ =>
      cases r with
      | error e => simp
      | ok a => simp

theorem fail_ok {e : ε} {a : α} {s s' : σ} :
    (Cmd.fail e : Cmd σ ε α) s = (.ok a,s') ↔ False := by
  simp [Cmd.fail]

theorem read_ok {g : σ → α} {s s' : σ} {a : α} :
    (Cmd.read g : Cmd σ ε α) s = (.ok a,s') ↔ g s = a ∧ s = s' := by
  simp [Cmd.read]

theorem update_ok {g : σ → σ} {s s' : σ} {u : Unit} :
    (Cmd.update g : Cmd σ ε Unit) s = (.ok u,s') ↔ g s = s' := by
  simp [Cmd.update]

theorem demand_ok {c : Prop} [Decidable c] {e : ε} {s s' : σ} {u : Unit} :
    (Cmd.demand c e : Cmd σ ε Unit) s = (.ok u,s') ↔ c ∧ s = s' := by
  unfold Cmd.demand
  split_ifs with h <;> simp [h]

theorem attempt_ok {wrap : ε' → ε} {x : Except ε' α} {s s' : σ} {a : α} :
    (Cmd.attempt wrap x : Cmd σ ε α) s = (.ok a,s') ↔ x = .ok a ∧ s = s' := by
  cases x with
  | error e => simp [Cmd.attempt]
  | ok b => simp [Cmd.attempt]

theorem obtain_ok {e : ε} {x : Option α} {s s' : σ} {a : α} :
    (Cmd.obtain e x : Cmd σ ε α) s = (.ok a,s') ↔ x = some a ∧ s = s' := by
  cases x with
  | none => simp [Cmd.obtain]
  | some b => simp [Cmd.obtain]

/-! The same for a step at the head of a sequence. -/

theorem read_bind (g : σ → α) (f : α → Cmd σ ε β) (s : σ) : (Cmd.read g >>= f) s = f (g s) s := rfl

theorem read_id_bind (f : σ → Cmd σ ε β) (s : σ) : (Cmd.read id >>= f) s = f s s := rfl

theorem update_bind (g : σ → σ) (f : Unit → Cmd σ ε β) (s : σ) :
    (Cmd.update g >>= f) s = f () (g s) := rfl

theorem demand_bind_ok {c : Prop} [Decidable c] {e : ε} {f : Unit → Cmd σ ε β} {s s' : σ} {b : β} :
    (Cmd.demand c e >>= f) s = (.ok b,s') ↔ c ∧ f () s = (.ok b,s') := by
  simp only [bind_ok,demand_ok]
  constructor
  · rintro ⟨u,s₁,⟨hc,rfl⟩,hf⟩
    exact ⟨hc,hf⟩
  · rintro ⟨hc,hf⟩
    exact ⟨(),s,⟨hc,rfl⟩,hf⟩

theorem demand_bind_of {c : Prop} [Decidable c] {e : ε} {f : Unit → Cmd σ ε β} {s : σ} (h : c) :
    (Cmd.demand c e >>= f) s = f () s := by
  rw [bind_run,Cmd.demand,if_pos h]

theorem demand_bind_of_not {c : Prop} [Decidable c] {e : ε} {f : Unit → Cmd σ ε β} {s : σ}
    (h : ¬c) : (Cmd.demand c e >>= f) s = (.error e,s) := by
  rw [bind_run,Cmd.demand,if_neg h]

theorem attempt_bind_ok {wrap : ε' → ε} {x : Except ε' α} {f : α → Cmd σ ε β} {s s' : σ} {b : β} :
    (Cmd.attempt wrap x >>= f) s = (.ok b,s') ↔ ∃ a, x = .ok a ∧ f a s = (.ok b,s') := by
  simp only [bind_ok,attempt_ok]
  constructor
  · rintro ⟨a,s₁,⟨hx,rfl⟩,hf⟩
    exact ⟨a,hx,hf⟩
  · rintro ⟨a,hx,hf⟩
    exact ⟨a,s,⟨hx,rfl⟩,hf⟩

theorem obtain_bind_ok {e : ε} {x : Option α} {f : α → Cmd σ ε β} {s s' : σ} {b : β} :
    (Cmd.obtain e x >>= f) s = (.ok b,s') ↔ ∃ a, x = some a ∧ f a s = (.ok b,s') := by
  simp only [bind_ok,obtain_ok]
  constructor
  · rintro ⟨a,s₁,⟨hx,rfl⟩,hf⟩
    exact ⟨a,hx,hf⟩
  · rintro ⟨a,hx,hf⟩
    exact ⟨a,s,⟨hx,rfl⟩,hf⟩

theorem bind_assoc_run {γ : Type} (x : Cmd σ ε α) (f : α → Cmd σ ε β) (g : β → Cmd σ ε γ) (s : σ) :
    ((x >>= f) >>= g) s = (x >>= fun a => f a >>= g) s := by
  simp only [bind_run]
  cases x s with
  | mk r s₁ => cases r <;> rfl

/-! ## Failure -/

/-- Every failure of `x` from `s` satisfies `A`. -/
def Aborts (A : ε → σ → Prop) (x : Cmd σ ε α) (s : σ) : Prop :=
  ∀ e s', x s = (.error e,s') → A e s'

namespace Aborts
variable {A : ε → σ → Prop} {s : σ}

theorem pure (a : α) : Aborts A (Pure.pure a) s := by
  intro e s' h
  cases h

theorem fail {e : ε} (h : A e s) : Aborts A (Cmd.fail e : Cmd σ ε α) s := by
  intro e' s' hf
  cases hf
  exact h

theorem read {g : σ → α} : Aborts A (Cmd.read g) s := by
  intro e s' h
  cases h

theorem update {g : σ → σ} : Aborts A (Cmd.update g) s := by
  intro e s' h
  cases h

theorem demand {c : Prop} [Decidable c] {e : ε} (h : ¬c → A e s) : Aborts A (Cmd.demand c e) s := by
  intro e' s' hd
  unfold Cmd.demand at hd
  split_ifs at hd with hc
  · cases hd
  · cases hd
    exact h hc

theorem attempt {wrap : ε' → ε} {x : Except ε' α} (h : ∀ e, x = .error e → A (wrap e) s) :
    Aborts A (Cmd.attempt wrap x) s := by
  intro e s' ha
  cases x with
  | error e' =>
      cases ha
      exact h e' rfl
  | ok a => cases ha

theorem obtain {e : ε} {x : Option α} (h : x = none → A e s) : Aborts A (Cmd.obtain e x) s := by
  intro e' s' ho
  cases x with
  | none =>
      cases ho
      exact h rfl
  | some a => cases ho

theorem bind {x : Cmd σ ε α} {f : α → Cmd σ ε β} (hx : Aborts A x s)
    (hf : ∀ a s', x s = (.ok a,s') → Aborts A (f a) s') : Aborts A (x >>= f) s := by
  intro e s' h
  rw [bind_run] at h
  cases hr : x s with
  | mk r s₁ =>
      rw [hr] at h
      cases r with
      | error e' =>
          cases h
          exact hx e s' hr
      | ok a => exact hf a s₁ hr e s' h

/-! The heads of a sequence that leave the state alone. -/

theorem read_bind {g : σ → α} {f : α → Cmd σ ε β} (hf : Aborts A (f (g s)) s) :
    Aborts A (Cmd.read g >>= f) s :=
  read.bind (by
    intro a s' h
    obtain ⟨rfl,rfl⟩ := read_ok.mp h
    exact hf)

theorem update_bind {g : σ → σ} {f : Unit → Cmd σ ε β} (hf : Aborts A (f ()) (g s)) :
    Aborts A (Cmd.update g >>= f) s :=
  update.bind (by
    intro a s' h
    obtain rfl := update_ok.mp h
    exact hf)

theorem demand_bind {c : Prop} [Decidable c] {e : ε} {f : Unit → Cmd σ ε β} (h : ¬c → A e s)
    (hf : c → Aborts A (f ()) s) : Aborts A (Cmd.demand c e >>= f) s :=
  (demand h).bind (by
    intro a s' hd
    obtain ⟨hc,rfl⟩ := demand_ok.mp hd
    exact hf hc)

theorem attempt_bind {wrap : ε' → ε} {x : Except ε' α} {f : α → Cmd σ ε β}
    (h : ∀ e, x = .error e → A (wrap e) s) (hf : ∀ a, x = .ok a → Aborts A (f a) s) :
    Aborts A (Cmd.attempt wrap x >>= f) s :=
  (attempt h).bind (by
    intro a s' ha
    obtain ⟨hx,rfl⟩ := attempt_ok.mp ha
    exact hf a hx)

theorem obtain_bind {e : ε} {x : Option α} {f : α → Cmd σ ε β} (h : x = none → A e s)
    (hf : ∀ a, x = some a → Aborts A (f a) s) : Aborts A (Cmd.obtain e x >>= f) s :=
  (obtain h).bind (by
    intro a s' ho
    obtain ⟨hx,rfl⟩ := obtain_ok.mp ho
    exact hf a hx)

end Aborts

/-! ## Outcomes -/

/-- `x` from `s` succeeds with `Q` or fails with `E`. -/
def Leads (x : Cmd σ ε α) (s : σ) (Q : α → σ → Prop) (E : ε → σ → Prop) : Prop :=
  match x s with
  | (.ok a,s') => Q a s'
  | (.error e,s') => E e s'

namespace Leads
variable {s : σ} {Q : β → σ → Prop} {E : ε → σ → Prop}

theorem pure {a : β} (h : Q a s) : Leads (Pure.pure a : Cmd σ ε β) s Q E := h

theorem fail {e : ε} (h : E e s) : Leads (Cmd.fail e : Cmd σ ε β) s Q E := h

theorem update {g : σ → σ} {Q : Unit → σ → Prop} (h : Q () (g s)) :
    Leads (Cmd.update g : Cmd σ ε Unit) s Q E := h

theorem bind {x : Cmd σ ε α} {f : α → Cmd σ ε β}
    (h : Leads x s (fun a s' => Leads (f a) s' Q E) E) : Leads (x >>= f) s Q E := by
  unfold Leads at h ⊢
  rw [bind_run]
  cases hx : x s with
  | mk r s₁ =>
      rw [hx] at h
      cases r with
      | error e => exact h
      | ok a => exact h

theorem mono {x : Cmd σ ε β} {Q' : β → σ → Prop} {E' : ε → σ → Prop} (h : Leads x s Q E)
    (hq : ∀ b s', Q b s' → Q' b s') (he : ∀ e s', E e s' → E' e s') : Leads x s Q' E' := by
  unfold Leads at h ⊢
  cases hx : x s with
  | mk r s₁ =>
      rw [hx] at h
      cases r with
      | error e => exact he e s₁ h
      | ok a => exact hq a s₁ h

theorem and {x : Cmd σ ε β} {Q' : β → σ → Prop} {E' : ε → σ → Prop} (h : Leads x s Q E)
    (h' : Leads x s Q' E') : Leads x s (fun b s' => Q b s' ∧ Q' b s') (fun e s' => E e s' ∧ E' e s') := by
  unfold Leads at h h' ⊢
  cases hx : x s with
  | mk r s₁ =>
      rw [hx] at h h'
      cases r with
      | error e => exact ⟨h,h'⟩
      | ok a => exact ⟨h,h'⟩

theorem of_ok {x : Cmd σ ε β} {b : β} {s' : σ} (h : Leads x s Q E) (hx : x s = (.ok b,s')) :
    Q b s' := by
  unfold Leads at h
  rw [hx] at h
  exact h

theorem of_error {x : Cmd σ ε β} {e : ε} {s' : σ} (h : Leads x s Q E) (hx : x s = (.error e,s')) :
    E e s' := by
  unfold Leads at h
  rw [hx] at h
  exact h

/-- What holds on every outcome holds of the final state. -/
theorem state {x : Cmd σ ε β} {P : σ → Prop} (h : Leads x s (fun _ => P) (fun _ => P)) :
    P (x s).2 := by
  unfold Leads at h
  cases hx : x s with
  | mk r s₁ =>
      rw [hx] at h
      cases r with
      | error e => exact h
      | ok a => exact h

theorem succeeds {x : Cmd σ ε β} (h : Leads x s Q (fun _ _ => False)) :
    ∃ b, x s = (.ok b,(x s).2) ∧ Q b (x s).2 := by
  unfold Leads at h
  cases hx : x s with
  | mk r s₁ =>
      rw [hx] at h
      cases r with
      | error e => exact h.elim
      | ok b => exact ⟨b,rfl,h⟩

theorem read_bind {g : σ → α} {f : α → Cmd σ ε β} (h : Leads (f (g s)) s Q E) :
    Leads (Cmd.read g >>= f) s Q E := h

theorem update_bind {g : σ → σ} {f : Unit → Cmd σ ε β} (h : Leads (f ()) (g s) Q E) :
    Leads (Cmd.update g >>= f) s Q E := h

theorem demand {c : Prop} [Decidable c] {e : ε} {Q : Unit → σ → Prop} (hq : c → Q () s)
    (h : ¬c → E e s) : Leads (Cmd.demand c e) s Q E := by
  unfold Leads Cmd.demand
  by_cases hc : c
  · rw [if_pos hc]
    exact hq hc
  · rw [if_neg hc]
    exact h hc

theorem demand_bind {c : Prop} [Decidable c] {e : ε} {f : Unit → Cmd σ ε β}
    (hf : c → Leads (f ()) s Q E) (h : ¬c → E e s) : Leads (Cmd.demand c e >>= f) s Q E := by
  by_cases hc : c
  · unfold Leads
    rw [demand_bind_of hc]
    exact hf hc
  · unfold Leads
    rw [demand_bind_of_not hc]
    exact h hc

theorem attempt_bind {wrap : ε' → ε} {x : Except ε' α} {f : α → Cmd σ ε β}
    (hf : ∀ a, x = .ok a → Leads (f a) s Q E) (h : ∀ e, x = .error e → E (wrap e) s) :
    Leads (Cmd.attempt wrap x >>= f) s Q E := by
  cases x with
  | error e => exact h e rfl
  | ok a => exact hf a rfl

theorem obtain_bind {e : ε} {x : Option α} {f : α → Cmd σ ε β}
    (hf : ∀ a, x = some a → Leads (f a) s Q E) (h : x = none → E e s) :
    Leads (Cmd.obtain e x >>= f) s Q E := by
  cases x with
  | none => exact h rfl
  | some a => exact hf a rfl

theorem ite {c : Prop} [Decidable c] {x y : Cmd σ ε β} (hx : c → Leads x s Q E)
    (hy : ¬c → Leads y s Q E) : Leads (if c then x else y) s Q E := by
  by_cases hc : c
  · rw [if_pos hc]
    exact hx hc
  · rw [if_neg hc]
    exact hy hc

end Leads

/-! ## Agreement of two runs -/

/-- The runs have the same result and, where they succeed, end in the same state. -/
def Agree (x : Cmd σ ε α) (s : σ) (y : Cmd σ ε α) (t : σ) : Prop :=
  (x s).1 = (y t).1 ∧ ∀ v, (x s).1 = .ok v → (x s).2 = (y t).2

namespace Agree
variable {s t : σ}

theorem of_eq {x y : Cmd σ ε α} (h : x s = y t) : Agree x s y t :=
  ⟨by rw [h],fun _ _ => by rw [h]⟩

theorem congr {x x' y y' : Cmd σ ε α} {s' t' : σ} (h : Agree x' s' y' t') (hx : x s = x' s')
    (hy : y t = y' t') : Agree x s y t := by
  unfold Agree
  rw [hx,hy]
  exact h

theorem bind {x y : Cmd σ ε α} {f g : α → Cmd σ ε β} (hx : Agree x s y t)
    (hf : ∀ a s', x s = (.ok a,s') → Agree (f a) s' (g a) s') : Agree (x >>= f) s (y >>= g) t := by
  unfold Agree at hx ⊢
  rw [bind_run,bind_run]
  cases hr : x s with
  | mk r s₁ =>
      cases hr' : y t with
      | mk r' t₁ =>
          rw [hr,hr'] at hx
          obtain ⟨rfl,hs⟩ := hx
          cases r with
          | error e => exact ⟨rfl,fun v hv => by cases hv⟩
          | ok a =>
              obtain rfl := hs a rfl
              exact hf a s₁ hr

theorem demand_bind {c d : Prop} [Decidable c] [Decidable d] {e : ε} {f g : Unit → Cmd σ ε β}
    (hcd : c ↔ d) (hf : c → Agree (f ()) s (g ()) t) :
    Agree (Cmd.demand c e >>= f) s (Cmd.demand d e >>= g) t := by
  unfold Agree
  rw [bind_run,bind_run,Cmd.demand,Cmd.demand]
  by_cases hc : c
  · rw [if_pos hc,if_pos (hcd.mp hc)]
    exact hf hc
  · rw [if_neg hc,if_neg (fun hd => hc (hcd.mpr hd))]
    exact ⟨rfl,fun v hv => by cases hv⟩

theorem attempt_bind {wrap : ε' → ε} {x : Except ε' α} {f g : α → Cmd σ ε β}
    (hf : ∀ a, x = .ok a → Agree (f a) s (g a) t) :
    Agree (Cmd.attempt wrap x >>= f) s (Cmd.attempt wrap x >>= g) t := by
  cases x with
  | error e => exact ⟨rfl,fun v hv => by cases hv⟩
  | ok a => exact hf a rfl

end Agree

end Commands

end Gcoms.Commands
