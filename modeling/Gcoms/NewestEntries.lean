import Mathlib

/-!
# Registers that keep the newest entry

A register is empty or holds one stamped entry, and merging two registers keeps
the entry with the larger stamp. `Newest stamp R x` says that the register `x`
holds a newest entry of the set `R`. Merging registers takes unions of sets, so
a register is determined by the set of entries that reached it, whatever the
order, the grouping and the repetitions, as far as no two entries of the set
share a stamp.
-/
namespace Gcoms.NewestEntries
variable {α κ : Type} [LinearOrder κ] (stamp : α → κ)

def Newest (R : Set α) (x : Option α) : Prop :=
  (∀ a ∈ x, a ∈ R) ∧ ∀ b ∈ R, ∃ a ∈ x, stamp b ≤ stamp a

/-- The second register, where its entry is newer. -/
def newer : Option α → Option α → Option α
  | none,y => y
  | some a,none => some a
  | some a,some b => if stamp a < stamp b then some b else some a

variable {stamp} {R Q : Set α} {x y : Option α}

theorem newest_empty : Newest stamp ∅ none := by
  simp [Newest]

theorem newest_singleton (a : α) : Newest stamp {a} (some a) := by
  simp [Newest]

/-- Two registers over one set agree, where its stamps are distinct. -/
theorem Newest.unique (hinj : Set.InjOn stamp R) (hx : Newest stamp R x) (hy : Newest stamp R y) :
    x = y := by
  apply Option.ext
  intro a
  constructor
  · intro ha
    obtain ⟨b,hb,hab⟩ := hy.2 a (hx.1 a ha)
    obtain ⟨c,hc,hbc⟩ := hx.2 b (hy.1 b hb)
    obtain rfl := Option.mem_unique ha hc
    rwa [hinj (hx.1 a ha) (hy.1 b hb) (le_antisymm hab hbc)]
  · intro ha
    obtain ⟨b,hb,hab⟩ := hx.2 a (hy.1 a ha)
    obtain ⟨c,hc,hbc⟩ := hy.2 b (hx.1 b hb)
    obtain rfl := Option.mem_unique ha hc
    rwa [hinj (hy.1 a ha) (hx.1 b hb) (le_antisymm hab hbc)]

theorem Newest.keep (hx : Newest stamp R x) (hQ : ∀ b ∈ Q, ∃ a ∈ x, stamp b ≤ stamp a) :
    Newest stamp (R ∪ Q) x := by
  refine ⟨fun a ha => .inl (hx.1 a ha),fun b hb => ?_⟩
  obtain hb | hb := hb
  · exact hx.2 b hb
  · exact hQ b hb

theorem Newest.replace (hx : Newest stamp R x) (hy : Newest stamp Q y)
    (hle : ∀ a ∈ x, ∃ b ∈ y, stamp a ≤ stamp b) : Newest stamp (R ∪ Q) y := by
  refine ⟨fun a ha => .inr (hy.1 a ha),fun b hb => ?_⟩
  obtain hb | hb := hb
  · obtain ⟨a,ha,hba⟩ := hx.2 b hb
    obtain ⟨c,hc,hac⟩ := hle a ha
    exact ⟨c,hc,hba.trans hac⟩
  · exact hy.2 b hb

theorem Newest.newer (hx : Newest stamp R x) (hy : Newest stamp Q y) :
    Newest stamp (R ∪ Q) (newer stamp x y) := by
  cases x with
  | none => exact hx.replace hy (by simp)
  | some a =>
      cases y with
      | none =>
          refine hx.keep fun b hb => ?_
          obtain ⟨c,hc,_⟩ := hy.2 b hb
          exact absurd hc (by simp)
      | some b =>
          rw [NewestEntries.newer]
          split_ifs with h
          · exact hx.replace hy (by simpa using h.le)
          · refine hx.keep fun c hc => ?_
            obtain ⟨d,hd,hcd⟩ := hy.2 c hc
            obtain rfl := Option.some.inj hd
            exact ⟨a,rfl,hcd.trans (not_lt.mp h)⟩

/-- Merging what was merged before changes nothing. -/
theorem newer_of_subset (hx : Newest stamp R x) (hy : Newest stamp Q y) (h : Q ⊆ R) :
    newer stamp x y = x := by
  cases y with
  | none => cases x <;> rfl
  | some b =>
      obtain ⟨a,ha,hba⟩ := hx.2 b (h (hy.1 b rfl))
      obtain rfl : x = some a := ha
      rw [newer,if_neg (not_lt.mpr hba)]

end Gcoms.NewestEntries
