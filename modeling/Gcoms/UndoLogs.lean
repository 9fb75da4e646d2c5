import Gcoms.SortedMaps

/-!
# Undo logs over ordered maps

A change of a map is recorded by the key it inserted and by the entries it
displaced. Taking the insertion back and putting the displaced entries in again
must give the old map. `Undoes m m' inserted removed` is what such a log has to
satisfy; it starts out empty and is kept by filtering, by erasing and by one
final insertion.
-/
namespace Gcoms.UndoLogs
open SortedMaps SortedMap

variable {K V : Type} [LinearOrder K]

/-- The entry that an insertion or an erasure at `k` displaces. -/
def displaced (m : SortedMap K V) (k : K) : List (K × V) := (m.find? k).toList.map (fun v => (k,v))

def undo (m : SortedMap K V) (inserted : Option K) (removed : List (K × V)) : SortedMap K V :=
  (match inserted with
    | none => m
    | some k => m.erase k).extend removed

structure Undoes (m m' : SortedMap K V) (inserted : Option K) (removed : List (K × V)) : Prop where
  was : ∀ e ∈ removed, m.find? e.1 = some e.2
  gone : ∀ e ∈ removed, inserted ≠ some e.1 → m'.find? e.1 = none
  fresh : ∀ k, inserted = some k → (∀ e ∈ removed, e.1 ≠ k) → m.find? k = none
  untouched : ∀ k, inserted ≠ some k → (∀ e ∈ removed, e.1 ≠ k) → m'.find? k = m.find? k

theorem mem_displaced {m : SortedMap K V} {k : K} {e : K × V} :
    e ∈ displaced m k ↔ e.1 = k ∧ m.find? k = some e.2 := by
  obtain ⟨a,v⟩ := e
  simp only [displaced,List.mem_map,Option.mem_toList,Prod.mk.injEq]
  constructor
  · rintro ⟨w,hw,rfl,rfl⟩
    exact ⟨rfl,hw⟩
  · rintro ⟨rfl,hv⟩
    exact ⟨v,hv,rfl,rfl⟩

theorem displaced_of_none {m : SortedMap K V} {k : K} (h : m.find? k = none) :
    displaced m k = [] := by
  simp [displaced,h]

/-- Entries that agree with `n` complete any map which agrees with `n` elsewhere. -/
theorem extend_eq {m n : SortedMap K V} {es : List (K × V)}
    (hes : ∀ e ∈ es, n.find? e.1 = some e.2)
    (hrest : ∀ k, (∀ e ∈ es, e.1 ≠ k) → m.find? k = n.find? k) : m.extend es = n := by
  induction es generalizing m with
  | nil => exact ext_find? (fun k => hrest k (by simp))
  | cons e es ih =>
      apply ih
      · intro d hd
        exact hes d (List.mem_cons_of_mem e hd)
      · intro k hk
        rw [find?_insert]
        split
        next heq =>
          rw [heq]
          exact (hes e List.mem_cons_self).symm
        next hne =>
          apply hrest
          intro d hd
          cases hd with
          | head => exact fun h => hne h.symm
          | tail _ hd => exact hk d hd

namespace Undoes

theorem undo_eq {m m' : SortedMap K V} {inserted : Option K} {removed : List (K × V)}
    (h : Undoes m m' inserted removed) : undo m' inserted removed = m := by
  apply extend_eq h.was
  intro k hk
  cases inserted with
  | none => exact h.untouched k (by simp) hk
  | some a =>
      by_cases ha : k = a
      · subst ha
        rw [find?_erase_self,h.fresh k rfl hk]
      · have hne : some a ≠ some k := fun he => ha (Option.some.inj he).symm
        exact (find?_erase_of_ne m' ha).trans (h.untouched k hne hk)

theorem refl (m : SortedMap K V) : Undoes m m none [] := by
  constructor <;> simp

/-- Before the insertion the changed map is a part of the old one. -/
theorem find?_of_find? {m m' : SortedMap K V} {removed : List (K × V)}
    (h : Undoes m m' none removed) {k : K} {v : V} (hk : m'.find? k = some v) :
    m.find? k = some v := by
  have hr : ∀ e ∈ removed, e.1 ≠ k := by
    rintro e he rfl
    have hg := h.gone e he (by simp)
    simp [hg] at hk
  rw [← h.untouched k (by simp) hr]
  exact hk

theorem retain {m m' : SortedMap K V} {removed : List (K × V)} (h : Undoes m m' none removed)
    (p : K → V → Bool) :
    Undoes m (m'.retain p) none (removed++m'.entries.filter (fun e => !p e.1 e.2)) where
  was e he := by
    cases List.mem_append.mp he with
    | inl hr => exact h.was e hr
    | inr hf => exact h.find?_of_find? (mem_iff_find?.mp (List.mem_filter.mp hf).1)
  gone e he _ := by
    rw [find?_retain]
    cases List.mem_append.mp he with
    | inl hr => simp [h.gone e hr (by simp)]
    | inr hf =>
        obtain ⟨hm,hp⟩ := List.mem_filter.mp hf
        rw [mem_iff_find?.mp hm]
        simpa using hp
  fresh := by simp
  untouched k hi hk := by
    have hr : ∀ e ∈ removed, e.1 ≠ k := fun e he => hk e (List.mem_append_left _ he)
    rw [← h.untouched k hi hr,find?_retain]
    cases hf : m'.find? k with
    | none => rfl
    | some v =>
        have hp : p k v = true := by
          by_contra hp
          have hm : (k,v) ∈ m'.entries.filter (fun e => !p e.1 e.2) := by
            rw [List.mem_filter]
            exact ⟨mem_iff_find?.mpr hf,by simpa using hp⟩
          exact hk (k,v) (List.mem_append_right _ hm) rfl
        simp [hp]

theorem insert {m m' : SortedMap K V} {removed : List (K × V)} (h : Undoes m m' none removed)
    (k : K) (v : V) : Undoes m (m'.insert k v) (some k) (removed++displaced m' k) where
  was e he := by
    cases List.mem_append.mp he with
    | inl hr => exact h.was e hr
    | inr hd =>
        obtain ⟨rfl,hf⟩ := mem_displaced.mp hd
        exact h.find?_of_find? hf
  gone e he hi := by
    have hne : e.1 ≠ k := fun heq => hi (by rw [heq])
    rw [find?_insert_of_ne _ _ hne]
    cases List.mem_append.mp he with
    | inl hr => exact h.gone e hr (by simp)
    | inr hd => exact absurd (mem_displaced.mp hd).1 hne
  fresh a ha hr := by
    cases Option.some.inj ha
    rw [← h.untouched k (by simp) (fun e he => hr e (List.mem_append_left _ he))]
    cases hf : m'.find? k with
    | none => rfl
    | some w => exact absurd rfl (hr (k,w) (List.mem_append_right _ (mem_displaced.mpr ⟨rfl,hf⟩)))
  untouched a ha hr := by
    have hne : a ≠ k := fun heq => ha (by rw [heq])
    rw [find?_insert_of_ne _ _ hne]
    exact h.untouched a (by simp) (fun e he => hr e (List.mem_append_left _ he))

/-- Only the set of displaced entries counts. -/
theorem congr {m m' : SortedMap K V} {inserted : Option K} {removed es : List (K × V)}
    (h : Undoes m m' inserted removed) (hes : ∀ e, e ∈ es ↔ e ∈ removed) :
    Undoes m m' inserted es where
  was e he := h.was e ((hes e).mp he)
  gone e he := h.gone e ((hes e).mp he)
  fresh k hi hk := h.fresh k hi (fun e he => hk e ((hes e).mpr he))
  untouched k hi hk := h.untouched k hi (fun e he => hk e ((hes e).mpr he))

theorem erase {m m' : SortedMap K V} {removed : List (K × V)} (h : Undoes m m' none removed)
    (k : K) : Undoes m (m'.erase k) none (removed++displaced m' k) := by
  apply (h.retain (fun a _ => a ≠ k)).congr
  rintro ⟨a,v⟩
  simp only [List.mem_append,mem_displaced,List.mem_filter,mem_iff_find?]
  apply or_congr_right
  constructor
  · rintro ⟨rfl,hv⟩
    exact ⟨hv,by simp⟩
  · rintro ⟨hv,ha⟩
    have hak : a = k := by simpa using ha
    exact ⟨hak,hak ▸ hv⟩

end Undoes

end Gcoms.UndoLogs
