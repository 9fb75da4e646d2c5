import Gcoms.ByteCodec

/-!
# Concatenations that determine their fields

Two concatenations of the same layout are equal exactly when their fields are.
Each rule below takes one field off the front of both sides: an array, whose
length is part of its type, a word that fits its width, a counted string, or a
name closed by a byte that it does not contain. A layout is resolved by
rewriting with the rules along its fields.
-/
namespace Gcoms.Layouts
open ByteCodec

theorem append_inj_iff {a b x y : Bytes} (h : a.length = b.length) :
    a++x = b++y ↔ a = b ∧ x = y := by
  constructor
  · intro heq
    exact List.append_inj heq h
  · rintro ⟨rfl,rfl⟩
    rfl

theorem block_inj {n : ℕ} {a b : Block n} : a.toList = b.toList ↔ a = b :=
  List.Vector.toList_injective.eq_iff

theorem block_append_inj {n : ℕ} {a b : Block n} {x y : Bytes} :
    a.toList++x = b.toList++y ↔ a = b ∧ x = y := by
  rw [append_inj_iff (by simp),block_inj]

theorem word_append_inj {n v w : ℕ} {x y : Bytes} (hv : v < 256^n) (hw : w < 256^n) :
    bigEndian n v++x = bigEndian n w++y ↔ v = w ∧ x = y := by
  rw [append_inj_iff (by simp)]
  constructor
  · rintro ⟨h,rfl⟩
    exact ⟨bigEndian_injective hv hw h,rfl⟩
  · rintro ⟨rfl,rfl⟩
    exact ⟨rfl,rfl⟩

theorem u64_append_inj {v w : ℕ} {x y : Bytes} (hv : v < 2^64) (hw : w < 2^64) :
    bigEndian 8 v++x = bigEndian 8 w++y ↔ v = w ∧ x = y :=
  word_append_inj (by omega) (by omega)

theorem u64_inj {v w : ℕ} (hv : v < 2^64) (hw : w < 2^64) :
    bigEndian 8 v = bigEndian 8 w ↔ v = w := by
  simpa using u64_append_inj (x := []) (y := []) hv hw

theorem u16_append_inj {v w : ℕ} {x y : Bytes} (hv : v < 2^16) (hw : w < 2^16) :
    bigEndian 2 v++x = bigEndian 2 w++y ↔ v = w ∧ x = y :=
  word_append_inj (by omega) (by omega)

/-- A string behind its length, at the end of a layout. -/
theorem counted_inj {a b : Bytes} : bigEndian 2 a.length++a = bigEndian 2 b.length++b ↔ a = b := by
  rw [append_inj_iff (by simp)]
  constructor
  · exact fun h => h.2
  · rintro rfl
    exact ⟨rfl,rfl⟩

/-- A name ends at the first `z`. -/
theorem name_append_inj {z : Byte} {a b x y : Bytes} (ha : z ∉ a) (hb : z ∉ b) :
    a++z::x = b++z::y ↔ a = b ∧ x = y := by
  induction a generalizing b with
  | nil =>
      cases b with
      | nil => simp
      | cons d b =>
          have hz : z ≠ d := fun h => hb (by simp [h])
          simp [hz]
  | cons c a ih =>
      cases b with
      | nil =>
          have hz : c ≠ z := fun h => ha (by simp [h])
          simp [hz]
      | cons d b =>
          have := @ih b (fun h => ha (List.mem_cons_of_mem _ h)) (fun h => hb (List.mem_cons_of_mem _ h))
          simp only [List.cons_append,List.cons.injEq,this,and_assoc]

end Gcoms.Layouts
