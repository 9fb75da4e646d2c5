import Gcoms.ByteCodec

/-!
# UTF-8 text and chunks of byte strings

A text is a `String`; its bytes are the UTF-8 encoding, and decoding refuses
what is not UTF-8. `chunk n bs i` is the `i`-th of the consecutive pieces of
length `n` that a byte string is cut into, the last one possibly shorter.
-/
namespace Gcoms.ByteStrings
open ByteCodec

def utf8 (s : String) : Bytes := s.toUTF8.data.toList.map (fun b => Fin.ofNat 256 b.toNat)

def fromUtf8 (bs : Bytes) : Option String :=
  String.fromUTF8? ⟨(bs.map (fun b => UInt8.ofNat b.val)).toArray⟩

theorem fromUtf8_utf8 (s : String) : fromUtf8 (utf8 s) = some s := by
  have hbytes : (⟨((utf8 s).map (fun b => UInt8.ofNat b.val)).toArray⟩ : ByteArray) = s.toUTF8 := by
    apply ByteArray.ext
    apply Array.ext'
    rw [utf8,List.map_map]
    refine (List.map_congr_left (g := id) ?_).trans (List.map_id _)
    intro b _
    apply UInt8.toNat_inj.mp
    simp
  have hvalid : s.toUTF8.IsValidUTF8 := s.isValidUTF8
  rw [fromUtf8,hbytes,String.fromUTF8?,dif_pos hvalid]
  rfl

theorem utf8_length (s : String) : (utf8 s).length = s.utf8ByteSize := by
  rw [utf8,List.length_map]
  rfl

section Chunks
variable {α : Type}

def chunk (n : ℕ) (l : List α) (i : ℕ) : List α := (l.drop (i*n)).take n

def chunkCount (n : ℕ) (l : List α) : ℕ := (l.length+n-1)/n

def chunks (n : ℕ) (l : List α) : List (List α) := (List.range (chunkCount n l)).map (chunk n l)

@[simp] theorem chunks_length (n : ℕ) (l : List α) : (chunks n l).length = chunkCount n l := by
  simp [chunks]

theorem flatten_chunk_range (n : ℕ) (l : List α) (k : ℕ) :
    ((List.range k).map (chunk n l)).flatten = l.take (k*n) := by
  induction k with
  | zero => simp
  | succ k ih =>
      rw [List.range_succ,List.map_append,List.flatten_append,ih,Nat.succ_mul,List.take_add]
      simp [chunk]

theorem chunks_flatten {n : ℕ} (hn : 0 < n) (l : List α) : (chunks n l).flatten = l := by
  rw [chunks,flatten_chunk_range]
  apply List.take_of_length_le
  have h := Nat.lt_mul_div_succ (l.length+n-1) hn
  rw [Nat.mul_add,Nat.mul_comm] at h
  unfold chunkCount
  omega

theorem chunk_length_pos {n : ℕ} (hn : 0 < n) {l : List α} {i : ℕ} (hi : i < chunkCount n l) :
    0 < (chunk n l i).length := by
  have h : (i+1)*n ≤ l.length+n-1 := (Nat.le_div_iff_mul_le hn).mp hi
  rw [Nat.add_mul] at h
  simp only [chunk,List.length_take,List.length_drop]
  omega

/-- The lengths of the chunks add up. -/
theorem sum_chunk_length {n : ℕ} (hn : 0 < n) (l : List α) :
    ∑ i ∈ Finset.range (chunkCount n l), (chunk n l i).length = l.length := by
  conv_rhs => rw [← chunks_flatten hn l]
  rw [List.length_flatten,chunks,List.map_map,← List.sum_toFinset _ (List.nodup_range),
    List.toFinset_range]
  rfl

end Chunks

end Gcoms.ByteStrings
