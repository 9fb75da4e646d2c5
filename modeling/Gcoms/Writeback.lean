import Mathlib

/-!
# Delayed write-back

A store keeps what was written last in view, but a crash may leave any value
that was written since the last synchronization. A `Cell` holds one value, such
as an entry of a directory, with the values a crash may leave. A `Content` holds
the bytes of a file with the length of the part that is known to be on the
medium; a crash keeps that part and leaves anything behind it.
-/
namespace Gcoms.Writeback

structure Cell (α : Type) where
  current : α
  possible : List α
  mem : current ∈ possible

namespace Cell
variable {α : Type}

def settled (a : α) : Cell α := ⟨a,[a],List.mem_singleton_self a⟩

def write (c : Cell α) (a : α) : Cell α := ⟨a,a::c.possible,List.mem_cons_self⟩

def sync (c : Cell α) : Cell α := settled c.current

/-- What a crash leaves: the given value if it may, else the current one. -/
def crash [DecidableEq α] (c : Cell α) (a : α) : Cell α :=
  settled (if a ∈ c.possible then a else c.current)

@[simp] theorem settled_current (a : α) : (settled a).current = a := rfl

@[simp] theorem settled_possible (a : α) : (settled a).possible = [a] := rfl

@[simp] theorem write_current (c : Cell α) (a : α) : (c.write a).current = a := rfl

@[simp] theorem write_possible (c : Cell α) (a : α) : (c.write a).possible = a::c.possible := rfl

@[simp] theorem sync_current (c : Cell α) : c.sync.current = c.current := rfl

@[simp] theorem sync_possible (c : Cell α) : c.sync.possible = [c.current] := rfl

theorem mem_of_mem_sync {c : Cell α} {a : α} (h : a ∈ c.sync.possible) : a ∈ c.possible := by
  rw [sync_possible,List.mem_singleton] at h
  exact h ▸ c.mem

theorem mem_of_mem_crash [DecidableEq α] {c : Cell α} {a b : α}
    (h : b ∈ (c.crash a).possible) : b ∈ c.possible := by
  rw [crash,settled_possible,List.mem_singleton] at h
  split_ifs at h with ha
  · exact h ▸ ha
  · exact h ▸ c.mem

end Cell

structure Content (β : Type) where
  bytes : List β
  synced : ℕ
  bound : synced ≤ bytes.length

section Overwrite
variable {β : Type} [Zero β]

/-- The bytes with `data` written at `offset`; a gap is filled with zeros. -/
def overwrite (bytes : List β) (offset : ℕ) (data : List β) : List β :=
  bytes.take offset++(List.replicate (offset-bytes.length) 0++
    (data++bytes.drop (offset+data.length)))

theorem overwrite_within {bytes : List β} {offset : ℕ} (h : offset ≤ bytes.length)
    (data : List β) :
    overwrite bytes offset data = bytes.take offset++(data++bytes.drop (offset+data.length)) := by
  rw [overwrite,Nat.sub_eq_zero_of_le h,List.replicate_zero,List.nil_append]

theorem take_overwrite {bytes data : List β} {offset n : ℕ} (h : offset ≤ bytes.length)
    (hn : n ≤ offset) : (overwrite bytes offset data).take n = bytes.take n := by
  rw [overwrite_within h,List.take_append_of_le_length (by simp; omega),List.take_take,
    Nat.min_eq_left hn]

theorem take_overwrite_append {bytes data : List β} {offset : ℕ} (h : offset ≤ bytes.length) :
    (overwrite bytes offset data).take (offset+data.length) = bytes.take offset++data := by
  rw [overwrite_within h,← List.append_assoc]
  refine List.take_left' ?_
  simp
  omega

theorem length_overwrite {bytes data : List β} {offset : ℕ} (h : offset ≤ bytes.length) :
    (overwrite bytes offset data).length = max bytes.length (offset+data.length) := by
  rw [overwrite_within h]
  simp
  omega

end Overwrite

namespace Content
variable {β : Type}

def empty : Content β := ⟨[],0,le_rfl⟩

def write [Zero β] (c : Content β) (offset : ℕ) (data : List β) : Content β where
  bytes := overwrite c.bytes offset data
  synced := min c.synced offset
  bound := by
    have := c.bound
    rw [overwrite]
    simp
    omega

def sync (c : Content β) : Content β := ⟨c.bytes,c.bytes.length,le_rfl⟩

/-- Cuts the file down to `n` bytes. -/
def truncate (c : Content β) (n : ℕ) : Content β where
  bytes := c.bytes.take n
  synced := min c.synced n
  bound := by
    have := c.bound
    simp
    omega

/-- A crash keeps what is on the medium; `tail` is what it leaves of the rest. -/
def crash (c : Content β) (tail : List β) : Content β :=
  if c.synced = c.bytes.length then c else sync ⟨c.bytes.take c.synced++tail,0,Nat.zero_le _⟩

@[simp] theorem sync_bytes (c : Content β) : c.sync.bytes = c.bytes := rfl

@[simp] theorem sync_synced (c : Content β) : c.sync.synced = c.bytes.length := rfl

@[simp] theorem truncate_bytes (c : Content β) (n : ℕ) : (c.truncate n).bytes = c.bytes.take n := rfl

@[simp] theorem truncate_synced (c : Content β) (n : ℕ) :
    (c.truncate n).synced = min c.synced n := rfl

@[simp] theorem write_bytes [Zero β] (c : Content β) (offset : ℕ) (data : List β) :
    (c.write offset data).bytes = overwrite c.bytes offset data := rfl

@[simp] theorem write_synced [Zero β] (c : Content β) (offset : ℕ) (data : List β) :
    (c.write offset data).synced = min c.synced offset := rfl

theorem take_crash {c : Content β} {n : ℕ} (h : n ≤ c.synced) (tail : List β) :
    (c.crash tail).bytes.take n = c.bytes.take n := by
  unfold crash
  split_ifs
  · rfl
  · rw [sync_bytes,List.take_append_of_le_length (by simp; exact ⟨h,h.trans c.bound⟩),
      List.take_take,Nat.min_eq_left h]

theorem synced_crash (c : Content β) (tail : List β) : c.synced ≤ (c.crash tail).synced := by
  have := c.bound
  unfold crash
  split_ifs
  · exact le_rfl
  · simp
    omega

theorem crash_of_synced {c : Content β} (h : c.synced = c.bytes.length) (tail : List β) :
    c.crash tail = c := by
  rw [crash,if_pos h]

end Content

end Gcoms.Writeback
