import Mathlib

/-!
# Byte strings, big-endian words and sequential readers

Every stored or transmitted format of the development is a concatenation of
fixed arrays, big-endian words and counted repetitions. An encoder is a list
of bytes; a decoder is a reader that consumes its input from the left and may
fail. `Reads p bs a` says that the reader `p` consumes exactly `bs`, whatever
follows it, and returns `a`. The rules below compose this judgement along the
binds and the counted loops of a decoder, so that a round trip is a derivation
which follows the shape of the format.
-/
namespace Gcoms.ByteCodec

abbrev Byte := Fin 256
abbrev U16 := Fin (2^16)
abbrev U32 := Fin (2^32)
abbrev U64 := Fin (2^64)
abbrev Bytes := List Byte

instance byteNeZero : NeZero 256 := ⟨by decide⟩
instance u16NeZero : NeZero (2^16) := ⟨by decide⟩
instance u32NeZero : NeZero (2^32) := ⟨by decide⟩
instance u64NeZero : NeZero (2^64) := ⟨by decide⟩

/-- A fixed byte array; the length is part of the type. -/
abbrev Block (n : ℕ) := List.Vector Byte n

/-- Arrays are ordered as their bytes are, lexicographically. -/
instance (n : ℕ) : LinearOrder (Block n) := inferInstanceAs (LinearOrder {l : Bytes // l.length = n})

/-- The `n` low base-256 digits of `v`, most significant first. -/
def bigEndian : ℕ → ℕ → Bytes
  | 0,_ => []
  | n+1,v => bigEndian n (v/256) ++ [Fin.ofNat 256 v]

def readBigEndian (bs : Bytes) : ℕ := bs.foldl (fun acc b => 256*acc+b.val) 0

@[simp] theorem bigEndian_length (n v : ℕ) : (bigEndian n v).length = n := by
  induction n generalizing v with
  | zero => rfl
  | succ n ih => simp [bigEndian,ih]

def wordBlock (n v : ℕ) : Block n := ⟨bigEndian n v,bigEndian_length n v⟩

@[simp] theorem wordBlock_toList (n v : ℕ) : (wordBlock n v).toList = bigEndian n v := rfl

@[simp] theorem readBigEndian_nil : readBigEndian [] = 0 := rfl

@[simp] theorem readBigEndian_snoc (bs : Bytes) (b : Byte) :
    readBigEndian (bs++[b]) = 256*readBigEndian bs+b.val := by
  simp [readBigEndian,List.foldl_append]

theorem readBigEndian_lt (bs : Bytes) : readBigEndian bs < 256^bs.length := by
  induction bs using List.reverseRecOn with
  | nil => simp
  | append_singleton bs b ih =>
      simp only [readBigEndian_snoc,List.length_append,List.length_singleton,pow_succ]
      have hb := b.isLt
      omega

theorem readBigEndian_bigEndian (n v : ℕ) (hv : v < 256^n) :
    readBigEndian (bigEndian n v) = v := by
  induction n generalizing v with
  | zero =>
      have hz : v = 0 := by simpa using hv
      simp [bigEndian,hz]
  | succ n ih =>
      have hd : v/256 < 256^n := by
        rw [pow_succ] at hv
        omega
      simp only [bigEndian,readBigEndian_snoc,ih _ hd,Fin.val_ofNat]
      omega

theorem bigEndian_readBigEndian (bs : Bytes) :
    bigEndian bs.length (readBigEndian bs) = bs := by
  induction bs using List.reverseRecOn with
  | nil => rfl
  | append_singleton bs b ih =>
      have hb := b.isLt
      have hq : (256*readBigEndian bs+b.val)/256 = readBigEndian bs := by omega
      have hr : Fin.ofNat 256 (256*readBigEndian bs+b.val) = b := by
        apply Fin.ext
        simp only [Fin.val_ofNat]
        omega
      simp only [List.length_append,List.length_singleton,bigEndian,readBigEndian_snoc,hq,hr,ih]

theorem bigEndian_injective {n v w : ℕ} (hv : v < 256^n) (hw : w < 256^n)
    (h : bigEndian n v = bigEndian n w) : v = w := by
  rw [← readBigEndian_bigEndian n v hv,h,readBigEndian_bigEndian n w hw]

/-- A byte-string literal of the source. -/
def ascii (s : String) : Bytes := s.toList.map (fun c => Fin.ofNat 256 c.toNat)

/-- `bytes[a..b]`. -/
def slice (bs : Bytes) (a b : ℕ) : Bytes := (bs.drop a).take (b-a)

theorem slice_length {bs : Bytes} {a b : ℕ} (hb : b ≤ bs.length) :
    (slice bs a b).length = b-a := by
  simp only [slice,List.length_take,List.length_drop]
  omega

/-- One field of a concatenation, at the offsets of its neighbours. -/
theorem slice_field (pre : Bytes) {bs mid post : Bytes} {i j : ℕ} (h : bs = pre++(mid++post))
    (hi : pre.length = i) (hj : i+mid.length = j) : slice bs i j = mid := by
  subst hi
  subst hj
  simp [slice,h]

/-- A reader consumes a prefix of its input or reports why it cannot. -/
abbrev Reader (ε α : Type) := StateT Bytes (Except ε) α

section Readers
variable {ε α β σ : Type}

/-- The next `n` bytes, or `short` when fewer remain. -/
def take (short : ε) (n : ℕ) : Reader ε (Block n) := fun input =>
  if h : n ≤ input.length then .ok (⟨input.take n,by simp [h]⟩,input.drop n)
  else .error short

/-- One big-endian word of `n` bytes. -/
def word (short : ε) (n : ℕ) : Reader ε ℕ := do
  let b ← take short n
  return readBigEndian b.toList

/-- Fails with `e` unless the condition holds. -/
def check (c : Prop) [Decidable c] (e : ε) : Reader ε Unit :=
  if c then pure () else throw e

/-- A fallible computation that consumes nothing. -/
def lift (x : Except ε α) : Reader ε α := fun input =>
  match x with
  | .error e => .error e
  | .ok a => .ok (a,input)

/-- A counted loop over an accumulator. -/
def loop (step : σ → Reader ε σ) : ℕ → σ → Reader ε σ
  | 0,s => pure s
  | n+1,s => do
      let s' ← step s
      loop step n s'

/-- Consumes exactly `bs`, in front of any continuation, and returns `a`. -/
def Reads (p : Reader ε α) (bs : Bytes) (a : α) : Prop :=
  ∀ rest, p.run (bs++rest) = .ok (a,rest)

theorem Reads.run {p : Reader ε α} {bs : Bytes} {a : α} (h : Reads p bs a) :
    p.run bs = .ok (a,[]) := by
  simpa using h []

theorem Reads.pure (a : α) : Reads (Pure.pure a : Reader ε α) [] a := by
  intro rest
  rfl

theorem Reads.bind_run {p : Reader ε α} {bs : Bytes} {a : α} (hp : Reads p bs a)
    (f : α → Reader ε β) (rest : Bytes) : (p >>= f).run (bs++rest) = (f a).run rest := by
  simp only [StateT.run_bind,hp rest]
  rfl

theorem Reads.bind {p : Reader ε α} {f : α → Reader ε β} {bs cs : Bytes} {a : α} {b : β}
    (hp : Reads p bs a) (hf : Reads (f a) cs b) : Reads (p >>= f) (bs++cs) b := by
  intro rest
  have h₁ := hp (cs++rest)
  have h₂ := hf rest
  simp only [StateT.run_bind,List.append_assoc,h₁]
  exact h₂

/-- A bind whose head consumes nothing. -/
theorem Reads.silent {p : Reader ε α} {f : α → Reader ε β} {cs : Bytes} {a : α} {b : β}
    (hp : Reads p [] a) (hf : Reads (f a) cs b) : Reads (p >>= f) cs b := by
  simpa using hp.bind hf

/-- A bind whose continuation consumes nothing. -/
theorem Reads.last {p : Reader ε α} {f : α → Reader ε β} {bs : Bytes} {a : α} {b : β}
    (hp : Reads p bs a) (hf : Reads (f a) [] b) : Reads (p >>= f) bs b := by
  simpa using hp.bind hf

theorem Reads.take (short : ε) {n : ℕ} (b : Block n) :
    Reads (ByteCodec.take short n) b.toList b := by
  intro rest
  have hn : n ≤ (b.toList++rest).length := by simp
  simp only [StateT.run,ByteCodec.take,hn,↓reduceDIte]
  congr 2
  · apply List.Vector.eq
    simp [List.Vector.toList]
  · simp

theorem Reads.word (short : ε) (n v : ℕ) (hv : v < 256^n) :
    Reads (ByteCodec.word short n) (bigEndian n v) v := by
  have hb := Reads.take short (wordBlock n v)
  refine hb.last ?_
  rw [wordBlock_toList,readBigEndian_bigEndian n v hv]
  exact Reads.pure v

theorem Reads.check {c : Prop} [Decidable c] (e : ε) (h : c) :
    Reads (ByteCodec.check c e) [] () := by
  simp only [ByteCodec.check,h,↓reduceIte]
  exact Reads.pure ()

theorem Reads.lift {x : Except ε α} {a : α} (h : x = .ok a) :
    Reads (ByteCodec.lift x) [] a := by
  intro rest
  simp only [StateT.run,ByteCodec.lift,h,List.nil_append]

/-- A counted loop reads the concatenated encodings of a list. The step lemma
may use which items have been consumed already. -/
theorem Reads.loop {ι : Type} (step : σ → Reader ε σ) (enc : ι → Bytes)
    (next : σ → ι → σ) (xs : List ι) (s : σ)
    (h : ∀ pre x post, xs = pre++x::post →
      Reads (step (pre.foldl next s)) (enc x) (next (pre.foldl next s) x)) :
    Reads (ByteCodec.loop step xs.length s) (xs.flatMap enc) (xs.foldl next s) := by
  induction xs generalizing s with
  | nil => exact Reads.pure s
  | cons x xs ih =>
      have hx := h [] x xs rfl
      refine Reads.bind (a := next s x) hx ?_
      apply ih (next s x)
      intro pre y post hxs
      exact h (x::pre) y post (by rw [hxs]; rfl)

end Readers

end Gcoms.ByteCodec
