import Gcoms.Primitives

/-!
# Ratchet frames on the wire

A frame header names its counter, the last counter of the previous sending
epoch, the sender's epoch key, the receiver key that epoch was mixed with and
an optional ML-KEM ciphertext. The header is the associated data of the
ciphertext that follows it. `Frame.decode` reads back what `Frame.encode`
wrote, provided the counters and the ciphertext length fit their fields.
-/
namespace Gcoms.RatchetFrame
open ByteCodec

/-- Bounded out-of-order tolerance per direction. -/
def maxSkip : ℕ := 64

/-- Counters, both ratchet keys, option tags, KEM ciphertext and AEAD tag. -/
def maxFrameOverhead : ℕ := 8+8+32+1+32+1+2+1088+16

def kemEkLen : ℕ := 1184
def kemCtLen : ℕ := 1088

structure Frame where
  ctr : ℕ
  pn : ℕ
  senderPub : Block 32
  mixedWith : Option (Block 32)
  pqCt : Option Bytes
  ct : Bytes
  deriving DecidableEq

def optionKey : Option (Block 32) → Bytes
  | some m => 1::m.toList
  | none => [0]

def optionCiphertext : Option Bytes → Bytes
  | some c => 1::(bigEndian 2 c.length++c)
  | none => [0]

def Frame.headerBytes (f : Frame) : Bytes :=
  bigEndian 8 f.ctr++(bigEndian 8 f.pn++(f.senderPub.toList++
    (optionKey f.mixedWith++optionCiphertext f.pqCt)))

def Frame.encode (f : Frame) : Bytes := f.headerBytes++f.ct

/-- A tag byte other than one means that the option is absent. -/
def readKey : Reader Unit (Option (Block 32)) := do
  let tag ← word () 1
  if tag = 1 then
    let m ← take () 32
    return some m
  else return none

def readCiphertext : Reader Unit (Option Bytes) := do
  let tag ← word () 1
  if tag = 1 then
    let l ← word () 2
    let c ← take () l
    return some c.toList
  else return none

def readHeader : Reader Unit (ℕ × ℕ × Block 32 × Option (Block 32) × Option Bytes) := do
  let ctr ← word () 8
  let pn ← word () 8
  check (pn < ctr) ()
  let senderPub ← take () 32
  let mixedWith ← readKey
  let pqCt ← readCiphertext
  return (ctr,pn,senderPub,mixedWith,pqCt)

/-- The unread rest of the buffer is the ciphertext. -/
def Frame.decode (buf : Bytes) : Option Frame :=
  if buf.length < 8+8+32+1+1 then none else
    match readHeader.run buf with
    | .error _ => none
    | .ok ((ctr,pn,senderPub,mixedWith,pqCt),ct) => some ⟨ctr,pn,senderPub,mixedWith,pqCt,ct⟩

/-- The fields fit the widths in which they are sent. -/
structure Frame.Fits (f : Frame) : Prop where
  ctr_lt : f.ctr < 2^64
  pn_lt : f.pn < f.ctr
  pqCt_lt : ∀ c, f.pqCt = some c → c.length < 2^16

theorem reads_key (m : Option (Block 32)) : Reads readKey (optionKey m) m := by
  cases m with
  | none =>
      have h : Reads (word () 1) [0] 0 := Reads.word () 1 0 (by omega)
      exact h.last (Reads.pure none)
  | some m =>
      have h : Reads (word () 1) [1] 1 := Reads.word () 1 1 (by omega)
      exact h.bind ((Reads.take () m).last (Reads.pure (some m)))

theorem reads_ciphertext (c : Option Bytes) (hc : ∀ b, c = some b → b.length < 2^16) :
    Reads readCiphertext (optionCiphertext c) c := by
  cases c with
  | none =>
      have h : Reads (word () 1) [0] 0 := Reads.word () 1 0 (by omega)
      exact h.last (Reads.pure none)
  | some b =>
      have h : Reads (word () 1) [1] 1 := Reads.word () 1 1 (by omega)
      have hl := Reads.word () 2 b.length (hc b rfl)
      exact h.bind (hl.bind ((Reads.take () (⟨b,rfl⟩ : Block b.length)).last (Reads.pure (some b))))

theorem Frame.reads_header {f : Frame} (hf : f.Fits) :
    Reads readHeader f.headerBytes (f.ctr,f.pn,f.senderPub,f.mixedWith,f.pqCt) := by
  have hpn : f.pn < 256^8 := hf.pn_lt.trans hf.ctr_lt
  refine (Reads.word () 8 f.ctr hf.ctr_lt).bind ?_
  refine (Reads.word () 8 f.pn hpn).bind ?_
  refine (Reads.check () hf.pn_lt).silent ?_
  refine (Reads.take () f.senderPub).bind ?_
  refine (reads_key f.mixedWith).bind ?_
  exact (reads_ciphertext f.pqCt hf.pqCt_lt).last (Reads.pure _)

theorem optionKey_length_pos (m : Option (Block 32)) : 1 ≤ (optionKey m).length := by
  cases m <;> simp [optionKey]

theorem optionCiphertext_length_pos (c : Option Bytes) : 1 ≤ (optionCiphertext c).length := by
  cases c <;> simp [optionCiphertext]

theorem Frame.decode_encode {f : Frame} (hf : f.Fits) : Frame.decode f.encode = some f := by
  have hlen : ¬ f.encode.length < 8+8+32+1+1 := by
    have hk := optionKey_length_pos f.mixedWith
    have hc := optionCiphertext_length_pos f.pqCt
    simp only [Frame.encode,Frame.headerBytes,List.length_append,bigEndian_length,
      List.Vector.toList_length]
    omega
  have hr := (Frame.reads_header hf) f.ct
  unfold Frame.decode
  rw [if_neg hlen,Frame.encode,hr]

end Gcoms.RatchetFrame
