import Gcoms.ByteCodec

/-!
# Cryptographic primitives as parameters

Hashing, key derivation, authenticated encryption, X25519 and ML-KEM-768 come
from third-party crates. The development takes them as functions together with
the documented laws that honest use relies on: decryption inverts encryption,
Diffie-Hellman commutes, and decapsulation recovers the encapsulated secret.
Nothing here says that the functions are hard to invert. Collision freedom is
stated where it is used, for the inputs of one run, because no function into a
fixed array is injective on all byte strings.
-/
namespace Gcoms.Primitives
open ByteCodec

/-- AES-GCM with a `k`-byte key and the usual twelve-byte nonce. -/
structure Aead (k : ℕ) where
  encrypt : Block k → Block 12 → (aad msg : Bytes) → Bytes
  decrypt : Block k → Block 12 → (aad ct : Bytes) → Option Bytes
  encrypt_length : ∀ key nonce aad msg, (encrypt key nonce aad msg).length = msg.length+16
  decrypt_encrypt : ∀ key nonce aad msg,
    decrypt key nonce aad (encrypt key nonce aad msg) = some msg

/-- X25519 on 32-byte secrets and public keys. -/
structure KeyAgreement where
  publicKey : Block 32 → Block 32
  diffieHellman : Block 32 → Block 32 → Block 32
  diffieHellman_comm : ∀ a b, diffieHellman a (publicKey b) = diffieHellman b (publicKey a)

/-- ML-KEM-768. A decapsulation key is its 64-byte seed; `validKey` is the
crate's check of an encoded encapsulation key. -/
structure Kem where
  encapsulationKey : Block 64 → Bytes
  validKey : Bytes → Bool
  encapsulate : Bytes → Block 32 → Block 1088 × Block 32
  decapsulate : Block 64 → Block 1088 → Block 32
  encapsulationKey_length : ∀ dk, (encapsulationKey dk).length = 1184
  encapsulationKey_valid : ∀ dk, validKey (encapsulationKey dk) = true
  decapsulate_encapsulate : ∀ dk m,
    decapsulate dk (encapsulate (encapsulationKey dk) m).1 = (encapsulate (encapsulationKey dk) m).2

/-- ML-DSA on secret seeds. -/
structure SignatureScheme where
  publicKey : Block 32 → Bytes
  sign : Block 32 → Bytes → Bytes
  verify : (publicKey message signature : Bytes) → Bool
  verify_sign : ∀ sk m, verify (publicKey sk) m (sign sk m) = true

structure Suite where
  sha256 : Bytes → Block 32
  hkdf : (salt ikm info : Bytes) → (n : ℕ) → Block n
  hmac : Block 32 → Bytes → Block 32
  aes128 : Aead 16
  aes256 : Aead 32
  x25519 : KeyAgreement
  mlKem768 : Kem
  mlDsa : SignatureScheme

/-- The first `n` bytes, padded with zeros. -/
def pad (n : ℕ) (bs : Bytes) : Block n :=
  ⟨(bs++List.replicate n 0).take n,by simp⟩

theorem pad_self {n : ℕ} (b : Block n) (rest : Bytes) : pad n (b.toList++rest) = b := by
  apply List.Vector.eq
  simp [pad,List.Vector.toList]

theorem pad_pad {n k : ℕ} (b : Block n) (h : n ≤ k) : pad n (pad k b.toList).toList = b := by
  have hp : (pad k b.toList).toList = b.toList++(List.replicate k 0).take (k-n) := by
    change (b.toList++List.replicate k 0).take k = _
    rw [List.take_append,List.take_of_length_le (by simpa using h),List.Vector.toList_length]
  rw [hp,pad_self]

/-- Encryption that appends a sixteen-byte tag and hides nothing. -/
def openAead (k : ℕ) : Aead k where
  encrypt _ _ _ msg := msg++List.replicate 16 0
  decrypt _ _ _ ct := if ct.drop (ct.length-16) = List.replicate 16 0 ∧ 16 ≤ ct.length
    then some (ct.take (ct.length-16)) else none
  encrypt_length := by simp
  decrypt_encrypt := by simp

/-- A computable suite that satisfies every law, for concrete runs. -/
def openSuite : Suite where
  sha256 bs := pad 32 bs
  hkdf salt ikm info n := pad n (salt++ikm++info)
  hmac _ msg := pad 32 msg.reverse
  aes128 := openAead 16
  aes256 := openAead 32
  x25519 :=
    { publicKey := id
      diffieHellman := fun a b => List.Vector.map₂ (·+·) a b
      diffieHellman_comm := by
        intro a b
        apply List.Vector.ext
        intro i
        simp [add_comm] }
  mlKem768 :=
    { encapsulationKey := fun dk => (pad 1184 dk.toList).toList
      validKey := fun ek => ek.length == 1184
      encapsulate := fun _ m => (pad 1088 m.toList,m)
      decapsulate := fun _ ct => pad 32 ct.toList
      encapsulationKey_length := by simp
      encapsulationKey_valid := by simp
      decapsulate_encapsulate := by
        intro _ m
        exact pad_pad m (by omega) }
  mlDsa :=
    { publicKey := fun sk => sk.toList
      sign := fun _ m => (pad 32 m).toList
      verify := fun _ m sig => (pad 32 m).toList == sig
      verify_sign := by simp }

end Gcoms.Primitives
