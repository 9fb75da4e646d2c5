import Gcoms.RatchetSession

/-!
# The hybrid handshake

A responder publishes a signed bundle; an initiator derives both direction keys
from X25519 and ML-KEM against it and sends its first ratchet key encrypted under
counter 1; the responder recomputes the same keys. An honest handshake always
completes, and the two sessions it leaves are mirror images of each other.
-/
namespace Gcoms.RatchetHandshake
open ByteCodec Primitives RatchetFrame RatchetSession

structure Bundle where
  ecdhPub : Block 32
  kemPub : Bytes
  created : U64
  sig : Bytes
  deriving DecidableEq

structure LocalSecrets where
  ecdh : Block 32
  kemDk : Block 64
  deriving DecidableEq

structure InitiatorMaterial where
  eph : Block 32
  kemMessage : Block 32
  nonce : Block 12
  ratchet : Block 32
  deriving DecidableEq

structure FirstMove where
  ephPub : Block 32
  kemCt : Bytes
  nonce : Block 12
  ct : Bytes
  deriving DecidableEq

def FirstMove.header (fm : FirstMove) : Bytes :=
  fm.ephPub.toList++(bigEndian 2 fm.kemCt.length++(fm.kemCt++fm.nonce.toList))

def FirstMove.encode (fm : FirstMove) : Bytes := fm.header++fm.ct

section Crypto
variable (P : Suite)

def Bundle.signingPayload (b : Bundle) : Bytes :=
  ascii "gc1/bundle"++(b.ecdhPub.toList++(b.kemPub++bigEndian 8 b.created.val))

def Bundle.verify (b : Bundle) (identityPk : Bytes) : Bool :=
  b.kemPub.length = kemEkLen ∧ P.mlDsa.verify identityPk b.signingPayload b.sig = true

def issueBundleFromMaterial (identity ecdh : Block 32) (seed : Block 64) (created : U64) :
    Bundle × LocalSecrets :=
  let unsigned : Bundle :=
    ⟨P.x25519.publicKey ecdh,P.mlKem768.encapsulationKey seed,created,[]⟩
  ({ unsigned with sig := P.mlDsa.sign identity unsigned.signingPayload },⟨ecdh,seed⟩)

def dirKey (root : Block 32) (label : Bytes) : Block 32 :=
  hkdf32 P root.toList label (ascii "gc1/dir")

/-- The root of both direction keys. -/
def handshakeRoot (ephPub : Block 32) (nonce : Block 12) (es pqSs : Block 32) : Block 32 :=
  hkdf32 P (ephPub.toList++nonce.toList) (es.toList++pqSs.toList) (ascii "gc1/handshake")

/-- `buildPayload` sees the public part of the move, as the authenticated variant needs. -/
def initiateCore (peerIdentityPk : Bytes) (bundle : Bundle) (material : InitiatorMaterial)
    (now : ℕ) (buildPayload : Block 32 → Bytes → Block 12 → Bytes) :
    Except CryptoError (FirstMove × Session) :=
  if bundle.verify P peerIdentityPk = false then .error .bundleInvalid
  else if P.mlKem768.validKey bundle.kemPub = false then .error .badKemKey
  else
    let es := P.x25519.diffieHellman material.eph bundle.ecdhPub
    let enc := P.mlKem768.encapsulate bundle.kemPub material.kemMessage
    let ephPub := P.x25519.publicKey material.eph
    let root := handshakeRoot P ephPub material.nonce es enc.2
    let payload := buildPayload ephPub enc.1.toList material.nonce
    let plaintext := (P.x25519.publicKey material.ratchet).toList++payload
    let k := chainStep P (dirKey P root (ascii "a2b")) 1
    let fm : FirstMove := ⟨ephPub,enc.1.toList,material.nonce,[]⟩
    .ok ({ fm with ct := sealMessage P k.2 plaintext fm.header },
      { sendChain := k.1
        recvChain := dirKey P root (ascii "b2a")
        sendCtr := 1
        recvCtr := 0
        myKp := material.ratchet
        oldKps := []
        peerPub := none
        skipped := []
        sendRotatedAt := 1
        mixedPeer := none
        epochPqCt := none
        peerKem := some bundle.kemPub
        kemDk := none
        sentSincePq := 1
        pqEvery := defaultPqEveryMsgs
        pqAfter := defaultPqAfter
        lastPq := now })

def LocalSecrets.acceptFromMaterial (secrets : LocalSecrets) (fm : FirstMove) (ratchet : Block 32)
    (now : ℕ) : Except CryptoError (Bytes × Session) :=
  let es := P.x25519.diffieHellman secrets.ecdh fm.ephPub
  match decapsulateSlice P secrets.kemDk fm.kemCt with
  | .error e => .error e
  | .ok pqSs =>
    let root := handshakeRoot P fm.ephPub fm.nonce es pqSs
    let k := chainStep P (dirKey P root (ascii "a2b")) 1
    match openMessage P k.2 fm.ct fm.header with
    | none => .error .decrypt
    | some plaintext =>
        if plaintext.length < 32 then .error .decrypt
        else .ok (plaintext.drop 32,
          { sendChain := dirKey P root (ascii "b2a")
            recvChain := k.1
            sendCtr := 0
            recvCtr := 1
            myKp := ratchet
            oldKps := []
            peerPub := some (pad 32 (plaintext.take 32))
            skipped := []
            sendRotatedAt := 0
            mixedPeer := none
            epochPqCt := none
            peerKem := none
            kemDk := some secrets.kemDk
            sentSincePq := 1
            pqEvery := defaultPqEveryMsgs
            pqAfter := defaultPqAfter
            lastPq := now })

/-! ## The two sessions mirror each other -/

def KemMatch (a b : Session) : Prop :=
  ∀ ek, a.peerKem = some ek → ∃ dk, b.kemDk = some dk ∧ ek = P.mlKem768.encapsulationKey dk

/-- What a completed handshake leaves: an initiator that has sent counter 1 and a
responder that has received it. -/
structure Paired (a b : Session) : Prop where
  counters : a.sendCtr = 1 ∧ a.recvCtr = 0 ∧ b.sendCtr = 0 ∧ b.recvCtr = 1
  rotated : a.sendRotatedAt = 1 ∧ b.sendRotatedAt = 0
  forward : b.recvChain = a.sendChain
  backward : a.recvChain = b.sendChain
  initiator_peer : a.peerPub = none ∧ a.mixedPeer = none
  responder_peer : b.peerPub = some (a.myPub P) ∧ b.mixedPeer = none
  skipped : a.skipped = [] ∧ b.skipped = []
  kem : KemMatch P a b ∧ KemMatch P b a

theorem bundle_verify (identity ecdh : Block 32) (seed : Block 64) (created : U64) :
    (issueBundleFromMaterial P identity ecdh seed created).1.verify P (P.mlDsa.publicKey identity) =
      true := by
  have hlen := P.mlKem768.encapsulationKey_length seed
  have hsig := P.mlDsa.verify_sign identity
  exact decide_eq_true ⟨hlen,hsig _⟩

/-- The initiator accepts every honestly issued bundle. -/
theorem initiateCore_isOk (identity ecdh : Block 32) (seed : Block 64) (created : U64)
    (material : InitiatorMaterial) (now : ℕ) (build : Block 32 → Bytes → Block 12 → Bytes) :
    ∃ fm a, initiateCore P (P.mlDsa.publicKey identity)
      (issueBundleFromMaterial P identity ecdh seed created).1 material now build = .ok (fm,a) ∧
      a.myKp = material.ratchet := by
  have hvalid : P.mlKem768.validKey (issueBundleFromMaterial P identity ecdh seed created).1.kemPub =
      true := P.mlKem768.encapsulationKey_valid seed
  unfold initiateCore
  rw [bundle_verify,hvalid]
  exact ⟨_,_,rfl,rfl⟩

/-- An honest first move is accepted, with the payload it carried. -/
theorem accept_initiate {identity ecdh : Block 32} {seed : Block 64} {created : U64}
    {material : InitiatorMaterial} {build : Block 32 → Bytes → Block 12 → Bytes} {now : ℕ}
    {fm : FirstMove} {a : Session}
    (h : initiateCore P (P.mlDsa.publicKey identity)
      (issueBundleFromMaterial P identity ecdh seed created).1 material now build = .ok (fm,a))
    (ratchet : Block 32) (later : ℕ) :
    ∃ b, (issueBundleFromMaterial P identity ecdh seed created).2.acceptFromMaterial P fm ratchet
      later = .ok (build fm.ephPub fm.kemCt fm.nonce,b) ∧ Paired P a b := by
  have hvalid : P.mlKem768.validKey (issueBundleFromMaterial P identity ecdh seed created).1.kemPub =
      true := P.mlKem768.encapsulationKey_valid seed
  unfold initiateCore at h
  rw [bundle_verify,hvalid] at h
  simp only [Bool.true_eq_false,if_false,Except.ok.injEq,Prod.mk.injEq] at h
  obtain ⟨rfl,rfl⟩ := h
  have hes : P.x25519.diffieHellman ecdh (P.x25519.publicKey material.eph) =
      P.x25519.diffieHellman material.eph (P.x25519.publicKey ecdh) :=
    P.x25519.diffieHellman_comm _ _
  unfold LocalSecrets.acceptFromMaterial
  simp only [issueBundleFromMaterial,FirstMove.header]
  have hshort : ∀ rest : Bytes, ¬ ((P.x25519.publicKey material.ratchet).toList++rest).length < 32 := by
    intro rest
    simp
  have hdrop : ∀ rest : Bytes,
      ((P.x25519.publicKey material.ratchet).toList++rest).drop 32 = rest := by
    intro rest
    exact List.drop_left' (by simp)
  have htake : ∀ rest : Bytes, pad 32 (((P.x25519.publicKey material.ratchet).toList++rest).take 32) =
      P.x25519.publicKey material.ratchet := by
    intro rest
    rw [List.take_left' (by simp)]
    simpa using pad_self (P.x25519.publicKey material.ratchet) []
  simp only [decapsulateSlice_encapsulate,hes,openMessage_sealMessage,hshort,if_false,hdrop,htake]
  refine ⟨_,rfl,?_⟩
  refine ⟨⟨rfl,rfl,rfl,rfl⟩,⟨rfl,rfl⟩,rfl,rfl,⟨rfl,rfl⟩,⟨rfl,rfl⟩,⟨rfl,rfl⟩,?_,?_⟩
  · intro ek hek
    cases hek
    exact ⟨seed,rfl,rfl⟩
  · intro ek hek
    cases hek

end Crypto

end Gcoms.RatchetHandshake
