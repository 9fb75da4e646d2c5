import Gcoms.KeyChains
import Gcoms.RatchetFrame

/-!
# The hybrid double ratchet

One party's session and its two operations. Sending starts a new epoch, with a
fresh X25519 key and possibly an ML-KEM encapsulation, exactly when the peer has
announced a key that was not mixed yet. Receiving follows the peer's chain to
the counter of the frame, storing the message keys of the counters it skips,
and commits only after the frame has authenticated.

Time is a natural number of nanoseconds on one monotonic clock. What the source
draws from its random generator is an argument. Operations return the session
together with their result, because a failed operation may still have pruned
skipped keys or begun an epoch.
-/
namespace Gcoms.RatchetSession
open ByteCodec Primitives RatchetFrame KeyChains

inductive CryptoError where
  | bundleInvalid | badKemKey | badKemCiphertext | encrypt | decrypt | replay | gap
  | unknownMixKey | noPqKey | badEncoding | invalidStateContext | stateTooLarge
  | stateAuthentication | staleTransaction | badSignature | entropy
  deriving DecidableEq, Repr

def second : ℕ := 1000000000
def skipKeyTtl : ℕ := 24*60*60*second
def oldKpCap : ℕ := 8
def defaultPqEveryMsgs : ℕ := 32
def defaultPqAfter : ℕ := 30*60*second

structure SkippedKey where
  ctr : ℕ
  messageKey : Block 32
  nonce : Block 12
  storedAt : ℕ
  deriving DecidableEq

structure Session where
  sendChain : Block 32
  recvChain : Block 32
  sendCtr : ℕ
  recvCtr : ℕ
  myKp : Block 32
  oldKps : List (Block 32 × Block 32)
  peerPub : Option (Block 32)
  skipped : List SkippedKey
  sendRotatedAt : ℕ
  mixedPeer : Option (Block 32)
  epochPqCt : Option Bytes
  peerKem : Option Bytes
  kemDk : Option (Block 64)
  sentSincePq : ℕ
  pqEvery : ℕ
  pqAfter : ℕ
  lastPq : ℕ
  deriving DecidableEq

/-- The random bytes of one send: a ratchet secret and an encapsulation message. -/
structure Draw where
  ratchet : Block 32
  kemMessage : Block 32
  deriving DecidableEq

section Crypto
variable (P : Suite)

def hkdf32 (salt ikm info : Bytes) : Block 32 := P.hkdf salt ikm info 32

def mix (chain : Block 32) (secret : Bytes) : Block 32 :=
  hkdf32 P chain.toList secret (ascii "gc1/mix")

/-- The next chain value, and the message key with its nonce. -/
def chainStep (chain : Block 32) (ctr : ℕ) : Block 32 × (Block 32 × Block 12) :=
  let okm := (P.hkdf chain.toList (bigEndian 8 ctr) (ascii "gc1/step") 76).toList
  (pad 32 (slice okm 0 32),(pad 32 (slice okm 32 64),pad 12 (slice okm 64 76)))

def sealMessage (key : Block 32 × Block 12) (plaintext aad : Bytes) : Bytes :=
  P.aes128.encrypt (pad 16 key.1.toList) key.2 aad plaintext

def openMessage (key : Block 32 × Block 12) (ct aad : Bytes) : Option Bytes :=
  P.aes128.decrypt (pad 16 key.1.toList) key.2 aad ct

theorem openMessage_sealMessage (key : Block 32 × Block 12) (plaintext aad : Bytes) :
    openMessage P key (sealMessage P key plaintext aad) aad = some plaintext :=
  P.aes128.decrypt_encrypt _ _ _ _

def decapsulateSlice (dk : Block 64) (ct : Bytes) : Except CryptoError (Block 32) :=
  if h : ct.length = kemCtLen then .ok (P.mlKem768.decapsulate dk ⟨ct,h⟩)
  else .error .badKemCiphertext

/-- Encapsulation toward a decapsulation key can be undone. -/
theorem decapsulateSlice_encapsulate (dk : Block 64) (m : Block 32) :
    decapsulateSlice P dk
      (P.mlKem768.encapsulate (P.mlKem768.encapsulationKey dk) m).1.toList =
      .ok (P.mlKem768.encapsulate (P.mlKem768.encapsulationKey dk) m).2 := by
  have hlen : (P.mlKem768.encapsulate (P.mlKem768.encapsulationKey dk) m).1.toList.length =
      kemCtLen := List.Vector.toList_length _
  rw [decapsulateSlice,dif_pos hlen,← P.mlKem768.decapsulate_encapsulate]
  congr 2

namespace Session

def myPub (s : Session) : Block 32 := P.x25519.publicKey s.myKp

def findKeypair (s : Session) (pub : Block 32) : Option (Block 32) :=
  if s.myPub P = pub then some s.myKp
  else (s.oldKps.find? (fun kp => kp.1 = pub)).map Prod.snd

def rotateSelfKey (s : Session) (newSk : Block 32) : Session :=
  let kps := s.oldKps++[(s.myPub P,s.myKp)]
  { s with oldKps := kps.drop (kps.length-oldKpCap), myKp := newSk }

def pruneSkipped (s : Session) (now : ℕ) : Session :=
  let kept := s.skipped.filter (fun key => now-key.storedAt < skipKeyTtl)
  { s with skipped := kept.drop (kept.length-maxSkip) }

def providePeerKem (s : Session) (kemPub : Bytes) : Except CryptoError Session :=
  if kemPub.length ≠ kemEkLen ∨ P.mlKem768.validKey kemPub = false then .error .badKemKey
  else .ok { s with peerKem := some kemPub }

def provideLocalKem (s : Session) (dk : Block 64) : Session := { s with kemDk := some dk }

def setPqPolicy (s : Session) (everyMsgs after : ℕ) : Session :=
  { s with pqEvery := max everyMsgs 1, pqAfter := after }

/-! ## Sending -/

/-- The peer has announced a key that the current epoch is not mixed with. -/
def rotates (s : Session) : Option (Block 32) :=
  match s.peerPub with
  | none => none
  | some peer => if some peer ≠ s.mixedPeer then some peer else none

def pqDue (s : Session) (now : ℕ) : Bool :=
  s.pqEvery ≤ s.sentSincePq || s.pqAfter ≤ now-s.lastPq

/-- A new sending epoch at counter `ctr`, toward the peer key `peer`. -/
def beginEpoch (s : Session) (peer : Block 32) (ctr now : ℕ) (draw : Draw) :
    Session × Except CryptoError (Block 32) :=
  let chain := mix P s.sendChain (P.x25519.diffieHellman draw.ratchet peer).toList
  let t := { s.rotateSelfKey P draw.ratchet with mixedPeer := some peer, epochPqCt := none }
  match (if s.pqDue now then s.peerKem else none) with
  | none => ({ t with sendRotatedAt := ctr },.ok chain)
  | some ekb =>
      if P.mlKem768.validKey ekb = false then (t,.error .badKemKey)
      else
        let e := P.mlKem768.encapsulate ekb draw.kemMessage
        ({ t with
            epochPqCt := some e.1.toList
            sentSincePq := 0
            lastPq := now
            sendRotatedAt := ctr },.ok (mix P chain e.2.toList))

def sendHeader (s : Session) (ctr : ℕ) : Frame :=
  ⟨ctr,s.sendRotatedAt-1,s.myPub P,s.mixedPeer,s.epochPqCt,[]⟩

/-- Encrypts under one step of `chain` and advances the sending half. -/
def sendFrame (s : Session) (chain : Block 32) (payload : Bytes) : Session × Frame :=
  let ctr := s.sendCtr+1
  let k := chainStep P chain ctr
  let header := s.sendHeader P ctr
  ({ s with
      sendChain := k.1
      sendCtr := ctr
      sentSincePq := min (s.sentSincePq+1) (2^32-1) },
    { header with ct := sealMessage P k.2 payload header.headerBytes })

def sendAt (s : Session) (payload : Bytes) (now : ℕ) (draw : Draw) :
    Session × Except CryptoError Frame :=
  match s.rotates with
  | none =>
      let r := s.sendFrame P s.sendChain payload
      (r.1,.ok r.2)
  | some peer =>
      match s.beginEpoch P peer (s.sendCtr+1) now draw with
      | (t,.error e) => (t,.error e)
      | (t,.ok chain) =>
          let r := t.sendFrame P chain payload
          (r.1,.ok r.2)

/-! ## Receiving -/

def receiveSkipped (s : Session) (frame : Frame) : Session × Except CryptoError Bytes :=
  match s.skipped.find? (fun key => key.ctr = frame.ctr) with
  | none => (s,.error .replay)
  | some key =>
      match openMessage P (key.messageKey,key.nonce) frame.ct frame.headerBytes with
      | none => (s,.error .decrypt)
      | some payload =>
          ({ s with skipped := s.skipped.eraseP (fun key => key.ctr = frame.ctr) },.ok payload)

/-- The mixtures a frame of a new epoch announces. -/
def mixFrame (s : Session) (frame : Frame) (chain : Block 32) : Except CryptoError (Block 32) :=
  match frame.mixedWith with
  | none => .error .unknownMixKey
  | some target =>
      match s.findKeypair P target with
      | none => .error .unknownMixKey
      | some sk =>
          let chain := mix P chain (P.x25519.diffieHellman sk frame.senderPub).toList
          match frame.pqCt with
          | none => .ok chain
          | some ct =>
              match s.kemDk with
              | none => .error .noPqKey
              | some dk =>
                  match decapsulateSlice P dk ct with
                  | .error e => .error e
                  | .ok ss => .ok (mix P chain ss.toList)

def storeKeys (now : ℕ) (keys : List (ℕ × (Block 32 × Block 12))) : List SkippedKey :=
  keys.map (fun k => ⟨k.1,k.2.1,k.2.2,now⟩)

/-- A frame above the receive counter. -/
def receiveNew (s : Session) (frame : Frame) (now : ℕ) : Session × Except CryptoError Bytes :=
  let rotates := some frame.senderPub ≠ s.peerPub
  if frame.pn ≥ frame.ctr then (s,.error .decrypt)
  else
    let beforeRotation := if rotates then frame.pn-s.recvCtr else frame.ctr-1-s.recvCtr
    let afterRotation := if rotates then frame.ctr-1-max frame.pn s.recvCtr else 0
    let totalGap := beforeRotation+afterRotation
    if totalGap > maxSkip ∨ s.skipped.length+totalGap > maxSkip then (s,.error .gap)
    else
      let r₁ := advance (chainStep P) s.recvChain (s.recvCtr+1) beforeRotation
      match (if rotates then s.mixFrame P frame r₁.1 else .ok r₁.1) with
      | .error e => (s,.error e)
      | .ok chain =>
          let r₂ := advance (chainStep P) chain (s.recvCtr+1+beforeRotation) afterRotation
          let k := chainStep P r₂.1 frame.ctr
          match openMessage P k.2 frame.ct frame.headerBytes with
          | none => (s,.error .decrypt)
          | some payload =>
              (pruneSkipped
                { s with
                  recvChain := k.1
                  recvCtr := frame.ctr
                  peerPub := some frame.senderPub
                  skipped := s.skipped++storeKeys now (r₁.2++r₂.2) } now,.ok payload)

def receiveAt (s : Session) (frame : Frame) (now : ℕ) : Session × Except CryptoError Bytes :=
  let t := s.pruneSkipped now
  if frame.ctr ≤ t.recvCtr then t.receiveSkipped P frame else t.receiveNew P frame now

/-! ## What the operations do -/

/-- Every stored key is younger than the retention period at `now`. -/
def Fresh (s : Session) (now : ℕ) : Prop := ∀ k ∈ s.skipped, now-k.storedAt < skipKeyTtl

theorem pruneSkipped_of_fresh {s : Session} {now : ℕ} (h : s.Fresh now)
    (hl : s.skipped.length ≤ maxSkip) : s.pruneSkipped now = s := by
  have hf : s.skipped.filter (fun key => now-key.storedAt < skipKeyTtl) = s.skipped := by
    rw [List.filter_eq_self]
    intro k hk
    simpa using h k hk
  have hz : s.skipped.length-maxSkip = 0 := by omega
  simp only [pruneSkipped,hf,hz,List.drop_zero]

theorem rotates_eq_none {s : Session} (h : s.peerPub = s.mixedPeer) : s.rotates = none := by
  unfold rotates
  cases hp : s.peerPub with
  | none => rfl
  | some peer => simp [← h,hp]

theorem rotates_eq_some {s : Session} {peer : Block 32} (h : s.peerPub = some peer)
    (hne : s.peerPub ≠ s.mixedPeer) : s.rotates = some peer := by
  unfold rotates
  rw [h] at hne ⊢
  simp [hne]

theorem sendAt_plain {s : Session} (h : s.rotates = none) (payload : Bytes) (now : ℕ)
    (draw : Draw) : s.sendAt P payload now draw =
      ((s.sendFrame P s.sendChain payload).1,.ok (s.sendFrame P s.sendChain payload).2) := by
  simp only [sendAt,h]

/-- An encapsulation key, if the session has one, is valid. -/
def KemReady (s : Session) : Prop := ∀ ek, s.peerKem = some ek → P.mlKem768.validKey ek = true

/-- The fields that a new epoch leaves alone, and those it sets. -/
structure EpochStarted (s t : Session) (peer : Block 32) (ctr : ℕ) (draw : Draw)
    (chain : Block 32) : Prop where
  sendCtr : t.sendCtr = s.sendCtr
  recvChain : t.recvChain = s.recvChain
  recvCtr : t.recvCtr = s.recvCtr
  peerPub : t.peerPub = s.peerPub
  skipped : t.skipped = s.skipped
  peerKem : t.peerKem = s.peerKem
  kemDk : t.kemDk = s.kemDk
  pqEvery : t.pqEvery = s.pqEvery
  pqAfter : t.pqAfter = s.pqAfter
  oldKps : t.oldKps.length ≤ oldKpCap
  myKp : t.myKp = draw.ratchet
  mixedPeer : t.mixedPeer = some peer
  rotatedAt : t.sendRotatedAt = ctr
  pq : (t.epochPqCt = none ∧
      chain = mix P s.sendChain (P.x25519.diffieHellman draw.ratchet peer).toList) ∨
    ∃ ek, s.peerKem = some ek ∧
      t.epochPqCt = some (P.mlKem768.encapsulate ek draw.kemMessage).1.toList ∧
      chain = mix P (mix P s.sendChain (P.x25519.diffieHellman draw.ratchet peer).toList)
        (P.mlKem768.encapsulate ek draw.kemMessage).2.toList

theorem beginEpoch_spec {s : Session} (hk : s.KemReady P) (peer : Block 32) (ctr now : ℕ)
    (draw : Draw) : ∃ t chain, s.beginEpoch P peer ctr now draw = (t,.ok chain) ∧
      EpochStarted P s t peer ctr draw chain := by
  have hold : ((s.oldKps++[(s.myPub P,s.myKp)]).drop
      ((s.oldKps++[(s.myPub P,s.myKp)]).length-oldKpCap)).length ≤ oldKpCap := by
    rw [List.length_drop]
    omega
  unfold beginEpoch
  cases hd : (if s.pqDue now then s.peerKem else none) with
  | none =>
      exact ⟨_,_,rfl,⟨rfl,rfl,rfl,rfl,rfl,rfl,rfl,rfl,rfl,hold,rfl,rfl,rfl,.inl ⟨rfl,rfl⟩⟩⟩
  | some ek =>
      have hek : s.peerKem = some ek := by
        split_ifs at hd
        exact hd
      simp only [hk ek hek,Bool.true_eq_false,if_false]
      exact ⟨_,_,rfl,⟨rfl,rfl,rfl,rfl,rfl,rfl,rfl,rfl,rfl,hold,rfl,rfl,rfl,
        .inr ⟨ek,hek,rfl,rfl⟩⟩⟩

/-- With a valid encapsulation key, sending always succeeds. -/
theorem sendAt_rotating {s : Session} (hk : s.KemReady P) {peer : Block 32}
    (h : s.rotates = some peer) (payload : Bytes) (now : ℕ) (draw : Draw) :
    ∃ t chain, EpochStarted P s t peer (s.sendCtr+1) draw chain ∧
      s.sendAt P payload now draw =
        ((t.sendFrame P chain payload).1,.ok (t.sendFrame P chain payload).2) := by
  obtain ⟨t,chain,ht,hspec⟩ := beginEpoch_spec P hk peer (s.sendCtr+1) now draw
  exact ⟨t,chain,hspec,by simp only [sendAt,h,ht]⟩

end Session

end Crypto

end Gcoms.RatchetSession
