import Gcoms.RatchetSession

/-!
# Sealed ratchet state

The private encoding of a session and its encryption under a key of the caller.
Ages are stored in whole seconds, so a reopened session is the sealed one with
its clock readings moved: a skipped key becomes at most one second younger, a
key that outlived its retention while the state was closed is dropped, and the
refresh policy is rounded down to seconds. `reopened` states this transformation
and the round trip shows that it is the only one.
-/
namespace Gcoms.RatchetStorage
open ByteCodec Primitives RatchetFrame RatchetSession

def magicV1 : Bytes := ascii "GCSES1"
def magic : Bytes := ascii "GCSES2"
def maxPqAfterSecs : ℕ := 366*24*60*60

def putOpt32 : Option (Block 32) → Bytes
  | some b => 1::b.toList
  | none => [0]

def putOptBytes : Option Bytes → Bytes
  | some b => 1::(bigEndian 2 b.length++b)
  | none => [0]

/-- Whole seconds since `at`, in 32 bits. -/
def ageSecs (now stored : ℕ) : ℕ := min ((now-stored)/second) (2^32-1)

def encodeSkipped (now : ℕ) (key : SkippedKey) : Bytes :=
  bigEndian 8 key.ctr++(key.messageKey.toList++(key.nonce.toList++
    bigEndian 4 (ageSecs now key.storedAt)))

def encodeEpoch (s : Session) (now : ℕ) : Bytes :=
  bigEndian 4 (ageSecs now s.lastPq)++(bigEndian 8 s.sendRotatedAt++(putOpt32 s.mixedPeer++
    (putOptBytes s.epochPqCt++(bigEndian 1 s.skipped.length++
      s.skipped.flatMap (encodeSkipped now)))))

def encodeBase (s : Session) : Bytes :=
  s.sendChain.toList++(s.recvChain.toList++(bigEndian 8 s.sendCtr++(bigEndian 8 s.recvCtr++
    (s.myKp.toList++(bigEndian 1 s.oldKps.length++
      (s.oldKps.flatMap (fun kp => kp.1.toList++kp.2.toList)++(putOpt32 s.peerPub++
        (putOptBytes s.peerKem++(putOptBytes (s.kemDk.map List.Vector.toList)++
          (bigEndian 4 s.sentSincePq++(bigEndian 4 s.pqEvery++
            bigEndian 8 (s.pqAfter/second))))))))))))

def encodePrivateAt (s : Session) (now : ℕ) : Bytes := magic++(encodeBase s++encodeEpoch s now)

/-! ## Decoding -/

def takeOpt32 : Reader Unit (Option (Block 32)) := do
  let tag ← word () 1
  if tag = 1 then do
    let b ← take () 32
    pure (some b)
  else if tag = 0 then pure none
  else throw ()

/-- An optional array whose stored length must be `n`. -/
def takeOptBytes (n : ℕ) : Reader Unit (Option (Block n)) := do
  let tag ← word () 1
  if tag = 1 then do
    let l ← word () 2
    check (l = n) ()
    let b ← take () n
    pure (some b)
  else if tag = 0 then pure none
  else throw ()

def readKeypair (kps : List (Block 32 × Block 32)) : Reader Unit (List (Block 32 × Block 32)) := do
  let pk ← take () 32
  let sk ← take () 32
  pure (kps++[(pk,sk)])

/-- The part both versions share; the epoch fields are set later. -/
def readBase : Reader Unit Session := do
  let sendChain ← take () 32
  let recvChain ← take () 32
  let sendCtr ← word () 8
  let recvCtr ← word () 8
  let myKp ← take () 32
  let nOld ← word () 1
  check (nOld ≤ oldKpCap) ()
  let oldKps ← loop readKeypair nOld []
  let peerPub ← takeOpt32
  let peerKem ← takeOptBytes kemEkLen
  let kemDk ← takeOptBytes 64
  let sentSincePq ← word () 4
  let pqEvery ← word () 4
  let pqAfterSecs ← word () 8
  check (pqEvery ≠ 0 ∧ pqAfterSecs ≤ maxPqAfterSecs) ()
  pure ⟨sendChain,recvChain,sendCtr,recvCtr,myKp,oldKps,peerPub,[],sendCtr,none,none,
    peerKem.map List.Vector.toList,kemDk,sentSincePq,pqEvery,pqAfterSecs*second,0⟩

/-- A stored key with its age, unless it has expired or is older than this clock. -/
def revive (now offline secs : ℕ) (key : SkippedKey) : Option SkippedKey :=
  let age := secs*second+offline
  if skipKeyTtl ≤ age then none
  else if age ≤ now then some { key with storedAt := now-age }
  else none

def readSkipped (recvCtr now offline : ℕ) (keys : List SkippedKey) :
    Reader Unit (List SkippedKey) := do
  let ctr ← word () 8
  let messageKey ← take () 32
  let nonce ← take () 12
  let age ← word () 4
  check (ctr ≤ recvCtr) ()
  pure (keys++(revive now offline age ⟨ctr,messageKey,nonce,0⟩).toList)

/-- The last refresh, or a refresh that is due when the clock cannot express it. -/
def resumePq (s : Session) (now age : ℕ) : Session :=
  if age ≤ now then { s with lastPq := now-age }
  else { s with sentSincePq := s.pqEvery, lastPq := now }

def readEpoch (s : Session) (now offline : ℕ) : Reader Unit Session := do
  let sincePq ← word () 4
  let sendRotatedAt ← word () 8
  check (sendRotatedAt ≤ s.sendCtr) ()
  let mixedPeer ← takeOpt32
  let epochPqCt ← takeOptBytes kemCtLen
  let nSkipped ← word () 1
  check (nSkipped ≤ maxSkip) ()
  let skipped ← loop (readSkipped s.recvCtr now offline) nSkipped []
  pure (resumePq { s with
    sendRotatedAt
    mixedPeer
    epochPqCt := epochPqCt.map List.Vector.toList
    skipped } now (sincePq*second+offline))

/-- Version 1 recorded no epoch: the next send starts one and refreshes. -/
def resumeLegacy (s : Session) (now : ℕ) : Session :=
  { s with
    sentSincePq := s.pqEvery
    lastPq := if s.pqAfter ≤ now then now-s.pqAfter else now }

def readPrivate (now offline : ℕ) : Reader Unit Session := do
  let m ← take () 6
  check (m.toList = magic ∨ m.toList = magicV1) ()
  let s ← readBase
  if m.toList = magicV1 then pure (resumeLegacy s now) else readEpoch s now offline

def decodePrivateAt (bytes : Bytes) (now offline : ℕ) : Option Session :=
  if bytes.length < 6+32*3+8*2+32+1 then none
  else
    match (readPrivate now offline).run bytes with
    | .ok (s,[]) => some s
    | _ => none

/-! ## What a session must satisfy to be stored -/

/-- The shape every session built by the ratchet has; only the refresh policy is
left to the caller. -/
structure Sound (s : Session) : Prop where
  sendCtr : s.sendCtr < 2^64
  recvCtr : s.recvCtr < 2^64
  oldKps : s.oldKps.length ≤ oldKpCap
  peerKem : ∀ ek, s.peerKem = some ek → ek.length = kemEkLen
  epochPqCt : ∀ ct, s.epochPqCt = some ct → ct.length = kemCtLen
  sentSincePq : s.sentSincePq < 2^32
  pqEvery : 0 < s.pqEvery ∧ s.pqEvery < 2^32
  rotatedAt : s.sendRotatedAt ≤ s.sendCtr
  skipped : s.skipped.length ≤ maxSkip
  skipped_le : ∀ k ∈ s.skipped, k.ctr ≤ s.recvCtr

/-- The refresh policy is one the decoder accepts. -/
def PolicyFits (s : Session) : Prop := s.pqAfter/second ≤ maxPqAfterSecs

/-- The session that a stored one becomes. -/
def reopened (s : Session) (sealedAt now offline : ℕ) : Session :=
  resumePq { s with
    pqAfter := s.pqAfter/second*second
    skipped := s.skipped.filterMap
      (fun k => revive now offline (ageSecs sealedAt k.storedAt) k) }
    now (ageSecs sealedAt s.lastPq*second+offline)

/-! ## The round trip -/

theorem reads_opt32 (x : Option (Block 32)) : Reads takeOpt32 (putOpt32 x) x := by
  cases x with
  | none => exact (Reads.word () 1 0 (by norm_num)).last (Reads.pure _)
  | some b =>
      refine (Reads.word () 1 1 (by norm_num)).bind ?_
      exact (Reads.take () b).last (Reads.pure _)

theorem reads_optBytes {n : ℕ} (hn : n < 256^2) (x : Option (Block n)) :
    Reads (takeOptBytes n) (putOptBytes (x.map List.Vector.toList)) x := by
  cases x with
  | none => exact (Reads.word () 1 0 (by norm_num)).last (Reads.pure _)
  | some b =>
      have henc : putOptBytes (some b.toList) = bigEndian 1 1++(bigEndian 2 n++b.toList) := by
        rw [putOptBytes,List.Vector.toList_length]
        rfl
      change Reads _ (putOptBytes (some b.toList)) _
      rw [henc]
      refine (Reads.word () 1 1 (by norm_num)).bind ((Reads.word () 2 n hn).bind ?_)
      exact (Reads.check () rfl).silent ((Reads.take () b).last (Reads.pure _))

/-- Bytes of the right length are an array. -/
theorem exists_block {n : ℕ} {x : Option Bytes} (h : ∀ bs, x = some bs → bs.length = n) :
    ∃ y : Option (Block n), x = y.map List.Vector.toList := by
  cases x with
  | none => exact ⟨none,rfl⟩
  | some bs => exact ⟨some ⟨bs,h bs rfl⟩,rfl⟩

theorem foldl_snoc {α β : Type} (f : α → List β) (xs : List α) (acc : List β) :
    xs.foldl (fun acc x => acc++f x) acc = acc++xs.flatMap f := by
  induction xs generalizing acc with
  | nil => simp
  | cons x xs ih => rw [List.foldl_cons,ih,List.flatMap_cons,List.append_assoc]

theorem reads_keypairs (kps : List (Block 32 × Block 32)) :
    Reads (loop readKeypair kps.length []) (kps.flatMap (fun kp => kp.1.toList++kp.2.toList))
      kps := by
  have hloop := Reads.loop readKeypair (fun kp : Block 32 × Block 32 => kp.1.toList++kp.2.toList)
    (fun acc kp => acc++[kp]) kps [] (by
      intro pre kp post _
      exact (Reads.take () kp.1).bind ((Reads.take () kp.2).last (Reads.pure _)))
  rw [foldl_snoc (fun kp => [kp])] at hloop
  simpa using hloop

/-- What `readBase` returns for a stored session. -/
def baseOf (s : Session) : Session :=
  { s with
    skipped := []
    sendRotatedAt := s.sendCtr
    mixedPeer := none
    epochPqCt := none
    pqAfter := s.pqAfter/second*second
    lastPq := 0 }

theorem reads_base {s : Session} (h : Sound s) (hp : PolicyFits s) :
    Reads readBase (encodeBase s) (baseOf s) := by
  have hpolicy : s.pqAfter/second < 256^8 := by
    have hfits : s.pqAfter/second ≤ 366*24*60*60 := hp
    omega
  have hsend := h.sendCtr
  have hrecv := h.recvCtr
  have hsince := h.sentSincePq
  have hevery := h.pqEvery
  have hold : s.oldKps.length ≤ 8 := h.oldKps
  obtain ⟨ek,hek⟩ := exists_block h.peerKem
  refine (Reads.take () s.sendChain).bind ?_
  refine (Reads.take () s.recvChain).bind ?_
  refine (Reads.word () 8 s.sendCtr (by omega)).bind ?_
  refine (Reads.word () 8 s.recvCtr (by omega)).bind ?_
  refine (Reads.take () s.myKp).bind ?_
  refine (Reads.word () 1 s.oldKps.length (by omega)).bind ?_
  refine (Reads.check () h.oldKps).silent ?_
  refine (reads_keypairs s.oldKps).bind ?_
  refine (reads_opt32 s.peerPub).bind ?_
  rw [hek]
  refine (reads_optBytes (by decide) ek).bind ?_
  refine (reads_optBytes (by decide) s.kemDk).bind ?_
  refine (Reads.word () 4 s.sentSincePq (by omega)).bind ?_
  refine (Reads.word () 4 s.pqEvery (by omega)).bind ?_
  refine (Reads.word () 8 (s.pqAfter/second) hpolicy).last ?_
  refine (Reads.check () ⟨hevery.1.ne',hp⟩).silent ?_
  have hbase : baseOf s = ⟨s.sendChain,s.recvChain,s.sendCtr,s.recvCtr,s.myKp,s.oldKps,s.peerPub,
      [],s.sendCtr,none,none,ek.map List.Vector.toList,s.kemDk,s.sentSincePq,s.pqEvery,
      s.pqAfter/second*second,0⟩ := by
    rw [← hek]
    rfl
  rw [hbase]
  exact Reads.pure _

theorem ageSecs_lt (now stored : ℕ) : ageSecs now stored < 256^4 := by
  unfold ageSecs
  omega

theorem revive_storedAt (now offline secs : ℕ) (key : SkippedKey) :
    revive now offline secs ⟨key.ctr,key.messageKey,key.nonce,0⟩ = revive now offline secs key :=
  rfl

theorem reads_skipped {s : Session} (h : Sound s) (sealedAt now offline : ℕ) :
    Reads (loop (readSkipped s.recvCtr now offline) s.skipped.length [])
      (s.skipped.flatMap (encodeSkipped sealedAt))
      (s.skipped.filterMap (fun k => revive now offline (ageSecs sealedAt k.storedAt) k)) := by
  have hrecv := h.recvCtr
  have hloop := Reads.loop (readSkipped s.recvCtr now offline) (encodeSkipped sealedAt)
    (fun acc k => acc++(revive now offline (ageSecs sealedAt k.storedAt) k).toList) s.skipped [] (by
      intro pre k post hsplit
      have hle := h.skipped_le k (by simp [hsplit])
      refine (Reads.word () 8 k.ctr (by omega)).bind ?_
      refine (Reads.take () k.messageKey).bind ?_
      refine (Reads.take () k.nonce).bind ?_
      refine (Reads.word () 4 (ageSecs sealedAt k.storedAt) (ageSecs_lt _ _)).last ?_
      refine (Reads.check () hle).silent ?_
      rw [revive_storedAt]
      exact Reads.pure _)
  rw [foldl_snoc (fun k => (revive now offline (ageSecs sealedAt k.storedAt) k).toList),
    ← List.filterMap_eq_flatMap_toList] at hloop
  simpa using hloop

theorem reads_epoch {s : Session} (h : Sound s) (sealedAt now offline : ℕ) :
    Reads (readEpoch (baseOf s) now offline) (encodeEpoch s sealedAt)
      (reopened s sealedAt now offline) := by
  have hsend := h.sendCtr
  have hrot := h.rotatedAt
  have hskip : s.skipped.length ≤ 64 := h.skipped
  obtain ⟨ct,hct⟩ := exists_block h.epochPqCt
  refine (Reads.word () 4 (ageSecs sealedAt s.lastPq) (ageSecs_lt _ _)).bind ?_
  refine (Reads.word () 8 s.sendRotatedAt (by omega)).bind ?_
  refine (Reads.check () hrot).silent ?_
  refine (reads_opt32 s.mixedPeer).bind ?_
  rw [hct]
  refine (reads_optBytes (by decide) ct).bind ?_
  refine (Reads.word () 1 s.skipped.length (by omega)).bind ?_
  refine (Reads.check () h.skipped).silent ?_
  refine (reads_skipped h sealedAt now offline).last ?_
  rw [← hct]
  exact Reads.pure _

theorem reads_private {s : Session} (h : Sound s) (hp : PolicyFits s) (sealedAt now offline : ℕ) :
    Reads (readPrivate now offline) (encodePrivateAt s sealedAt)
      (reopened s sealedAt now offline) := by
  have hm : magic ≠ magicV1 := by decide
  refine (Reads.take () (⟨magic,rfl⟩ : Block 6)).bind ?_
  refine (Reads.check () (.inl rfl)).silent ?_
  refine (reads_base h hp).bind ?_
  change Reads (if magic = magicV1 then _ else _) _ _
  rw [if_neg hm]
  exact reads_epoch h sealedAt now offline

theorem putOpt32_length (x : Option (Block 32)) :
    1 ≤ (putOpt32 x).length ∧ (putOpt32 x).length ≤ 33 := by
  cases x with
  | none => simp [putOpt32]
  | some b => simp [putOpt32]

theorem putOptBytes_length_pos (x : Option Bytes) : 1 ≤ (putOptBytes x).length := by
  cases x with
  | none => simp [putOptBytes]
  | some b => simp [putOptBytes]

theorem putOptBytes_length_le {n : ℕ} {x : Option Bytes} (h : ∀ bs, x = some bs → bs.length = n) :
    (putOptBytes x).length ≤ n+3 := by
  cases x with
  | none => simp [putOptBytes]
  | some b =>
      have hb := h b rfl
      simp only [putOptBytes,List.length_cons,List.length_append,bigEndian_length]
      omega

theorem length_flatMap_const {α : Type} (f : α → Bytes) (n : ℕ)
    (h : ∀ x, (f x).length = n) (xs : List α) : (xs.flatMap f).length = xs.length*n := by
  simp [List.length_flatMap,h]

theorem encodePrivateAt_length (s : Session) (now : ℕ) :
    (encodePrivateAt s now).length = 148+s.oldKps.length*64+(putOpt32 s.peerPub).length+
      (putOptBytes s.peerKem).length+(putOptBytes (s.kemDk.map List.Vector.toList)).length+
      (putOpt32 s.mixedPeer).length+(putOptBytes s.epochPqCt).length+s.skipped.length*56 := by
  have hm : magic.length = 6 := rfl
  have hk := length_flatMap_const (fun kp : Block 32 × Block 32 => kp.1.toList++kp.2.toList)
    64 (fun kp => by simp) s.oldKps
  have hs := length_flatMap_const (encodeSkipped now) 56
    (fun k => by simp [encodeSkipped]) s.skipped
  simp only [encodePrivateAt,encodeBase,encodeEpoch,List.length_append,bigEndian_length,
    List.Vector.toList_length,hm,hk,hs]
  omega

theorem encodePrivateAt_length_ge (s : Session) (now : ℕ) :
    6+32*3+8*2+32+1 ≤ (encodePrivateAt s now).length := by
  have h₁ := (putOpt32_length s.peerPub).1
  have h₂ := putOptBytes_length_pos s.peerKem
  have h₃ := putOptBytes_length_pos (s.kemDk.map List.Vector.toList)
  rw [encodePrivateAt_length]
  omega

theorem encodePrivateAt_length_le {s : Session} (hs : Sound s) (now : ℕ) :
    (encodePrivateAt s now).length ≤ 6656 := by
  have h₁ := (putOpt32_length s.peerPub).2
  have h₂ := putOptBytes_length_le hs.peerKem
  have h₃ := @putOptBytes_length_le 64 (s.kemDk.map List.Vector.toList) (by
    intro bs hbs
    obtain ⟨dk,_,rfl⟩ := Option.map_eq_some_iff.mp hbs
    exact List.Vector.toList_length dk)
  have h₄ := (putOpt32_length s.mixedPeer).2
  have h₅ := putOptBytes_length_le hs.epochPqCt
  have hold : s.oldKps.length ≤ 8 := hs.oldKps
  have hskip : s.skipped.length ≤ 64 := hs.skipped
  have hek : kemEkLen = 1184 := rfl
  have hct : kemCtLen = 1088 := rfl
  rw [encodePrivateAt_length]
  omega

theorem decode_encode {s : Session} (h : Sound s) (hp : PolicyFits s) (sealedAt now offline : ℕ) :
    decodePrivateAt (encodePrivateAt s sealedAt) now offline =
      some (reopened s sealedAt now offline) := by
  have hlen := encodePrivateAt_length_ge s sealedAt
  rw [decodePrivateAt,if_neg (by omega),(reads_private h hp sealedAt now offline).run]

/-! ## Sealing -/

def sealedMagic : Bytes := ascii "GCSEAL1\x00"
def sealedVersion : ℕ := 1
def maxContextField : ℕ := 128
def maxSealedState : ℕ := 64*1024
def maxStateAttachment : ℕ := 4*1024

/-- The identities that a sealed state is bound to, none empty or longer than 128 bytes. -/
structure SessionContext where
  machine : Bytes
  component : Bytes
  peer : Bytes
  conversation : Bytes
  bounded : ∀ field ∈ [machine,component,peer,conversation],
    field ≠ [] ∧ field.length ≤ maxContextField

def SessionContext.new (machine component peer conversation : Bytes) :
    Except CryptoError SessionContext :=
  if h : ∀ field ∈ [machine,component,peer,conversation],
      field ≠ [] ∧ field.length ≤ maxContextField then
    .ok ⟨machine,component,peer,conversation,h⟩
  else .error .invalidStateContext

def SessionContext.aad (c : SessionContext) : Bytes :=
  ascii "gc1/sealed-session/v1"++[c.machine,c.component,c.peer,c.conversation].flatMap
    (fun field => bigEndian 2 field.length++field)

def sealedFromBytes (bytes : Bytes) : Except CryptoError Bytes :=
  if bytes.length < 8+2+12+16 ∨ bytes.length > maxSealedState then .error .badEncoding
  else .ok bytes

section Seal
variable (P : Suite)

def sealStateAt (s : Session) (wrappingKey : Block 32) (context : SessionContext)
    (attachment : Bytes) (now : ℕ) (nonce : Block 12) : Except CryptoError Bytes :=
  if attachment.length > maxStateAttachment then .error .stateTooLarge
  else if now < s.lastPq ∨ ∃ key ∈ s.skipped, now < key.storedAt then .error .staleTransaction
  else
    let state := encodePrivateAt s now
    let plaintext := bigEndian 4 state.length++(state++attachment)
    if plaintext.length > maxSealedState-64 then .error .stateTooLarge
    else sealedFromBytes (sealedMagic++(bigEndian 2 sealedVersion++(nonce.toList++
      P.aes256.encrypt wrappingKey nonce context.aad plaintext)))

def openPlaintext (plaintext : Bytes) (now offline : ℕ) : Except CryptoError (Session × Bytes) :=
  if plaintext.length < 4 then .error .badEncoding
  else
    let stateLen := readBigEndian (slice plaintext 0 4)
    if stateLen > plaintext.length-4 ∨ plaintext.length-4-stateLen > maxStateAttachment then
      .error .badEncoding
    else
      match decodePrivateAt (slice plaintext 4 (4+stateLen)) now offline with
      | none => .error .badEncoding
      | some s => .ok (s,plaintext.drop (4+stateLen))

def openStateAt (sealed : Bytes) (wrappingKey : Block 32) (context : SessionContext)
    (now offline : ℕ) : Except CryptoError (Session × Bytes) :=
  if sealed.length < 38 ∨ slice sealed 0 8 ≠ sealedMagic ∨
      readBigEndian (slice sealed 8 10) ≠ sealedVersion then .error .badEncoding
  else
    match P.aes256.decrypt wrappingKey (pad 12 (slice sealed 10 22)) context.aad
        (sealed.drop 22) with
    | none => .error .stateAuthentication
    | some plaintext => openPlaintext plaintext now offline

/-- The clock has not gone back behind anything the session recorded. -/
def NotBefore (s : Session) (now : ℕ) : Prop :=
  s.lastPq ≤ now ∧ ∀ k ∈ s.skipped, k.storedAt ≤ now

theorem sealStateAt_ok {s : Session} {wrappingKey : Block 32} {context : SessionContext}
    {attachment : Bytes} {now : ℕ} {nonce : Block 12} {sealed : Bytes}
    (h : sealStateAt P s wrappingKey context attachment now nonce = .ok sealed) :
    attachment.length ≤ maxStateAttachment ∧ NotBefore s now ∧
    sealed = sealedMagic++(bigEndian 2 sealedVersion++(nonce.toList++
      P.aes256.encrypt wrappingKey nonce context.aad
        (bigEndian 4 (encodePrivateAt s now).length++(encodePrivateAt s now++attachment)))) := by
  simp only [sealStateAt,sealedFromBytes] at h
  split_ifs at h with h₁ h₂
  push Not at h₂
  exact ⟨by omega,h₂,(Except.ok.inj h).symm⟩

/-- A sound session seals whenever the clock has not gone back. -/
theorem sealStateAt_isOk {s : Session} (hs : Sound s) {now : ℕ} (hn : NotBefore s now)
    (wrappingKey : Block 32) (context : SessionContext) (nonce : Block 12) :
    ∃ sealed, sealStateAt P s wrappingKey context [] now nonce = .ok sealed := by
  have hlen := encodePrivateAt_length_le hs now
  have hmax : maxSealedState = 65536 := rfl
  have hmagic : sealedMagic.length = 8 := rfl
  have hstale : ¬ (now < s.lastPq ∨ ∃ key ∈ s.skipped, now < key.storedAt) := by
    push Not
    exact hn
  unfold sealStateAt sealedFromBytes
  rw [if_neg (by simp [maxStateAttachment]),if_neg hstale]
  simp only [List.length_append,bigEndian_length,List.Vector.toList_length,
    P.aes256.encrypt_length,List.length_nil,hmagic]
  rw [if_neg (by omega),if_neg (by omega)]
  exact ⟨_,rfl⟩

theorem openPlaintext_encode {s : Session} (hs : Sound s) (hp : PolicyFits s)
    {attachment : Bytes} (ha : attachment.length ≤ maxStateAttachment) {sealedAt : ℕ}
    (hl : (encodePrivateAt s sealedAt).length < 256^4) (now offline : ℕ) :
    openPlaintext (bigEndian 4 (encodePrivateAt s sealedAt).length++
      (encodePrivateAt s sealedAt++attachment)) now offline =
      .ok (reopened s sealedAt now offline,attachment) := by
  have h₁ : slice (bigEndian 4 (encodePrivateAt s sealedAt).length++
      (encodePrivateAt s sealedAt++attachment)) 0 4 =
        bigEndian 4 (encodePrivateAt s sealedAt).length :=
    slice_field [] rfl rfl (by simp)
  have h₂ : slice (bigEndian 4 (encodePrivateAt s sealedAt).length++
      (encodePrivateAt s sealedAt++attachment)) 4 (4+(encodePrivateAt s sealedAt).length) =
        encodePrivateAt s sealedAt :=
    slice_field (bigEndian 4 (encodePrivateAt s sealedAt).length) rfl (by simp) rfl
  unfold openPlaintext
  simp only [h₁,readBigEndian_bigEndian 4 _ hl,h₂,decode_encode hs hp]
  rw [if_neg (by simp),if_neg (by
    simp only [List.length_append,bigEndian_length]
    omega)]
  rw [← List.append_assoc,List.drop_left' (by simp)]

/-- What was sealed opens, as the session moved to the new clock. -/
theorem openStateAt_sealStateAt {s : Session} (hs : Sound s) (hp : PolicyFits s)
    {wrappingKey : Block 32} {context : SessionContext} {attachment : Bytes} {sealedAt : ℕ}
    {nonce : Block 12} {sealed : Bytes}
    (h : sealStateAt P s wrappingKey context attachment sealedAt nonce = .ok sealed)
    (now offline : ℕ) :
    openStateAt P sealed wrappingKey context now offline =
      .ok (reopened s sealedAt now offline,attachment) := by
  obtain ⟨ha,_,rfl⟩ := sealStateAt_ok P h
  have hbound := encodePrivateAt_length_le hs sealedAt
  have hplain := openPlaintext_encode hs hp ha (hbound.trans_lt (by norm_num)) now offline
  generalize bigEndian 4 (encodePrivateAt s sealedAt).length++
    (encodePrivateAt s sealedAt++attachment) = plaintext at hplain h ⊢
  generalize hc : P.aes256.encrypt wrappingKey nonce context.aad plaintext = ct
  have hmagic : sealedMagic.length = 8 := rfl
  have hct : ct.length = plaintext.length+16 := by rw [← hc,P.aes256.encrypt_length]
  have h₁ : slice (sealedMagic++(bigEndian 2 sealedVersion++(nonce.toList++ct))) 0 8 =
      sealedMagic := slice_field [] rfl rfl rfl
  have h₂ : slice (sealedMagic++(bigEndian 2 sealedVersion++(nonce.toList++ct))) 8 10 =
      bigEndian 2 sealedVersion := slice_field sealedMagic rfl rfl rfl
  have h₃ : slice (sealedMagic++(bigEndian 2 sealedVersion++(nonce.toList++ct))) 10 22 =
      nonce.toList :=
    slice_field (sealedMagic++bigEndian 2 sealedVersion) (List.append_assoc _ _ _).symm rfl
      (by simp)
  have h₄ : (sealedMagic++(bigEndian 2 sealedVersion++(nonce.toList++ct))).drop 22 = ct := by
    rw [← List.append_assoc,← List.append_assoc,List.drop_left' (by simp [hmagic])]
  have hnonce : pad 12 nonce.toList = nonce := by simpa using pad_self nonce []
  have hversion : readBigEndian (bigEndian 2 sealedVersion) = sealedVersion := rfl
  rw [openStateAt,h₁,h₂,h₃,h₄,hnonce,hversion,if_neg (by
    simp only [List.length_append,bigEndian_length,List.Vector.toList_length,hmagic,ne_eq,
      not_true_eq_false,or_false]
    omega),← hc,P.aes256.decrypt_encrypt]
  exact hplain

end Seal

end Gcoms.RatchetStorage
