import Gcoms.Fallible
import Gcoms.Primitives
import Gcoms.RelayCodec

/-!
# Records of a private file transfer

A file contact authorizes one transfer. The sender answers it with `FileInit`,
sends the file in chunks and closes it with `FileFinish`; the receiver reports
its progress in `FileAck`. A bearer proof binds the limits of the contact and
the fields of `FileInit` under the capability of the contact.
-/
namespace Gcoms.FileRecords
open ByteCodec Primitives Fallible
open RelayCodec (IpAddr SocketAddr byte)
open RelayCells (maxMessage)

def profile : ℕ := 1

def profileVersionV1 : ℕ := 1

def profileVersionV2 : ℕ := 2

def checkpointBatchChunksMax : ℕ := 32

def contactLen : ℕ := 132

def fileChunkFixedLen : ℕ := 67

abbrev TransferId := Block 16

inductive FileCodecError where
  | invalidProfileVersion (version : ℕ)
  | profileVersionMismatch (expected actual : ℕ)
  | invalidContact
  | expired (expiryUnix nowUnix : ℕ)
  | chunkTooLarge (actual maximum : ℕ)
  | emptyChunk
  | transferMismatch
  | fileSizeExceeded
  | invalidChunkSize
  | invalidInflightLimit
  | offsetMismatch (expected actual : ℕ)
  | chunkExceedsFile
  | invalidBearerProof
  deriving DecidableEq

structure Contact where
  address : SocketAddr
  relayServiceId : Block 32
  queueId : Block 32
  epoch : ℕ
  pushCap : Block 32
  leaseExpiry : ℕ
  deriving DecidableEq

def zeroed {n : ℕ} (b : Block n) : Bool := b.toList.all (· == 0)

def validateContactFields (contact : Contact) : Except FileCodecError Unit :=
  require (¬(contact.address.port = 0 ∨ contact.epoch = 0 ∨ zeroed contact.relayServiceId = true ∨
    zeroed contact.queueId = true ∨ zeroed contact.pushCap = true)) .invalidContact

def Contact.encode (contact : Contact) : Except FileCodecError Bytes := do
  validateContactFields contact
  pure (byte profileVersionV1++
    (match contact.address.ip with
      | .v4 ip => byte 4++(ip.toList++List.replicate 12 0)
      | .v6 ip => byte 6++ip.toList)++bigEndian 2 contact.address.port++
    contact.relayServiceId.toList++contact.queueId.toList++bigEndian 8 contact.epoch++
    contact.pushCap.toList++bigEndian 8 contact.leaseExpiry)

/-- Encodes a route and decodes it again at `now`; once the fields are valid the
round trip can only fail on expiry. -/
def Contact.usable (contact : Contact) (now : ℕ) : Except FileCodecError Unit := do
  validateContactFields contact
  require (now < contact.leaseExpiry) (.expired contact.leaseExpiry now)

def validateProfileVersion (version : ℕ) : Except FileCodecError Unit :=
  require (version = profileVersionV1 ∨ version = profileVersionV2) (.invalidProfileVersion version)

structure FileContact where
  profileVersion : ℕ
  transferId : TransferId
  recipientContact : Contact
  fileCap : Block 32
  contactExpiry : ℕ
  maxFileSize : ℕ
  maxChunkSize : ℕ
  maxInflightBytes : ℕ
  deriving DecidableEq

def FileContact.validate (c : FileContact) (now : ℕ) : Except FileCodecError Unit := do
  validateProfileVersion c.profileVersion
  validateContactFields c.recipientContact
  require (¬(zeroed c.transferId = true ∨ zeroed c.fileCap = true)) .invalidContact
  require (now < c.contactExpiry) (.expired c.contactExpiry now)
  require (c.contactExpiry ≤ c.recipientContact.leaseExpiry) .invalidContact
  require (c.maxChunkSize ≠ 0) .invalidChunkSize
  require (c.maxInflightBytes ≠ 0) .invalidInflightLimit

structure FileInit where
  profileVersion : ℕ
  transferId : TransferId
  fileSize : ℕ
  chunkSize : ℕ
  fileSha256 : Block 32
  ackRoute : Contact
  initNonce : Block 16
  bearerProof : Block 32
  deriving DecidableEq

/-- The header that every record starts with. -/
def common (version recordType : ℕ) (id : TransferId) : Bytes :=
  byte profile++byte version++byte recordType++id.toList

def FileInit.encode (init : FileInit) : Except FileCodecError Bytes := do
  validateProfileVersion init.profileVersion
  let route ← init.ackRoute.encode
  pure (common init.profileVersion 1 init.transferId++bigEndian 8 init.fileSize++
    bigEndian 8 init.chunkSize++init.fileSha256.toList++bigEndian 2 contactLen++route++
    init.initNonce.toList++init.bearerProof.toList)

def FileInit.proofTranscript (init : FileInit) (contact : FileContact) :
    Except FileCodecError Bytes := do
  let ackRoute ← init.ackRoute.encode
  let recipientContact ← contact.recipientContact.encode
  pure (ascii "GC1/FILE-INIT"++[0]++common init.profileVersion 1 init.transferId++
    recipientContact++bigEndian 8 contact.contactExpiry++bigEndian 8 contact.maxFileSize++
    bigEndian 8 contact.maxChunkSize++bigEndian 8 contact.maxInflightBytes++
    bigEndian 8 init.fileSize++bigEndian 8 init.chunkSize++init.fileSha256.toList++
    bigEndian 2 contactLen++ackRoute++init.initNonce.toList)

def FileInit.validateAuthorization (S : Suite) (init : FileInit) (contact : FileContact)
    (now : ℕ) : Except FileCodecError Unit := do
  contact.validate now
  init.ackRoute.usable now
  require (init.profileVersion = contact.profileVersion)
    (.profileVersionMismatch contact.profileVersion init.profileVersion)
  require (init.transferId = contact.transferId) .transferMismatch
  require (init.fileSize ≤ contact.maxFileSize) .fileSizeExceeded
  require (init.chunkSize ≠ 0 ∧ init.chunkSize ≤ contact.maxChunkSize) .invalidChunkSize
  require (init.chunkSize ≤ contact.maxInflightBytes) .invalidInflightLimit
  let transcript ← init.proofTranscript contact
  require (init.bearerProof = S.hmac contact.fileCap transcript) .invalidBearerProof

/-- What an accepted authorization says about the fields of `FileInit`. -/
theorem validateAuthorization_ok {S : Suite} {init : FileInit} {contact : FileContact} {now : ℕ}
    (h : init.validateAuthorization S contact now = .ok ()) :
    (init.profileVersion = profileVersionV1 ∨ init.profileVersion = profileVersionV2) ∧
      init.chunkSize ≠ 0 ∧ init.chunkSize ≤ contact.maxInflightBytes := by
  simp only [FileInit.validateAuthorization,FileContact.validate,validateProfileVersion,
    sequence_eq_ok,require_eq_ok] at h
  obtain ⟨-,⟨-,hversion,-⟩,-,-,-,hsame,-,-,-,-,-,⟨hzero,-⟩,-,hflight,-⟩ := h
  exact ⟨hsame ▸ hversion,hzero,hflight⟩

structure FileChunk where
  profileVersion : ℕ
  transferId : TransferId
  offset : ℕ
  data : Bytes

def FileChunk.validateStreamBounds (c : FileChunk)
    (expectedOffset fileSize chunkSize maxChunkSize : ℕ) : Except FileCodecError Unit := do
  require (c.offset = expectedOffset) (.offsetMismatch expectedOffset c.offset)
  require (c.data.length ≠ 0) .emptyChunk
  require (c.data.length ≤ min (min chunkSize maxChunkSize) (maxMessage-fileChunkFixedLen))
    (.chunkTooLarge c.data.length (min (min chunkSize maxChunkSize) (maxMessage-fileChunkFixedLen)))
  require (c.offset+c.data.length < 2^64) .chunkExceedsFile
  require (c.offset+c.data.length ≤ fileSize) .chunkExceedsFile
  require (c.offset+c.data.length < fileSize → c.data.length = chunkSize) .invalidChunkSize

theorem validateStreamBounds_ok {c : FileChunk} {expected fileSize chunkSize maxChunkSize : ℕ}
    (h : c.validateStreamBounds expected fileSize chunkSize maxChunkSize = .ok ()) :
    c.offset = expected ∧ c.data.length ≠ 0 ∧ c.offset+c.data.length ≤ fileSize := by
  simp only [FileChunk.validateStreamBounds,sequence_eq_ok,require_eq_ok] at h
  obtain ⟨-,hoffset,-,hlen,-,-,-,-,-,hend,-⟩ := h
  exact ⟨hoffset,hlen,hend⟩

structure FileFinish where
  profileVersion : ℕ
  transferId : TransferId
  fileSize : ℕ
  fileSha256 : Block 32

inductive AckStage where
  | accepted
  | complete
  | error
  deriving DecidableEq

inductive AckCode where
  | ok
  | expired
  | auth
  | quota
  | format
  | conflict
  | io
  | digest
  | internal
  deriving DecidableEq

structure FileAck where
  profileVersion : ℕ
  transferId : TransferId
  stage : AckStage
  code : AckCode
  receivedSize : ℕ
  fileSha256 : Block 32
  deriving DecidableEq

inductive FileRecord where
  | init (init : FileInit)
  | chunk (chunk : FileChunk)
  | finish (finish : FileFinish)
  | ack (ack : FileAck)

/-- The number of data records in one checkpoint batch. -/
def checkpointBatchChunks (maxInflightBytes chunkSize : ℕ) : Except FileCodecError ℕ := do
  require (chunkSize ≠ 0) .invalidChunkSize
  require (maxInflightBytes/chunkSize ≠ 0) .invalidInflightLimit
  pure (min (maxInflightBytes/chunkSize) checkpointBatchChunksMax)

theorem checkpointBatchChunks_ok {maxInflightBytes chunkSize : ℕ} (hzero : chunkSize ≠ 0)
    (h : chunkSize ≤ maxInflightBytes) :
    ∃ n, checkpointBatchChunks maxInflightBytes chunkSize = .ok n ∧ n ≠ 0 := by
  have hdiv : maxInflightBytes/chunkSize ≠ 0 := (Nat.div_pos h (by omega)).ne'
  refine ⟨min (maxInflightBytes/chunkSize) checkpointBatchChunksMax,?_,?_⟩
  · simp only [checkpointBatchChunks,sequence_eq_ok,require_eq_ok,done_eq_ok]
    exact ⟨(),hzero,(),hdiv,trivial⟩
  · simp [hdiv,checkpointBatchChunksMax]

end Gcoms.FileRecords
