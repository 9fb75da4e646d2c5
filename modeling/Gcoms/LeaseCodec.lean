import Gcoms.RelayCodec

/-!
# Lease control messages

The admission grants and the five control messages by which a lease is created,
renewed, rotated, revoked or used to obtain a further grant. Every message has a
fixed length and ends in an HMAC tag. A decoder recomputes the tag over the
fields it decoded and then validates them against the clock policy, in the
order of the source. The tag of a grant is keyed by the relay's admission key,
that of a creation by the capability inside its grant, all others by the
capabilities of the lease.
-/
namespace Gcoms.LeaseCodec
open ByteCodec Primitives Fallible RelayCells RelayCodec

def version : ℕ := 1
def opCreate : ℕ := 1
def opRenew : ℕ := 2
def opRotate : ℕ := 3
def opRevoke : ℕ := 4
def opGrantRequest : ℕ := 6

def admissionGrantLen : ℕ := 180
def leaseCreateLen : ℕ := 386
def leaseRenewLen : ℕ := 98
def leaseRotateLen : ℕ := 202
def grantRequestLen : ℕ := 148
def maxClockSkewSecs : ℕ := 300
def tagLen : ℕ := 32

abbrev QueueId := Block 32
abbrev Capability := Block 32
abbrev Nonce := Block 16
abbrev GrantId := Block 16

inductive LeaseCodecError where
  | wrongLength (expected actual : ℕ)
  | invalidVersion (version : ℕ)
  | invalidOperation (expected actual : ℕ)
  | invalidGrantLength (length : ℕ)
  | invalidMac
  | relayServiceMismatch
  | queueBindingMismatch
  | epochBindingMismatch
  | clockSkewTooLarge (skew : ℕ)
  | notYetValid (notBefore nowUnix : ℕ)
  | expired (expiryUnix nowUnix : ℕ)
  | expiryExceedsPolicy (expiryUnix maxExpiryUnix : ℕ)
  | invalidGrantWindow
  | zeroRandomField (field : String)
  | zeroEpoch
  | capabilitiesNotIndependent
  | capabilityWasNotRotated
  | grantLimitExceeded
  | relayLimitExceeded
  | renewalDoesNotExtend
  | epochOverflow
  | invalidNewEpoch (expected actual : ℕ)
  | authorityBindingMismatch
  deriving DecidableEq, Repr

/-! ## Words and policies -/

/-- `u64::saturating_add`. -/
def satAdd (a b : ℕ) : ℕ := min (a+b) (2^64-1)

/-- `u64::checked_add`. -/
def checkedAdd (a b : ℕ) : Option ℕ := if a+b < 2^64 then some (a+b) else none

structure ValidationPolicy where
  nowUnix : ℕ
  clockSkewSecs : ℕ
  maxExpiryUnix : ℕ
  deriving DecidableEq

def ValidationPolicy.new (nowUnix clockSkewSecs maxExpiryUnix : ℕ) :
    Except LeaseCodecError ValidationPolicy := do
  require (clockSkewSecs ≤ maxClockSkewSecs) (.clockSkewTooLarge clockSkewSecs)
  pure ⟨nowUnix,clockSkewSecs,maxExpiryUnix⟩

def ValidationPolicy.validateExpiry (p : ValidationPolicy) (expiryUnix : ℕ) :
    Except LeaseCodecError Unit := do
  require (p.nowUnix < satAdd expiryUnix p.clockSkewSecs) (.expired expiryUnix p.nowUnix)
  require (expiryUnix ≤ p.maxExpiryUnix) (.expiryExceedsPolicy expiryUnix p.maxExpiryUnix)

def validatePolicy (p : ValidationPolicy) : Except LeaseCodecError Unit :=
  require (p.clockSkewSecs ≤ maxClockSkewSecs) (.clockSkewTooLarge p.clockSkewSecs)

def requireLen (wire : Bytes) (expected : ℕ) : Except LeaseCodecError Unit :=
  require (wire.length = expected) (.wrongLength expected wire.length)

def requireHeader (v operation expected : ℕ) : Except LeaseCodecError Unit := do
  require (v = version) (.invalidVersion v)
  require (operation = expected) (.invalidOperation expected operation)

instance decidableAllBytes (p : Byte → Prop) [DecidablePred p] (l : Bytes) :
    Decidable (∀ b ∈ l, p b) :=
  List.decidableBAll p l

def requireRandom (field : String) {n : ℕ} (value : Block n) : Except LeaseCodecError Unit :=
  require (¬ ∀ b ∈ value.toList, b = 0) (.zeroRandomField field)

structure LeaseLimits where
  maxQueueCells : ℕ
  maxQueueBytes : ℕ
  deriving DecidableEq

structure Capabilities where
  push : Capability
  sub : Capability
  admin : Capability
  deriving DecidableEq

def Capabilities.list (c : Capabilities) : List Capability := [c.push,c.sub,c.admin]

def Capabilities.encode (c : Capabilities) : Bytes :=
  c.push.toList++(c.sub.toList++c.admin.toList)

def Capabilities.validate (c : Capabilities) (queueId : QueueId) : Except LeaseCodecError Unit := do
  requireRandom "queue_id" queueId
  requireRandom "push_cap" c.push
  requireRandom "sub_cap" c.sub
  requireRandom "admin_cap" c.admin
  require (queueId::c.list).Nodup .capabilitiesNotIndependent

def capabilitiesAt (wire : Bytes) (i : ℕ) : Capabilities :=
  ⟨blockAt 32 wire i,blockAt 32 wire (i+32),blockAt 32 wire (i+64)⟩

section Messages
variable (P : Suite)

/-- The bytes behind the authenticated part have to be its tag. -/
def verifyTag (key : Block 32) (message tag : Bytes) : Except LeaseCodecError Unit :=
  require ((P.hmac key message).toList = tag) .invalidMac

/-! ## Admission grants -/

structure AdmissionGrant where
  relayServiceId : Block 32
  grantId : GrantId
  grantCap : Capability
  queueId : QueueId
  epoch : ℕ
  notBefore : ℕ
  expiry : ℕ
  maxQueueCells : ℕ
  maxQueueBytes : ℕ
  deriving DecidableEq

namespace AdmissionGrant

def body (g : AdmissionGrant) : Bytes :=
  byte version++(g.relayServiceId.toList++(g.grantId.toList++(g.grantCap.toList++(byte opCreate++
    (g.queueId.toList++(bigEndian 8 g.epoch++(bigEndian 8 g.notBefore++(bigEndian 8 g.expiry++
      (bigEndian 2 g.maxQueueCells++bigEndian 8 g.maxQueueBytes)))))))))

def message (body : Bytes) : Bytes := ascii "GC1/ADMISSION-GRANT\x00"++(body++[0,0])

def encode (g : AdmissionGrant) (admitKey : Block 32) : Bytes :=
  g.body++(P.hmac admitKey (message g.body)).toList

def validate (g : AdmissionGrant) (policy : ValidationPolicy) : Except LeaseCodecError Unit := do
  validatePolicy policy
  requireRandom "grant_id" g.grantId
  requireRandom "grant_cap" g.grantCap
  requireRandom "queue_id" g.queueId
  require (g.epoch ≠ 0) .zeroEpoch
  require (g.notBefore < g.expiry) .invalidGrantWindow
  require (g.notBefore ≤ satAdd policy.nowUnix policy.clockSkewSecs)
    (.notYetValid g.notBefore policy.nowUnix)
  policy.validateExpiry g.expiry

def decodeBody (wire : Bytes) : AdmissionGrant :=
  ⟨blockAt 32 wire 1,blockAt 16 wire 33,blockAt 32 wire 49,blockAt 32 wire 82,wordAt 8 wire 114,
    wordAt 8 wire 122,wordAt 8 wire 130,wordAt 2 wire 138,wordAt 8 wire 140⟩

def decodeAndVerify (wire : Bytes) (admitKey service : Block 32) (policy : ValidationPolicy) :
    Except LeaseCodecError AdmissionGrant := do
  requireLen wire admissionGrantLen
  requireHeader (wordAt 1 wire 0) (wordAt 1 wire 81) opCreate
  require (slice wire 1 33 = service.toList) .relayServiceMismatch
  verifyTag P admitKey (message (slice wire 0 (admissionGrantLen-tagLen)))
    (wire.drop (admissionGrantLen-tagLen))
  let value := decodeBody wire
  value.validate policy
  pure value

end AdmissionGrant

/-! ## Creation -/

structure LeaseCreate where
  queueId : QueueId
  epoch : ℕ
  leaseExpiry : ℕ
  queueCells : ℕ
  queueBytes : ℕ
  capabilities : Capabilities
  nonce : Nonce
  grant : Block 180
  deriving DecidableEq

namespace LeaseCreate

def message (v : LeaseCreate) (service : Block 32) : Bytes :=
  ascii "GC1/LEASE-CREATE\x00"++(byte version++(service.toList++(v.queueId.toList++
    (bigEndian 8 v.epoch++(byte opCreate++(bigEndian 8 v.leaseExpiry++(bigEndian 2 v.queueCells++
      (bigEndian 8 v.queueBytes++(v.capabilities.encode++(v.nonce.toList++
        (bigEndian 2 admissionGrantLen++v.grant.toList)))))))))))

def encode (v : LeaseCreate) (service : Block 32) : Bytes :=
  byte version++(byte opCreate++(v.queueId.toList++(bigEndian 8 v.epoch++
    (bigEndian 8 v.leaseExpiry++(bigEndian 2 v.queueCells++(bigEndian 8 v.queueBytes++
      (v.capabilities.encode++(v.nonce.toList++(bigEndian 2 admissionGrantLen++(v.grant.toList++
        (P.hmac (blockAt 32 v.grant.toList 49) (v.message service)).toList))))))))))

def decodeBody (wire : Bytes) : LeaseCreate :=
  ⟨blockAt 32 wire 2,wordAt 8 wire 34,wordAt 8 wire 42,wordAt 2 wire 50,wordAt 8 wire 52,
    capabilitiesAt wire 60,blockAt 16 wire 156,blockAt 180 wire 174⟩

def validate (v : LeaseCreate) (grant : AdmissionGrant) (policy : ValidationPolicy)
    (relayLimits : LeaseLimits) : Except LeaseCodecError Unit := do
  validatePolicy policy
  require (v.epoch ≠ 0) .zeroEpoch
  require (v.queueId = grant.queueId) .queueBindingMismatch
  require (v.epoch = grant.epoch) .epochBindingMismatch
  v.capabilities.validate v.queueId
  requireRandom "nonce" v.nonce
  policy.validateExpiry v.leaseExpiry
  require (v.queueCells ≤ grant.maxQueueCells ∧ v.queueBytes ≤ grant.maxQueueBytes)
    .grantLimitExceeded
  require (v.queueCells ≤ relayLimits.maxQueueCells ∧ v.queueBytes ≤ relayLimits.maxQueueBytes)
    .relayLimitExceeded

def decodeAndVerify (wire : Bytes) (admitKey service : Block 32)
    (grantPolicy leasePolicy : ValidationPolicy) (relayLimits : LeaseLimits) :
    Except LeaseCodecError LeaseCreate := do
  requireLen wire leaseCreateLen
  requireHeader (wordAt 1 wire 0) (wordAt 1 wire 1) opCreate
  require (wordAt 2 wire 172 = admissionGrantLen) (.invalidGrantLength (wordAt 2 wire 172))
  let value := decodeBody wire
  let grant ← AdmissionGrant.decodeAndVerify P value.grant.toList admitKey service grantPolicy
  verifyTag P grant.grantCap (value.message service) (wire.drop (leaseCreateLen-tagLen))
  value.validate grant leasePolicy relayLimits
  pure value

end LeaseCreate

/-! ## Renewal and revocation -/

/-- The fields that the short control messages share. -/
structure Short where
  queueId : QueueId
  epoch : ℕ
  expiry : ℕ
  nonce : Nonce
  deriving DecidableEq

namespace Short

def message (v : Short) (domain : Bytes) (operation : ℕ) (service : Block 32) : Bytes :=
  domain++(byte version++(service.toList++(v.queueId.toList++(bigEndian 8 v.epoch++
    (byte operation++(bigEndian 8 v.expiry++(v.nonce.toList++[0,0])))))))

def encode (v : Short) (operation : ℕ) (domain : Bytes) (key service : Block 32) : Bytes :=
  byte version++(byte operation++(v.queueId.toList++(bigEndian 8 v.epoch++(bigEndian 8 v.expiry++
    (v.nonce.toList++(P.hmac key (v.message domain operation service)).toList)))))

def decode (wire : Bytes) (operation : ℕ) (domain : Bytes) (key service : Block 32) :
    Except LeaseCodecError Short := do
  requireLen wire leaseRenewLen
  requireHeader (wordAt 1 wire 0) (wordAt 1 wire 1) operation
  let value : Short := ⟨blockAt 32 wire 2,wordAt 8 wire 34,wordAt 8 wire 42,blockAt 16 wire 50⟩
  verifyTag P key (value.message domain operation service) (wire.drop (leaseRenewLen-tagLen))
  pure value

end Short

def renewDomain : Bytes := ascii "GC1/LEASE-RENEW\x00"
def revokeDomain : Bytes := ascii "GC1/LEASE-REVOKE\x00"

/-- `LeaseRenew::decode_and_verify`. -/
def renewDecodeAndVerify (wire : Bytes) (adminCap service : Block 32) (currentExpiry : ℕ)
    (policy : ValidationPolicy) : Except LeaseCodecError Short := do
  let value ← Short.decode P wire opRenew renewDomain adminCap service
  validatePolicy policy
  requireRandom "nonce" value.nonce
  policy.validateExpiry value.expiry
  require (currentExpiry < value.expiry) .renewalDoesNotExtend
  pure value

/-- `LeaseRevoke::decode_and_verify`. -/
def revokeDecodeAndVerify (wire : Bytes) (adminCap service : Block 32)
    (policy : ValidationPolicy) : Except LeaseCodecError Short := do
  let value ← Short.decode P wire opRevoke revokeDomain adminCap service
  validatePolicy policy
  requireRandom "nonce" value.nonce
  policy.validateExpiry value.expiry
  pure value

/-! ## Rotation -/

structure LeaseRotate where
  queueId : QueueId
  oldEpoch : ℕ
  newEpoch : ℕ
  leaseExpiry : ℕ
  newCapabilities : Capabilities
  nonce : Nonce
  deriving DecidableEq

namespace LeaseRotate

def message (v : LeaseRotate) (service : Block 32) : Bytes :=
  ascii "GC1/LEASE-ROTATE\x00"++(byte version++(service.toList++(v.queueId.toList++
    (bigEndian 8 v.oldEpoch++(byte opRotate++(bigEndian 8 v.newEpoch++(bigEndian 8 v.leaseExpiry++
      (v.newCapabilities.encode++(v.nonce.toList++[0,0])))))))))

def encode (v : LeaseRotate) (adminCap service : Block 32) : Bytes :=
  byte version++(byte opRotate++(v.queueId.toList++(bigEndian 8 v.oldEpoch++
    (bigEndian 8 v.newEpoch++(bigEndian 8 v.leaseExpiry++(v.newCapabilities.encode++
      (v.nonce.toList++(P.hmac adminCap (v.message service)).toList)))))))

def decodeBody (wire : Bytes) : LeaseRotate :=
  ⟨blockAt 32 wire 2,wordAt 8 wire 34,wordAt 8 wire 42,wordAt 8 wire 50,capabilitiesAt wire 58,
    blockAt 16 wire 154⟩

def validate (v : LeaseRotate) (current : Capabilities) (policy : ValidationPolicy) :
    Except LeaseCodecError Unit := do
  validatePolicy policy
  let expected ← found .epochOverflow (checkedAdd v.oldEpoch 1)
  require (v.newEpoch = expected) (.invalidNewEpoch expected v.newEpoch)
  v.newCapabilities.validate v.queueId
  require (∀ cap ∈ v.newCapabilities.list, cap ∉ current.list) .capabilityWasNotRotated
  requireRandom "nonce" v.nonce
  policy.validateExpiry v.leaseExpiry

def decodeAndVerify (wire : Bytes) (current : Capabilities) (service : Block 32)
    (policy : ValidationPolicy) : Except LeaseCodecError LeaseRotate := do
  requireLen wire leaseRotateLen
  requireHeader (wordAt 1 wire 0) (wordAt 1 wire 1) opRotate
  let value := decodeBody wire
  verifyTag P current.admin (value.message service) (wire.drop (leaseRotateLen-tagLen))
  value.validate current policy
  pure value

end LeaseRotate

/-! ## Requests for further grants -/

structure DynamicGrantRequest where
  authorityQueueId : QueueId
  authorityEpoch : ℕ
  queueId : QueueId
  epoch : ℕ
  limits : LeaseLimits
  nonce : Nonce
  expiry : ℕ
  deriving DecidableEq

namespace DynamicGrantRequest

def body (v : DynamicGrantRequest) : Bytes :=
  byte version++(byte opGrantRequest++(v.authorityQueueId.toList++(bigEndian 8 v.authorityEpoch++
    (v.queueId.toList++(bigEndian 8 v.epoch++(bigEndian 2 v.limits.maxQueueCells++
      (bigEndian 8 v.limits.maxQueueBytes++(v.nonce.toList++bigEndian 8 v.expiry))))))))

def message (service : Block 32) (body : Bytes) : Bytes :=
  ascii "GC1/CHANNEL-GRANT-REQUEST\x00"++(service.toList++body)

def encode (v : DynamicGrantRequest) (adminCap service : Block 32) : Bytes :=
  v.body++(P.hmac adminCap (message service v.body)).toList

def decodeBody (wire : Bytes) : DynamicGrantRequest :=
  ⟨blockAt 32 wire 2,wordAt 8 wire 34,blockAt 32 wire 42,wordAt 8 wire 74,
    ⟨wordAt 2 wire 82,wordAt 8 wire 84⟩,blockAt 16 wire 92,wordAt 8 wire 108⟩

def validate (v : DynamicGrantRequest) : Except LeaseCodecError Unit := do
  requireRandom "authority_queue_id" v.authorityQueueId
  requireRandom "queue_id" v.queueId
  requireRandom "nonce" v.nonce
  require (v.authorityEpoch ≠ 0 ∧ v.epoch ≠ 0) .zeroEpoch
  require (v.authorityQueueId ≠ v.queueId) .capabilitiesNotIndependent
  require (v.limits.maxQueueCells ≠ 0 ∧ v.limits.maxQueueBytes ≠ 0) .grantLimitExceeded

def decodeAndVerify (wire : Bytes) (adminCap service : Block 32) (authorityQueueId : QueueId)
    (authorityEpoch : ℕ) (policy : ValidationPolicy) :
    Except LeaseCodecError DynamicGrantRequest := do
  requireLen wire grantRequestLen
  requireHeader (wordAt 1 wire 0) (wordAt 1 wire 1) opGrantRequest
  verifyTag P adminCap (message service (slice wire 0 (grantRequestLen-tagLen)))
    (wire.drop (grantRequestLen-tagLen))
  let value := decodeBody wire
  require (value.authorityQueueId = authorityQueueId ∧ value.authorityEpoch = authorityEpoch)
    .authorityBindingMismatch
  value.validate
  policy.validateExpiry value.expiry
  pure value

end DynamicGrantRequest

end Messages

end Gcoms.LeaseCodec
