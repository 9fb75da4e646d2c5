import Gcoms.Commands
import Gcoms.LeaseCodec
import Gcoms.SortedMaps

/-!
# The lease store of a relay

All admission, lease, replay and queue state of one relay process, and the
operations on it. Each operation first drops what has expired at the caller's
clock. The operations are commands: where the source changes a table before a
later step can still fail, so does the model. A lookup which the source marks as
infallible, and a subtraction it does not guard, fail with `panic`.

Random draws are arguments. `Draw.Accepted` is the condition on which the loops
that draw a grant id and a grant capability stop. An incarnation of a queue is
identified by a number that is never used again, where the source compares the
addresses of reference-counted allocations. A change notification is the number
of changes that were sent to the channel.
-/
namespace Gcoms.LeaseStore
open ByteCodec SortedMaps Primitives Commands RelayCells RelayCodec LeaseCodec

structure StoreConfig where
  maxGrants : ℕ
  maxQueues : ℕ
  maxReplayNoncesPerLease : ℕ
  maxSubscriptionNoncesPerLease : ℕ
  maxTotalQueueBytes : ℕ
  relayLimits : LeaseLimits
  grantLifetimeSecs : ℕ
  maxLeaseLifetimeSecs : ℕ
  clockSkewSecs : ℕ
  dynamicGrantsPerMinute : ℕ
  deriving DecidableEq

structure GrantRequest where
  queueId : QueueId
  epoch : ℕ
  limits : LeaseLimits
  deriving DecidableEq

structure AdmissionProvision where
  grant : AdmissionGrant
  wire : Bytes
  deriving DecidableEq

inductive PushOutcome where
  | enqueued | duplicate | cover
  deriving DecidableEq, Repr

inductive AckOutcome where
  | removed | mismatch | empty
  deriving DecidableEq, Repr

structure LeaseView where
  queueId : QueueId
  epoch : ℕ
  expiry : ℕ
  limits : LeaseLimits
  deriving DecidableEq

inductive StoreError where
  | invalidConfig | capacity | queueFull | replayCapacity | unauthorized | grantConsumed | replay
  | lease (e : LeaseCodecError)
  | relay (e : RelayCodecError)
  deriving DecidableEq, Repr

/-- An operation returns an error or, where it breaks an assumption of the
source, panics. -/
inductive Fault where
  | error (e : StoreError)
  | panic (message : String)
  deriving DecidableEq, Repr

inductive GrantStatus where
  | unconsumed | consumed
  deriving DecidableEq, Repr

structure GrantRecord where
  queueId : QueueId
  epoch : ℕ
  expiry : ℕ
  status : GrantStatus
  temporaryExpiry : Option ℕ
  deriving DecidableEq

inductive ReplayOperation where
  | create | renew | subscribe | push | grant
  deriving DecidableEq, Repr

structure ReplayRecord where
  epoch : ℕ
  operation : ReplayOperation
  nonce : Nonce
  expiry : ℕ
  gc2PushBinding : Option (Block 32)
  deriving DecidableEq

/-! ## Leases -/

structure LeaseRecord where
  createDigest : Block 32
  queueId : QueueId
  epoch : ℕ
  expiry : ℕ
  limits : LeaseLimits
  capabilities : Capabilities
  replay : List ReplayRecord
  nextReplayExpiry : Option ℕ
  dynamicGrants : List ℕ
  temporaryExpiry : Option ℕ
  deriving DecidableEq

/-- The earliest expiry of a list of replay records. -/
def earliest (replay : List ReplayRecord) : Option ℕ := (replay.map (·.expiry)).min?

namespace LeaseRecord

def view (l : LeaseRecord) : LeaseView := ⟨l.queueId,l.epoch,l.expiry,l.limits⟩

def purgeReplay (l : LeaseRecord) (nowUnix : ℕ) : LeaseRecord :=
  if l.nextReplayExpiry.all (fun expiry => expiry > nowUnix) then l
  else
    let replay := l.replay.filter (fun r => r.expiry > nowUnix)
    { l with replay, nextReplayExpiry := earliest replay }

def sameNonce (epoch : ℕ) (operation : ReplayOperation) (nonce : Nonce) (r : ReplayRecord) : Bool :=
  r.epoch = epoch && (r.operation = operation && r.nonce = nonce)

def hasReplay (l : LeaseRecord) (epoch : ℕ) (operation : ReplayOperation) (nonce : Nonce) : Bool :=
  l.replay.any (LeaseRecord.sameNonce epoch operation nonce)

def replayCount (l : LeaseRecord) (operation : ReplayOperation) : ℕ :=
  (l.replay.filter (fun r => r.operation = operation)).length

/-- The binding of a GC/2 deposit is set right after its record is appended. -/
def recordReplay (l : LeaseRecord) (record : ReplayRecord) (maxReplayNonces : ℕ) :
    Except StoreError LeaseRecord :=
  if l.replayCount record.operation ≥ maxReplayNonces then .error .replayCapacity
  else .ok { l with
    replay := l.replay++[record]
    nextReplayExpiry := some (match l.nextReplayExpiry with
      | none => record.expiry
      | some old => min old record.expiry) }

/-- Drops the rate-limit slots that are a minute old. -/
def pruneSlots (l : LeaseRecord) (nowUnix : ℕ) : LeaseRecord :=
  { l with dynamicGrants := l.dynamicGrants.filter (fun issued => satAdd issued 60 > nowUnix) }

def addSlot (l : LeaseRecord) (nowUnix : ℕ) : LeaseRecord :=
  { l with dynamicGrants := l.dynamicGrants++[nowUnix] }

def requireBinding (l : LeaseRecord) (queueId : QueueId) (epoch : ℕ) : Except StoreError Unit :=
  if l.queueId ≠ queueId ∨ l.epoch ≠ epoch then .error .unauthorized else .ok ()

end LeaseRecord

/-! ## Queues -/

structure Queued (C : Type) where
  pushNonce : Nonce
  cell : C
  deriving DecidableEq

structure ClassQueue where
  messages : List (Queued NaturalCell)
  changed : ℕ
  deriving DecidableEq

structure ClassQueues where
  interactive : ClassQueue
  bulk : ClassQueue
  generation : ℕ
  deriving DecidableEq

namespace ClassQueues

def new (generation : ℕ) : ClassQueues := ⟨⟨[],0⟩,⟨[],0⟩,generation⟩

def len (q : ClassQueues) : ℕ := q.interactive.messages.length+q.bulk.messages.length

def wakeAll (q : ClassQueues) : ClassQueues :=
  { q with
    interactive := { q.interactive with changed := q.interactive.changed+1 }
    bulk := { q.bulk with changed := q.bulk.changed+1 } }

def ofClass (q : ClassQueues) : TrafficClass → ClassQueue
  | .interactive => q.interactive
  | .bulk => q.bulk

def setClass (q : ClassQueues) (c : ClassQueue) : TrafficClass → ClassQueues
  | .interactive => { q with interactive := c }
  | .bulk => { q with bulk := c }

end ClassQueues

structure Queue where
  bytes : ℕ
  messages : List (Queued Cell)
  classes : ClassQueues
  deriving DecidableEq

def Queue.len (q : Queue) : ℕ := q.messages.length+q.classes.len

@[ext]
structure QueueStore where
  maxQueues : ℕ
  queues : SortedMap QueueId Queue
  totalBytes : ℕ
  nextGeneration : ℕ
  deriving DecidableEq

namespace QueueStore

def remove (s : QueueStore) (queueId : QueueId) : QueueStore :=
  match s.queues.find? queueId with
  | none => s
  | some queue => { s with
      queues := s.queues.erase queueId
      totalBytes := s.totalBytes-queue.bytes }

def create (s : QueueStore) (queueId : QueueId) : Except StoreError QueueStore :=
  if s.queues.size ≥ s.maxQueues ∨ s.queues.contains queueId = true then .error .capacity
  else .ok { s with
    queues := s.queues.insert queueId ⟨0,[],.new s.nextGeneration⟩
    nextGeneration := s.nextGeneration+1 }

end QueueStore

/-! ## The store -/

@[ext]
structure Store where
  relayServiceId : Block 32
  admissionKey : Block 32
  config : StoreConfig
  grants : SortedMap GrantId GrantRecord
  leases : SortedMap QueueId LeaseRecord
  queues : QueueStore
  deriving DecidableEq

abbrev Op (α : Type) := Cmd Store Fault α

/-- The values at which the two random loops of a grant stop. -/
structure Draw where
  grantId : GrantId
  grantCap : Capability
  deriving DecidableEq

def Draw.Accepted (d : Draw) (s : Store) (queueId : QueueId) : Prop :=
  d.grantId ≠ pad 16 [] ∧ s.grants.find? d.grantId = none ∧
    d.grantCap ≠ pad 32 [] ∧ d.grantCap ≠ queueId ∧ d.grantCap.toList.take 16 ≠ d.grantId.toList

structure AuthenticatedSubscription where
  subscription : Gc2.Subscription
  generation : ℕ
  deriving DecidableEq

namespace Store

def new (relayServiceId admissionKey : Block 32) (config : StoreConfig) :
    Except StoreError Store :=
  if config.maxGrants = 0 ∨ config.maxQueues = 0 ∨ config.maxReplayNoncesPerLease = 0 ∨
      config.maxSubscriptionNoncesPerLease = 0 ∨ config.maxTotalQueueBytes = 0 ∨
      config.relayLimits.maxQueueCells = 0 ∨ config.relayLimits.maxQueueBytes = 0 ∨
      config.grantLifetimeSecs = 0 ∨ config.maxLeaseLifetimeSecs = 0 ∨
      config.dynamicGrantsPerMinute = 0 then .error .invalidConfig
  else
    match ValidationPolicy.new 0 config.clockSkewSecs (2^64-1) with
    | .error e => .error (.lease e)
    | .ok _ => .ok ⟨relayServiceId,admissionKey,config,.empty,.empty,
        ⟨config.maxQueues,.empty,0,0⟩⟩

def removeLease (s : Store) (queueId : QueueId) : Store :=
  { s with leases := s.leases.erase queueId, queues := s.queues.remove queueId }

def cleanupExpired (s : Store) (nowUnix : ℕ) : Store :=
  let s₁ := { s with grants := s.grants.retain (fun _ g => g.expiry > nowUnix) }
  let expired := (s.leases.entries.filter (fun e => e.2.expiry ≤ nowUnix)).map Prod.fst
  let s₂ := expired.foldl removeLease s₁
  { s₂ with leases := s₂.leases.mapValues (fun l => l.purgeReplay nowUnix) }

def policy (s : Store) (nowUnix horizonSecs : ℕ) : Except StoreError ValidationPolicy :=
  match checkedAdd nowUnix horizonSecs with
  | none => .error .invalidConfig
  | some maxExpiryUnix =>
      (ValidationPolicy.new nowUnix s.config.clockSkewSecs maxExpiryUnix).mapError .lease

end Store

/-! ## Steps that several operations share -/

def cleanup (nowUnix : ℕ) : Op Unit := .update (fun s => s.cleanupExpired nowUnix)

def refuse (e : StoreError) : Fault := .error e

def policyOf (nowUnix : ℕ) (horizonSecs : StoreConfig → ℕ) : Op ValidationPolicy := do
  let s ← Cmd.read id
  .attempt refuse (s.policy nowUnix (horizonSecs s.config))

/-- The bytes that name the queue of a control message. -/
def shortQueueId (wire : Bytes) : Op QueueId := do
  .demand (34 ≤ wire.length) (refuse .unauthorized)
  pure (blockAt 32 wire 2)

def putGrant (grantId : GrantId) (g : GrantRecord) : Op Unit :=
  .update (fun s => { s with grants := s.grants.insert grantId g })

def putLease (queueId : QueueId) (l : LeaseRecord) : Op Unit :=
  .update (fun s => { s with leases := s.leases.insert queueId l })

def putQueue (queueId : QueueId) (q : Queue) (totalBytes : ℕ) : Op Unit :=
  .update (fun s => { s with queues := { s.queues with
    queues := s.queues.queues.insert queueId q, totalBytes := totalBytes } })

def leaseOf (queueId : QueueId) : Op LeaseRecord := do
  let s ← Cmd.read id
  .obtain (refuse .unauthorized) (s.leases.find? queueId)

/-- The lease, its expired replay records dropped. -/
def purgedLeaseOf (queueId : QueueId) (nowUnix : ℕ) : Op LeaseRecord := do
  let l ← leaseOf queueId
  let l := l.purgeReplay nowUnix
  putLease queueId l
  pure l

def queueOf (queueId : QueueId) (message : String) : Op Queue := do
  let s ← Cmd.read id
  .obtain (.panic message) (s.queues.queues.find? queueId)

/-- No later than the deadline of the grant that the lease was created from. -/
def withinBound (temporaryExpiry : Option ℕ) (expiry : ℕ) : Bool :=
  temporaryExpiry.all (fun bound => expiry ≤ bound)

section Operations
variable (P : Suite)

/-! ## Grants -/

def issueGrantWithBound (request : GrantRequest) (temporaryExpiry : Option ℕ) (draw : Draw)
    (nowUnix : ℕ) : Op AdmissionProvision := do
  cleanup nowUnix
  let s ← Cmd.read id
  .demand (¬ (s.grants.size ≥ s.config.maxGrants ∨
    request.limits.maxQueueCells > s.config.relayLimits.maxQueueCells ∨
    request.limits.maxQueueBytes > s.config.relayLimits.maxQueueBytes ∨
    request.limits.maxQueueCells = 0 ∨ request.limits.maxQueueBytes = 0)) (refuse .capacity)
  let expiry ← Cmd.obtain (refuse .invalidConfig) (checkedAdd nowUnix s.config.grantLifetimeSecs)
  let grant : AdmissionGrant := ⟨s.relayServiceId,draw.grantId,draw.grantCap,request.queueId,
    request.epoch,nowUnix,expiry,request.limits.maxQueueCells,request.limits.maxQueueBytes⟩
  let policy ← policyOf nowUnix (·.grantLifetimeSecs)
  .attempt (fun e => refuse (.lease e)) (grant.validate policy)
  putGrant draw.grantId ⟨request.queueId,request.epoch,expiry,.unconsumed,temporaryExpiry⟩
  pure ⟨grant,grant.encode P s.admissionKey⟩

def issueGrant (request : GrantRequest) (draw : Draw) (nowUnix : ℕ) : Op AdmissionProvision :=
  issueGrantWithBound P request none draw nowUnix

def issueTemporaryGrant (request : GrantRequest) (expiresAt : ℕ) (draw : Draw) (nowUnix : ℕ) :
    Op AdmissionProvision := do
  let s ← Cmd.read id
  .demand (nowUnix < expiresAt ∧ expiresAt ≤ satAdd nowUnix s.config.maxLeaseLifetimeSecs)
    (refuse .unauthorized)
  issueGrantWithBound P request (some expiresAt) draw nowUnix

/-- The part of a dynamic grant that uses up the authority's replay and rate budgets. -/
def chargeAuthority (wire : Bytes) (nowUnix : ℕ) : Op DynamicGrantRequest := do
  let queueId ← shortQueueId wire
  let s ← Cmd.read id
  let policy ← policyOf nowUnix (·.grantLifetimeSecs)
  let authority ← leaseOf queueId
  .demand (authority.temporaryExpiry = none) (refuse .unauthorized)
  let authority ← purgedLeaseOf queueId nowUnix
  let request ← Cmd.attempt (fun e => refuse (.lease e)) (DynamicGrantRequest.decodeAndVerify P wire
    authority.capabilities.admin s.relayServiceId authority.queueId authority.epoch policy)
  .demand (authority.hasReplay authority.epoch .grant request.nonce = false) (refuse .replay)
  let authority := authority.pruneSlots nowUnix
  putLease queueId authority
  .demand (authority.dynamicGrants.length < s.config.dynamicGrantsPerMinute) (refuse .capacity)
  let authority ← Cmd.attempt refuse (authority.recordReplay
    ⟨authority.epoch,.grant,request.nonce,request.expiry,none⟩ s.config.maxReplayNoncesPerLease)
  putLease queueId (authority.addSlot nowUnix)
  pure request

def issueDynamicGrant (wire : Bytes) (draw : Draw) (nowUnix : ℕ) : Op AdmissionProvision := do
  cleanup nowUnix
  let request ← chargeAuthority P wire nowUnix
  issueGrant P ⟨request.queueId,request.epoch,request.limits⟩ draw nowUnix

/-! ## Leases -/

def grantIdOf (create : LeaseCreate) : GrantId := blockAt 16 create.grant.toList 33

/-- The grant of a creation, once nothing speaks against it. -/
def usableGrant (create : LeaseCreate) (nowUnix : ℕ) : Op GrantRecord := do
  let s ← Cmd.read id
  let grant ← Cmd.obtain (refuse .unauthorized) (s.grants.find? (grantIdOf create))
  .demand (grant.status ≠ .consumed) (refuse .grantConsumed)
  .demand (¬ (grant.queueId ≠ create.queueId ∨ grant.epoch ≠ create.epoch ∨
    grant.expiry ≤ nowUnix ∨ withinBound grant.temporaryExpiry create.leaseExpiry = false ∨
    s.leases.contains create.queueId = true)) (refuse .unauthorized)
  pure grant

def newLease (create : LeaseCreate) (digest : Block 32) (temporaryExpiry : Option ℕ) :
    LeaseRecord where
  createDigest := digest
  queueId := create.queueId
  epoch := create.epoch
  expiry := create.leaseExpiry
  limits := ⟨create.queueCells,create.queueBytes⟩
  capabilities := create.capabilities
  replay := [⟨create.epoch,.create,create.nonce,create.leaseExpiry,none⟩]
  nextReplayExpiry := some create.leaseExpiry
  dynamicGrants := []
  temporaryExpiry := temporaryExpiry

def createNew (create : LeaseCreate) (digest : Block 32) (nowUnix : ℕ) : Op LeaseView := do
  let grant ← usableGrant create nowUnix
  let s ← Cmd.read id
  let queues ← Cmd.attempt refuse (s.queues.create create.queueId)
  let lease := newLease create digest grant.temporaryExpiry
  Cmd.update (fun s => { s with queues })
  putLease create.queueId lease
  putGrant (grantIdOf create) { grant with status := .consumed }
  pure lease.view

/-- The lease that the same bytes created and that has not been rotated since. -/
def createdBefore (s : Store) (create : LeaseCreate) (digest : Block 32) : Option LeaseRecord :=
  (s.leases.find? create.queueId).filter
    (fun l => l.epoch = create.epoch && l.createDigest = digest)

def createLease (wire : Bytes) (nowUnix : ℕ) : Op LeaseView := do
  cleanup nowUnix
  let s ← Cmd.read id
  let grantPolicy ← policyOf nowUnix (·.grantLifetimeSecs)
  let leasePolicy ← policyOf nowUnix (·.maxLeaseLifetimeSecs)
  let create ← Cmd.attempt (fun e => refuse (.lease e)) (LeaseCreate.decodeAndVerify P wire
    s.admissionKey s.relayServiceId grantPolicy leasePolicy s.config.relayLimits)
  match createdBefore s create (P.sha256 wire) with
  | some existing => pure existing.view
  | none => createNew create (P.sha256 wire) nowUnix

def renew (wire : Bytes) (nowUnix : ℕ) : Op LeaseView := do
  cleanup nowUnix
  let queueId ← shortQueueId wire
  let policy ← policyOf nowUnix (·.maxLeaseLifetimeSecs)
  let s ← Cmd.read id
  let lease ← purgedLeaseOf queueId nowUnix
  let renew ← Cmd.attempt (fun e => refuse (.lease e)) (renewDecodeAndVerify P wire
    lease.capabilities.admin s.relayServiceId lease.expiry policy)
  .attempt refuse (lease.requireBinding renew.queueId renew.epoch)
  .demand (withinBound lease.temporaryExpiry renew.expiry = true) (refuse .unauthorized)
  .demand (lease.hasReplay renew.epoch .renew renew.nonce = false) (refuse .replay)
  let lease ← Cmd.attempt refuse (lease.recordReplay ⟨renew.epoch,.renew,renew.nonce,renew.expiry,none⟩
    s.config.maxReplayNoncesPerLease)
  let lease := { lease with expiry := renew.expiry }
  putLease queueId lease
  pure lease.view

def rotate (wire : Bytes) (nowUnix : ℕ) : Op LeaseView := do
  cleanup nowUnix
  let queueId ← shortQueueId wire
  let policy ← policyOf nowUnix (·.maxLeaseLifetimeSecs)
  let s ← Cmd.read id
  let lease ← purgedLeaseOf queueId nowUnix
  let rotate ← Cmd.attempt (fun e => refuse (.lease e)) (LeaseRotate.decodeAndVerify P wire
    lease.capabilities s.relayServiceId policy)
  .attempt refuse (lease.requireBinding rotate.queueId rotate.oldEpoch)
  .demand (withinBound lease.temporaryExpiry rotate.leaseExpiry = true) (refuse .unauthorized)
  let lease := { lease with
    capabilities := rotate.newCapabilities
    epoch := rotate.newEpoch
    expiry := rotate.leaseExpiry
    replay := []
    nextReplayExpiry := none }
  putLease queueId lease
  let queue ← queueOf queueId "every lease owns a queue"
  putQueue queueId { queue with classes := queue.classes.wakeAll } s.queues.totalBytes
  pure lease.view

def revoke (wire : Bytes) (nowUnix : ℕ) : Op Unit := do
  cleanup nowUnix
  let queueId ← shortQueueId wire
  let policy ← policyOf nowUnix (·.maxLeaseLifetimeSecs)
  let s ← Cmd.read id
  let lease ← leaseOf queueId
  let revoke ← Cmd.attempt (fun e => refuse (.lease e)) (revokeDecodeAndVerify P wire
    lease.capabilities.admin s.relayServiceId policy)
  .attempt refuse (lease.requireBinding revoke.queueId revoke.epoch)
  .update (fun s => s.removeLease queueId)

/-! ## Subscriptions -/

def authenticateSub (cell : Cell) (nowUnix : ℕ) : Op RelaySub := do
  cleanup nowUnix
  .demand (34 ≤ cell.payload.length) (refuse .unauthorized)
  let queueId := blockAt 32 cell.payload 2
  let s ← Cmd.read id
  let lease ← purgedLeaseOf queueId nowUnix
  let sub ← Cmd.attempt (fun e => refuse (.relay e)) (RelaySub.decodeFromCell P cell
    lease.capabilities.sub s.relayServiceId nowUnix)
  .attempt refuse (lease.requireBinding sub.queueId sub.epoch)
  .demand (sub.subscriptionExpiry ≤ lease.expiry) (refuse .unauthorized)
  .demand (lease.hasReplay sub.epoch .subscribe sub.nonce = false) (refuse .replay)
  let lease ← Cmd.attempt refuse (lease.recordReplay
    ⟨sub.epoch,.subscribe,sub.nonce,sub.subscriptionExpiry,none⟩
    s.config.maxSubscriptionNoncesPerLease)
  putLease queueId lease
  pure sub

def authenticateSubGc2 (cell : NaturalCell) (nowUnix : ℕ) : Op AuthenticatedSubscription := do
  cleanup nowUnix
  .demand (33 ≤ cell.payload.length) (refuse .unauthorized)
  let queueId := blockAt 32 cell.payload 1
  let s ← Cmd.read id
  let lease ← leaseOf queueId
  let sub ← Cmd.attempt (fun e => refuse (.relay e)) (Gc2.Subscription.decode P cell
    lease.capabilities.sub s.relayServiceId nowUnix)
  .attempt refuse (lease.requireBinding sub.queueId sub.epoch)
  .demand (sub.expiry ≤ lease.expiry) (refuse .unauthorized)
  .demand (lease.hasReplay sub.epoch .subscribe sub.nonce = false) (refuse .replay)
  let lease ← Cmd.attempt refuse (lease.recordReplay ⟨sub.epoch,.subscribe,sub.nonce,sub.expiry,none⟩
    s.config.maxSubscriptionNoncesPerLease)
  putLease queueId lease
  let queue ← queueOf queueId "every lease owns a queue"
  pure ⟨sub,queue.classes.generation⟩

/-! ## Deposits -/

def recordPush (queueId : QueueId) (lease : LeaseRecord) (record : ReplayRecord) : Op Unit := do
  let s ← Cmd.read id
  let lease ← Cmd.attempt refuse (lease.recordReplay record s.config.maxReplayNoncesPerLease)
  putLease queueId lease

/-- The relay's byte count with the message added. -/
def totalAfter (bytes : ℕ) : Op ℕ := do
  let s ← Cmd.read id
  let total ← Cmd.obtain (refuse .capacity) (checkedAdd s.queues.totalBytes bytes)
  .demand (total ≤ s.config.maxTotalQueueBytes) (refuse .capacity)
  pure total

def naturalCellLenChecked (msg : Cell) : Except RelayCodecError ℕ :=
  if msg.payload.length > 2^16-1 then .error .cellTooLarge else .ok msg.naturalLen

def enqueue (queueId : QueueId) (lease : LeaseRecord) (push : RelayPush) (msg : Cell) :
    Op PushOutcome := do
  let bytes ← Cmd.attempt (fun e => refuse (.relay e)) (naturalCellLenChecked msg)
  let total ← totalAfter bytes
  let queue ← queueOf queueId "every lease owns a queue"
  let nextCells ← Cmd.obtain (refuse .queueFull) (checkedAdd queue.len 1)
  let nextBytes ← Cmd.obtain (refuse .queueFull) (checkedAdd queue.bytes bytes)
  .demand (nextCells ≤ lease.limits.maxQueueCells ∧ nextBytes ≤ lease.limits.maxQueueBytes)
    (refuse .queueFull)
  let s ← Cmd.read id
  .demand (lease.replayCount .push < s.config.maxReplayNoncesPerLease) (refuse .replayCapacity)
  putQueue queueId { queue with bytes := nextBytes, messages := queue.messages++[⟨push.pushNonce,msg⟩] }
    total
  recordPush queueId lease ⟨push.epoch,.push,push.pushNonce,push.pushExpiry,none⟩
  pure .enqueued

/-- A repeated nonce is a retry unless a GC/2 deposit used it. -/
def retried (lease : LeaseRecord) (push : RelayPush) : Op PushOutcome := do
  .demand (lease.replay.any (fun r => LeaseRecord.sameNonce push.epoch .push push.pushNonce r &&
    r.gc2PushBinding.isSome) = false) (refuse .replay)
  pure .duplicate

def deposit (queueId : QueueId) (lease : LeaseRecord) (push : RelayPush) : Op PushOutcome :=
  if lease.hasReplay push.epoch .push push.pushNonce then retried lease push
  else
    match push.msg with
    | none => do
        recordPush queueId lease ⟨push.epoch,.push,push.pushNonce,push.pushExpiry,none⟩
        pure .cover
    | some msg => enqueue queueId lease push msg

def authenticatePush (push : UnauthenticatedRelayPush) (nowUnix : ℕ) : Op PushOutcome := do
  cleanup nowUnix
  let queueId := push.parts.queueId
  let s ← Cmd.read id
  let lease ← purgedLeaseOf queueId nowUnix
  let push ← Cmd.attempt (fun e => refuse (.relay e))
    (push.authenticate P lease.capabilities.push s.relayServiceId nowUnix)
  .attempt refuse (lease.requireBinding push.queueId push.epoch)
  .demand (push.pushExpiry ≤ lease.expiry) (refuse .unauthorized)
  deposit queueId lease push

def enqueueGc2 (queueId : QueueId) (lease : LeaseRecord) (push : Gc2.Push) (binding : Block 32)
    (msg : NaturalCell) : Op PushOutcome := do
  let total ← totalAfter msg.encodedLen
  let queue ← queueOf queueId "every lease owns a queue"
  let nextBytes ← Cmd.obtain (refuse .queueFull) (checkedAdd queue.bytes msg.encodedLen)
  .demand (queue.len < lease.limits.maxQueueCells ∧ nextBytes ≤ lease.limits.maxQueueBytes)
    (refuse .queueFull)
  recordPush queueId lease ⟨push.epoch,.push,push.nonce,push.expiry,some binding⟩
  let lane := queue.classes.ofClass push.trafficClass
  let lane : ClassQueue := ⟨lane.messages++[⟨push.nonce,msg⟩],lane.changed+1⟩
  putQueue queueId { queue with
    bytes := nextBytes, classes := queue.classes.setClass lane push.trafficClass } total
  pure .enqueued

def retriedGc2 (record : ReplayRecord) (binding : Block 32) : Op PushOutcome := do
  .demand (record.gc2PushBinding = some binding) (refuse .replay)
  pure .duplicate

def depositGc2 (queueId : QueueId) (lease : LeaseRecord) (push : Gc2.Push) (binding : Block 32) :
    Op PushOutcome :=
  match lease.replay.find? (LeaseRecord.sameNonce push.epoch .push push.nonce) with
  | some record => retriedGc2 record binding
  | none =>
      match push.msg with
      | none => do
          recordPush queueId lease ⟨push.epoch,.push,push.nonce,push.expiry,some binding⟩
          pure .cover
      | some msg => enqueueGc2 queueId lease push binding msg

def authenticatePushGc2 (push : Gc2.UnverifiedPush) (nowUnix : ℕ) : Op PushOutcome := do
  cleanup nowUnix
  let queueId := push.push.queueId
  let s ← Cmd.read id
  let lease ← leaseOf queueId
  let binding := P.sha256 push.cell.encode
  let push ← Cmd.attempt (fun e => refuse (.relay e))
    (push.authenticate P lease.capabilities.push s.relayServiceId nowUnix)
  .attempt refuse (lease.requireBinding push.queueId push.epoch)
  .demand (push.expiry ≤ lease.expiry) (refuse .unauthorized)
  depositGc2 queueId lease push binding

end Operations

/-! ## Delivery -/

def peek (queueId : QueueId) (nowUnix : ℕ) : Op (Option (Queued Cell)) := do
  cleanup nowUnix
  let s ← Cmd.read id
  pure ((s.queues.queues.find? queueId).bind (fun q => q.messages.head?))

def dequeue (queueId : QueueId) (queue : Queue) (pushNonce : Nonce) : Op AckOutcome :=
  match queue.messages with
  | [] => pure .empty
  | head::rest =>
      if head.pushNonce ≠ pushNonce then pure .mismatch
      else do
        let s ← Cmd.read id
        putQueue queueId { queue with
          bytes := queue.bytes-head.cell.naturalLen, messages := rest }
          (s.queues.totalBytes-head.cell.naturalLen)
        pure .removed

def acknowledge (queueId : QueueId) (pushNonce : Nonce) (nowUnix : ℕ) : Op AckOutcome := do
  cleanup nowUnix
  let s ← Cmd.read id
  match s.queues.queues.find? queueId with
  | none => pure .empty
  | some queue => dequeue queueId queue pushNonce

def validateGc2Subscription (handle : AuthenticatedSubscription) (nowUnix : ℕ) : Op Unit := do
  let sub := handle.subscription
  let lease ← leaseOf sub.queueId
  .attempt refuse (lease.requireBinding sub.queueId sub.epoch)
  .demand (¬ (sub.expiry ≤ nowUnix ∨ sub.expiry > lease.expiry)) (refuse .unauthorized)
  let queue ← queueOf sub.queueId "every lease owns a queue"
  .demand (handle.generation = queue.classes.generation) (refuse .unauthorized)

def peekGc2 (handle : AuthenticatedSubscription) (nowUnix : ℕ) :
    Op (Option (Queued NaturalCell)) := do
  cleanup nowUnix
  validateGc2Subscription handle nowUnix
  let queue ← queueOf handle.subscription.queueId "validated queue"
  pure (queue.classes.ofClass handle.subscription.trafficClass).messages.head?

/-- The source subtracts without a guard here. -/
def subtract (a b : ℕ) : Op ℕ := do
  .demand (b ≤ a) (.panic "attempt to subtract with overflow")
  pure (a-b)

def dequeueGc2 (queueId : QueueId) (queue : Queue) (traffic : TrafficClass) (pushNonce : Nonce) :
    Op AckOutcome :=
  match (queue.classes.ofClass traffic).messages with
  | [] => pure .empty
  | head::rest =>
      if head.pushNonce ≠ pushNonce then pure .mismatch
      else do
        let bytes ← subtract queue.bytes head.cell.encodedLen
        let s ← Cmd.read id
        let total ← subtract s.queues.totalBytes head.cell.encodedLen
        let lane : ClassQueue := ⟨rest,(queue.classes.ofClass traffic).changed+1⟩
        putQueue queueId { queue with bytes := bytes, classes := queue.classes.setClass lane traffic }
          total
        pure .removed

def acknowledgeGc2 (handle : AuthenticatedSubscription) (pushNonce : Nonce) (nowUnix : ℕ) :
    Op AckOutcome := do
  cleanup nowUnix
  validateGc2Subscription handle nowUnix
  let queue ← queueOf handle.subscription.queueId "validated queue"
  dequeueGc2 handle.subscription.queueId queue handle.subscription.trafficClass pushNonce

end Gcoms.LeaseStore
