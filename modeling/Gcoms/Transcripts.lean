import Gcoms.FileRecords
import Gcoms.Layouts
import Gcoms.LeaseCodec
import Gcoms.RelayDirectory

/-!
# Authentication transcripts

Twelve kinds of messages carry an HMAC tag: the lease control messages, the
relay messages of both wire generations and the bearer proof of a file
transfer. The tag is computed over a concatenation that starts with a name of
the kind, closed by a zero byte. Equal transcripts come from messages of one
kind, and every field that the transcript holds is determined by it.

A socket address of IPv6 has a flow label and a scope beside the IP and the
port. `RelayTarget::encode` and `Contact::encode` write the IP and the port
only, so the values of the source appear here with their whole addresses and
`written` is what an encoder sees of them.
-/
namespace Gcoms.Transcripts
open ByteCodec Primitives Fallible RelayCells Layouts
open RelayCodec (byte RelayCodecError PushParts RelayPush RelaySub Gc2.Push Gc2.Subscription
  Gc2.UnverifiedPush maxMsgNaturalLen relayPushFixedLen relayPushTranscript relaySubTranscript)
open LeaseCodec (AdmissionGrant LeaseCreate Short LeaseRotate DynamicGrantRequest)
open RelayDirectory (SocketAddr)

/-! ## Values with whole addresses -/

def written (a : SocketAddr) : RelayCodec.SocketAddr := ⟨a.ip,a.port⟩

structure RelayTarget where
  address : SocketAddr
  relayServiceId : Block 32
  deriving DecidableEq

def RelayTarget.written (t : RelayTarget) : RelayCodec.RelayTarget :=
  ⟨Transcripts.written t.address,t.relayServiceId⟩

structure Forward where
  trafficClass : TrafficClass
  target : RelayTarget
  expiry : ℕ
  nonce : Block 16
  push : Option Gc2.UnverifiedPush

def Forward.written (f : Forward) : RelayCodec.Gc2.Forward :=
  ⟨f.trafficClass,f.target.written,f.expiry,f.nonce,f.push⟩

structure Contact where
  address : SocketAddr
  relayServiceId : Block 32
  queueId : Block 32
  epoch : ℕ
  pushCap : Block 32
  leaseExpiry : ℕ
  deriving DecidableEq

def Contact.written (c : Contact) : FileRecords.Contact :=
  ⟨Transcripts.written c.address,c.relayServiceId,c.queueId,c.epoch,c.pushCap,c.leaseExpiry⟩

structure FileContact where
  profileVersion : ℕ
  transferId : Block 16
  recipientContact : Contact
  fileCap : Block 32
  contactExpiry : ℕ
  maxFileSize : ℕ
  maxChunkSize : ℕ
  maxInflightBytes : ℕ
  deriving DecidableEq

def FileContact.written (c : FileContact) : FileRecords.FileContact :=
  ⟨c.profileVersion,c.transferId,c.recipientContact.written,c.fileCap,c.contactExpiry,c.maxFileSize,
    c.maxChunkSize,c.maxInflightBytes⟩

structure FileInit where
  profileVersion : ℕ
  transferId : Block 16
  fileSize : ℕ
  chunkSize : ℕ
  fileSha256 : Block 32
  ackRoute : Contact
  initNonce : Block 16
  bearerProof : Block 32
  deriving DecidableEq

def FileInit.written (v : FileInit) : FileRecords.FileInit :=
  ⟨v.profileVersion,v.transferId,v.fileSize,v.chunkSize,v.fileSha256,v.ackRoute.written,v.initNonce,
    v.bearerProof⟩

/-! ## Encoders -/

def naturalLength (cell : Cell) (maxLen : ℕ) : Except RelayCodecError ℕ := do
  require (cell.version = protocolVersion ∧ cell.flags ≤ 3 ∧ cell.cellType ≠ none) .nonCanonicalCell
  require (headerLen+cell.payload.length ≤ maxLen ∧ cell.payload.length < 2^16) .cellTooLarge
  pure (headerLen+cell.payload.length)

def encodeNatural (cell : Cell) (maxLen : ℕ) : Except RelayCodecError Bytes := do
  let _ ← naturalLength cell maxLen
  pure (byte (cell.version*16%256 ||| cell.rawType)++(byte cell.flags++(bigEndian 2 cell.roundCtr++
    (bigEndian 2 cell.payload.length++cell.payload))))

def validateMessage (cell : Cell) : Except RelayCodecError Unit := do
  require (cell.cellType = some .msg) .innerNotMsg
  let _ ← naturalLength cell maxMsgNaturalLen
  pure ()

def encodeMsgNatural (cell : Cell) : Except RelayCodecError Bytes := do
  validateMessage cell
  encodeNatural cell maxMsgNaturalLen

/-- The nested message of a deposit; a cover has none. -/
def msgNatural : Option Cell → Except RelayCodecError Bytes
  | some msg => encodeMsgNatural msg
  | none => pure []

/-- `RelayPush::encode_into_cell` up to the tag. -/
def pushTranscript (service : Block 32) (v : RelayPush) : Except RelayCodecError Bytes := do
  let natural ← msgNatural v.msg
  require (natural.length ≤ maxMsgNaturalLen) .cellTooLarge
  require (natural.length < 2^16) .cellTooLarge
  require (relayPushFixedLen+natural.length ≤ maxPayload) .cellTooLarge
  pure (relayPushTranscript service
    ⟨v.queueId,v.epoch,v.pushNonce,v.pushExpiry,natural.length,natural,[]⟩)

/-- `seal` up to the tag. -/
def sealTranscript (kind : CellType) (service : Block 32) (payload : Bytes) :
    Except RelayCodecError Bytes := do
  require (payload.length ≤ maxCell-headerLen-RelayCodec.Gc2.tagLen) .cellTooLarge
  RelayCodec.Gc2.transcript kind service payload

def nestedMsg : Option NaturalCell → Except RelayCodecError Bytes
  | some msg => do
      require (msg.kind = .msg) .innerNotMsg
      pure msg.encode
  | none => pure []

def pushPayload (v : Gc2.Push) (msg : Bytes) : Bytes :=
  [v.trafficClass.byte]++(v.queueId.toList++(bigEndian 8 v.epoch++(v.nonce.toList++
    (bigEndian 8 v.expiry++(bigEndian 2 msg.length++msg)))))

/-- `Push::encode` up to the tag. -/
def pushTranscript2 (service : Block 32) (v : Gc2.Push) : Except RelayCodecError Bytes := do
  let msg ← nestedMsg v.msg
  sealTranscript .relayPush service (pushPayload v msg)

def subscriptionPayload (v : Gc2.Subscription) : Bytes :=
  [v.trafficClass.byte]++(v.queueId.toList++(bigEndian 8 v.epoch++(bigEndian 8 v.expiry++
    v.nonce.toList)))

def nestedPush (traffic : TrafficClass) : Option Gc2.UnverifiedPush → Except RelayCodecError Bytes
  | some push => do
      require (push.push.trafficClass = traffic) .nonCanonicalCell
      pure push.cell.encode
  | none => pure []

def forwardPayload (v : Forward) (push : Bytes) : Bytes :=
  [v.trafficClass.byte]++(v.target.written.encode++(bigEndian 8 v.expiry++(v.nonce.toList++
    (bigEndian 2 push.length++push))))

/-- `Forward::encode` up to the tag. -/
def forwardTranscript (service : Block 32) (policy : RelayCodec.FrwdTargetPolicy) (v : Forward) :
    Except RelayCodecError Bytes := do
  RelayCodec.validateFrwdTarget v.target.written policy
  let push ← nestedPush v.trafficClass v.push
  sealTranscript .frwd service (forwardPayload v push)

/-- `FileInit::compute_bearer_proof` up to the tag. -/
def fileInitTranscript (contact : FileContact) (v : FileInit) :
    Except FileRecords.FileCodecError Bytes := do
  require (v.transferId = contact.transferId) .transferMismatch
  v.written.proofTranscript contact.written

/-! ## Messages -/

inductive Kind where
  | admissionGrant | leaseCreate | leaseRenew | leaseRotate | leaseRevoke | grantRequest
  | relayPush | relaySub | push | subscription | forward | fileInit
  deriving DecidableEq

/-- The name that the transcripts of a kind start with. -/
def Kind.name : Kind → Bytes
  | .admissionGrant => ascii "GC1/ADMISSION-GRANT"
  | .leaseCreate => ascii "GC1/LEASE-CREATE"
  | .leaseRenew => ascii "GC1/LEASE-RENEW"
  | .leaseRotate => ascii "GC1/LEASE-ROTATE"
  | .leaseRevoke => ascii "GC1/LEASE-REVOKE"
  | .grantRequest => ascii "GC1/CHANNEL-GRANT-REQUEST"
  | .relayPush => ascii "GC1/RELAY-PUSH"
  | .relaySub => ascii "GC1/RELAY-SUB"
  | .push => ascii "GC2/RELAY-PUSH"
  | .subscription => ascii "GC2/RELAY-SUB"
  | .forward => ascii "GC2/FRWD"
  | .fileInit => ascii "GC1/FILE-INIT"

/-- A message with what it is authenticated for: the relay service, the policy of the
sender for a forwarding target, or the contact of a file transfer. -/
inductive Message where
  | admissionGrant (v : AdmissionGrant)
  | leaseCreate (service : Block 32) (v : LeaseCreate)
  | leaseRenew (service : Block 32) (v : Short)
  | leaseRotate (service : Block 32) (v : LeaseRotate)
  | leaseRevoke (service : Block 32) (v : Short)
  | grantRequest (service : Block 32) (v : DynamicGrantRequest)
  | relayPush (service : Block 32) (v : RelayPush)
  | relaySub (service : Block 32) (v : RelaySub)
  | push (service : Block 32) (v : Gc2.Push)
  | subscription (service : Block 32) (v : Gc2.Subscription)
  | forward (service : Block 32) (policy : RelayCodec.FrwdTargetPolicy) (v : Forward)
  | fileInit (contact : FileContact) (v : FileInit)

namespace Message

def kind : Message → Kind
  | .admissionGrant .. => .admissionGrant
  | .leaseCreate .. => .leaseCreate
  | .leaseRenew .. => .leaseRenew
  | .leaseRotate .. => .leaseRotate
  | .leaseRevoke .. => .leaseRevoke
  | .grantRequest .. => .grantRequest
  | .relayPush .. => .relayPush
  | .relaySub .. => .relaySub
  | .push .. => .push
  | .subscription .. => .subscription
  | .forward .. => .forward
  | .fileInit .. => .fileInit

/-- The bytes fed to the HMAC, where the encoder gets that far. -/
def transcript : Message → Option Bytes
  | .admissionGrant v => some (AdmissionGrant.message v.body)
  | .leaseCreate service v => some (v.message service)
  | .leaseRenew service v => some (v.message LeaseCodec.renewDomain LeaseCodec.opRenew service)
  | .leaseRotate service v => some (v.message service)
  | .leaseRevoke service v => some (v.message LeaseCodec.revokeDomain LeaseCodec.opRevoke service)
  | .grantRequest service v => some (DynamicGrantRequest.message service v.body)
  | .relayPush service v => (pushTranscript service v).toOption
  | .relaySub service v => some (relaySubTranscript service v)
  | .push service v => (pushTranscript2 service v).toOption
  | .subscription service v => (sealTranscript .relaySub service (subscriptionPayload v)).toOption
  | .forward service policy v => (forwardTranscript service policy v).toOption
  | .fileInit contact v => (fileInitTranscript contact v).toOption

end Message

def contactWords (c : Contact) : List (ℕ × ℕ) := [(c.epoch,64),(c.leaseExpiry,64)]

/-- The machine words of a message, each with its width in bits. -/
def Message.words : Message → List (ℕ × ℕ)
  | .admissionGrant v => [(v.epoch,64),(v.notBefore,64),(v.expiry,64),(v.maxQueueCells,16),
      (v.maxQueueBytes,64)]
  | .leaseCreate _ v => [(v.epoch,64),(v.leaseExpiry,64),(v.queueCells,16),(v.queueBytes,64)]
  | .leaseRenew _ v => [(v.epoch,64),(v.expiry,64)]
  | .leaseRotate _ v => [(v.oldEpoch,64),(v.newEpoch,64),(v.leaseExpiry,64)]
  | .leaseRevoke _ v => [(v.epoch,64),(v.expiry,64)]
  | .grantRequest _ v => [(v.authorityEpoch,64),(v.epoch,64),(v.limits.maxQueueCells,16),
      (v.limits.maxQueueBytes,64),(v.expiry,64)]
  | .relayPush _ v => [(v.epoch,64),(v.pushExpiry,64)]++
      (v.msg.toList.flatMap (fun c => [(c.version,8),(c.rawType,8),(c.flags,8),(c.roundCtr,16)]))
  | .relaySub _ v => [(v.epoch,64),(v.subscriptionExpiry,64)]
  | .push _ v => [(v.epoch,64),(v.expiry,64)]
  | .subscription _ v => [(v.epoch,64),(v.expiry,64)]
  | .forward _ _ v => [(v.expiry,64)]
  | .fileInit c v => [(c.profileVersion,8),(c.contactExpiry,64),(c.maxFileSize,64),
      (c.maxChunkSize,64),(c.maxInflightBytes,64),(v.profileVersion,8),(v.fileSize,64),
      (v.chunkSize,64)]++contactWords c.recipientContact++contactWords v.ackRoute

/-- Every word fits its machine type. -/
def Message.Ranged (m : Message) : Prop := ∀ w ∈ m.words, w.1 < 2^w.2

/-! ## What a transcript determines -/

/-- The terms of a contact that a bearer proof is made under. The capability is the key and
the verifier compares the contact's version with the one of the message. -/
structure Terms where
  transferId : Block 16
  recipientContact : FileRecords.Contact
  contactExpiry : ℕ
  maxFileSize : ℕ
  maxChunkSize : ℕ
  maxInflightBytes : ℕ
  deriving DecidableEq

def FileContact.terms (c : FileContact) : Terms :=
  ⟨c.transferId,c.recipientContact.written,c.contactExpiry,c.maxFileSize,c.maxChunkSize,
    c.maxInflightBytes⟩

/-- One kind, one binding and equal fields, where of an address the written part counts and
of `FileInit` everything but the proof. -/
def Agree : Message → Message → Prop
  | .admissionGrant v,.admissionGrant v' => v = v'
  | .leaseCreate s v,.leaseCreate s' v' => s = s' ∧ v = v'
  | .leaseRenew s v,.leaseRenew s' v' => s = s' ∧ v = v'
  | .leaseRotate s v,.leaseRotate s' v' => s = s' ∧ v = v'
  | .leaseRevoke s v,.leaseRevoke s' v' => s = s' ∧ v = v'
  | .grantRequest s v,.grantRequest s' v' => s = s' ∧ v = v'
  | .relayPush s v,.relayPush s' v' => s = s' ∧ v = v'
  | .relaySub s v,.relaySub s' v' => s = s' ∧ v = v'
  | .push s v,.push s' v' => s = s' ∧ v = v'
  | .subscription s v,.subscription s' v' => s = s' ∧ v = v'
  | .forward s _ v,.forward s' _ v' => s = s' ∧ v.written = v'.written
  | .fileInit c v,.fileInit c' v' => c.terms = c'.terms ∧
      {v.written with bearerProof := v'.bearerProof} = v'.written
  | _,_ => False

/-! ### Names -/

theorem name_injective {a b : Kind} (h : a.name = b.name) : a = b := by
  cases a <;> cases b <;> first | rfl | exact absurd h (by decide)

theorem zero_notMem_name (k : Kind) : (0 : Byte) ∉ k.name := by
  cases k <;> decide

theorem toOption_eq_some {ε α : Type} {x : Except ε α} {a : α} :
    x.toOption = some a ↔ x = .ok a := by
  cases x with
  | error e => simp [Except.toOption]
  | ok b => simp [Except.toOption]

theorem name_closed {d name : Bytes} (h : d = name++[0]) (rest : Bytes) :
    d++rest = name++0::rest := by
  rw [h,List.append_assoc]
  rfl

theorem transcript_name {kind : CellType} {service : Block 32} {payload t d : Bytes}
    (hd : RelayCodec.Gc2.domain kind = .ok (d++[0]))
    (h : sealTranscript kind service payload = .ok t) : ∃ rest, t = d++0::rest := by
  simp only [sealTranscript,RelayCodec.Gc2.transcript,sequence_eq_ok,done_eq_ok,hd,
    Except.ok.injEq] at h
  obtain ⟨_,_,_,rfl,rfl⟩ := h
  exact ⟨_,name_closed rfl _⟩

theorem transcript_starts {m : Message} {t : Bytes} (h : m.transcript = some t) :
    ∃ rest, t = m.kind.name++0::rest := by
  cases m with
  | admissionGrant v =>
      rw [← Option.some.inj h,AdmissionGrant.message]
      exact ⟨_,name_closed (by simp only [Message.kind]; decide) _⟩
  | leaseCreate s v =>
      rw [← Option.some.inj h,LeaseCreate.message]
      exact ⟨_,name_closed (by simp only [Message.kind]; decide) _⟩
  | leaseRenew s v =>
      rw [← Option.some.inj h,Short.message]
      exact ⟨_,name_closed (by simp only [Message.kind]; decide) _⟩
  | leaseRotate s v =>
      rw [← Option.some.inj h,LeaseRotate.message]
      exact ⟨_,name_closed (by simp only [Message.kind]; decide) _⟩
  | leaseRevoke s v =>
      rw [← Option.some.inj h,Short.message]
      exact ⟨_,name_closed (by simp only [Message.kind]; decide) _⟩
  | grantRequest s v =>
      rw [← Option.some.inj h,DynamicGrantRequest.message]
      exact ⟨_,name_closed (by simp only [Message.kind]; decide) _⟩
  | relayPush s v =>
      simp only [Message.transcript,toOption_eq_some,pushTranscript,sequence_eq_ok,done_eq_ok] at h
      obtain ⟨natural,-,-,-,-,-,-,-,rfl⟩ := h
      simp only [relayPushTranscript,List.append_assoc]
      exact ⟨_,name_closed (by simp only [Message.kind]; decide) _⟩
  | relaySub s v =>
      rw [← Option.some.inj h]
      simp only [relaySubTranscript,List.append_assoc]
      exact ⟨_,name_closed (by simp only [Message.kind]; decide) _⟩
  | push s v =>
      simp only [Message.transcript,toOption_eq_some,pushTranscript2,sequence_eq_ok] at h
      obtain ⟨_,-,h⟩ := h
      exact transcript_name (by simp only [Message.kind]; decide) h
  | subscription s v =>
      simp only [Message.transcript,toOption_eq_some] at h
      exact transcript_name (by simp only [Message.kind]; decide) h
  | forward s policy v =>
      simp only [Message.transcript,toOption_eq_some,forwardTranscript,sequence_eq_ok] at h
      obtain ⟨_,-,_,-,h⟩ := h
      exact transcript_name (by simp only [Message.kind]; decide) h
  | fileInit c v =>
      simp only [Message.transcript,toOption_eq_some,fileInitTranscript,
        FileRecords.FileInit.proofTranscript,sequence_eq_ok,done_eq_ok] at h
      obtain ⟨_,-,_,-,_,-,rfl⟩ := h
      simp only [List.append_assoc]
      exact ⟨_,rfl⟩

theorem kind_eq {m₁ m₂ : Message} {t : Bytes} (h₁ : m₁.transcript = some t)
    (h₂ : m₂.transcript = some t) : m₁.kind = m₂.kind := by
  obtain ⟨r₁,hr₁⟩ := transcript_starts h₁
  obtain ⟨r₂,hr₂⟩ := transcript_starts h₂
  have h := hr₁.symm.trans hr₂
  rw [name_append_inj (zero_notMem_name _) (zero_notMem_name _)] at h
  exact name_injective h.1

/-! ### Fields -/

theorem byte_append_inj {v w : ℕ} {x y : Bytes} (hv : v < 2^8) (hw : w < 2^8) :
    byte v++x = byte w++y ↔ v = w ∧ x = y := by
  have hv' : v%256 = v := Nat.mod_eq_of_lt hv
  have hw' : w%256 = w := Nat.mod_eq_of_lt hw
  simp only [byte,List.cons_append,List.nil_append,List.cons.injEq,Fin.ext_iff,Fin.val_ofNat,hv',hw']

theorem class_append_inj {a b : TrafficClass} {x y : Bytes} :
    [a.byte]++x = [b.byte]++y ↔ a = b ∧ x = y := by
  cases a <;> cases b <;> simp [TrafficClass.byte]

theorem admissionGrant_inj {v w : AdmissionGrant} (hv : (Message.admissionGrant v).Ranged)
    (hw : (Message.admissionGrant w).Ranged)
    (h : AdmissionGrant.message v.body = AdmissionGrant.message w.body) : v = w := by
  simp only [Message.Ranged,Message.words,List.forall_mem_cons] at hv hw
  obtain ⟨_,_,_,_,_,-⟩ := hv
  obtain ⟨_,_,_,_,_,-⟩ := hw
  simp (disch := assumption) only [AdmissionGrant.message,AdmissionGrant.body,List.append_assoc,
    List.append_cancel_left_eq,block_append_inj,u64_append_inj,u16_append_inj] at h
  cases v
  cases w
  simp_all

theorem leaseCreate_inj {s r : Block 32} {v w : LeaseCreate}
    (hv : (Message.leaseCreate s v).Ranged) (hw : (Message.leaseCreate r w).Ranged)
    (h : v.message s = w.message r) : s = r ∧ v = w := by
  simp only [Message.Ranged,Message.words,List.forall_mem_cons] at hv hw
  obtain ⟨_,_,_,_,-⟩ := hv
  obtain ⟨_,_,_,_,-⟩ := hw
  simp (disch := assumption) only [LeaseCreate.message,LeaseCodec.Capabilities.encode,
    List.append_assoc,List.append_cancel_left_eq,block_append_inj,block_inj,u64_append_inj,
    u16_append_inj] at h
  obtain ⟨_,_,_,_,_,⟨⟩,⟨⟩⟩ := v
  obtain ⟨_,_,_,_,_,⟨⟩,⟨⟩⟩ := w
  simp_all

theorem short_inj {domain : Bytes} {operation : ℕ} {s r : Block 32} {v w : Short}
    (hv : (Message.leaseRenew s v).Ranged) (hw : (Message.leaseRenew r w).Ranged)
    (h : v.message domain operation s = w.message domain operation r) : s = r ∧ v = w := by
  simp only [Message.Ranged,Message.words,List.forall_mem_cons] at hv hw
  obtain ⟨_,_,-⟩ := hv
  obtain ⟨_,_,-⟩ := hw
  simp (disch := assumption) only [Short.message,List.append_cancel_left_eq,block_append_inj,
    u64_append_inj] at h
  cases v
  cases w
  simp_all

theorem leaseRotate_inj {s r : Block 32} {v w : LeaseRotate}
    (hv : (Message.leaseRotate s v).Ranged) (hw : (Message.leaseRotate r w).Ranged)
    (h : v.message s = w.message r) : s = r ∧ v = w := by
  simp only [Message.Ranged,Message.words,List.forall_mem_cons] at hv hw
  obtain ⟨_,_,_,-⟩ := hv
  obtain ⟨_,_,_,-⟩ := hw
  simp (disch := assumption) only [LeaseRotate.message,LeaseCodec.Capabilities.encode,
    List.append_assoc,List.append_cancel_left_eq,block_append_inj,u64_append_inj] at h
  obtain ⟨_,_,_,_,⟨⟩,_⟩ := v
  obtain ⟨_,_,_,_,⟨⟩,_⟩ := w
  simp_all

theorem grantRequest_inj {s r : Block 32} {v w : DynamicGrantRequest}
    (hv : (Message.grantRequest s v).Ranged) (hw : (Message.grantRequest r w).Ranged)
    (h : DynamicGrantRequest.message s v.body = DynamicGrantRequest.message r w.body) :
    s = r ∧ v = w := by
  simp only [Message.Ranged,Message.words,List.forall_mem_cons] at hv hw
  obtain ⟨_,_,_,_,_,-⟩ := hv
  obtain ⟨_,_,_,_,_,-⟩ := hw
  simp (disch := assumption) only [DynamicGrantRequest.message,DynamicGrantRequest.body,
    List.append_cancel_left_eq,block_append_inj,u64_append_inj,u64_inj,u16_append_inj] at h
  obtain ⟨_,_,_,_,⟨⟩,_,_⟩ := v
  obtain ⟨_,_,_,_,⟨⟩,_,_⟩ := w
  simp_all

theorem relaySub_inj {s r : Block 32} {v w : RelaySub} (hv : (Message.relaySub s v).Ranged)
    (hw : (Message.relaySub r w).Ranged) (h : relaySubTranscript s v = relaySubTranscript r w) :
    s = r ∧ v = w := by
  simp only [Message.Ranged,Message.words,List.forall_mem_cons] at hv hw
  obtain ⟨_,_,-⟩ := hv
  obtain ⟨_,_,-⟩ := hw
  simp (disch := assumption) only [relaySubTranscript,List.append_assoc,List.append_cancel_left_eq,
    block_append_inj,u64_append_inj] at h
  cases v
  cases w
  simp_all

/-! ### Nested cells -/

theorem fromRaw_raw (k : CellType) : CellType.fromRaw k.raw = some k := by
  cases k <;> rfl

theorem raw_injective {a b : CellType} (h : a.raw = b.raw) : a = b := by
  have ha := fromRaw_raw a
  rw [h,fromRaw_raw b] at ha
  exact (Option.some.inj ha).symm

theorem raw_lt (k : CellType) : k.raw < 10 := by
  cases k <;> decide

theorem rawType_of_msg {c : Cell} (h : c.cellType = some .msg) : c.rawType = 2 := by
  unfold Cell.cellType CellType.fromRaw at h
  split at h <;> simp_all

theorem maxFlags_le (k : CellType) : NaturalCell.maxFlags k ≤ 3 := by
  cases k <;> decide

theorem naturalCell_encode_inj {c d : NaturalCell} (h : c.encode = d.encode) : c = d := by
  have hc := c.flags_le.trans (maxFlags_le _)
  have hd := d.flags_le.trans (maxFlags_le _)
  have hkc := raw_lt c.kind
  have hkd := raw_lt d.kind
  simp only [NaturalCell.encode,List.cons_append,List.nil_append,List.cons.injEq,true_and,
    counted_inj,Fin.ext_iff,Fin.val_ofNat,version2] at h
  obtain ⟨hkind,hflags,hpayload⟩ := h
  have hkind := raw_injective (by omega : c.kind.raw = d.kind.raw)
  have hflags : c.flags = d.flags := by omega
  cases c
  cases d
  simp_all

theorem encodeMsgNatural_inj {c d : Cell} {bs : Bytes} (hc : c.roundCtr < 2^16)
    (hd : d.roundCtr < 2^16) (h₁ : encodeMsgNatural c = .ok bs) (h₂ : encodeMsgNatural d = .ok bs) :
    c = d := by
  simp only [encodeMsgNatural,validateMessage,encodeNatural,naturalLength,sequence_eq_ok,
    require_eq_ok,done_eq_ok] at h₁ h₂
  obtain ⟨_,⟨_,htc,_⟩,_,⟨_,⟨hvc,hfc,_⟩,_⟩,rfl⟩ := h₁
  obtain ⟨_,⟨_,htd,_⟩,_,⟨_,⟨hvd,hfd,_⟩,_⟩,h⟩ := h₂
  have hfc' : c.flags < 2^8 := by omega
  have hfd' : d.flags < 2^8 := by omega
  have hrc := rawType_of_msg htc
  have hrd := rawType_of_msg htd
  simp (disch := assumption) only [hvc,hvd,hrc,hrd,List.append_cancel_left_eq,byte_append_inj,
    u16_append_inj,counted_inj] at h
  cases c
  cases d
  simp_all

theorem encodeMsgNatural_ne_nil {c : Cell} : encodeMsgNatural c ≠ .ok [] := by
  intro h
  simp only [encodeMsgNatural,encodeNatural,sequence_eq_ok,done_eq_ok] at h
  obtain ⟨_,_,_,_,h⟩ := h
  simp [byte] at h

/-- A part that may be missing: nothing is written for none and never for some. -/
theorem optional_inj {α ε : Type} {f : α → Except ε Bytes} {g : Option α → Except ε Bytes}
    (hnone : g none = .ok []) (hsome : ∀ a, g (some a) = f a) (hne : ∀ a, f a ≠ .ok [])
    {a b : Option α} {bs : Bytes}
    (hinj : ∀ x ∈ a, ∀ y ∈ b, f x = .ok bs → f y = .ok bs → x = y) (h₁ : g a = .ok bs)
    (h₂ : g b = .ok bs) : a = b := by
  cases a with
  | none =>
      obtain rfl := Except.ok.inj (hnone.symm.trans h₁)
      cases b with
      | none => rfl
      | some y => exact absurd ((hsome y).symm.trans h₂) (hne y)
  | some x =>
      cases b with
      | none =>
          obtain rfl := Except.ok.inj (hnone.symm.trans h₂)
          exact absurd ((hsome x).symm.trans h₁) (hne x)
      | some y =>
          rw [hsome] at h₁ h₂
          rw [hinj x rfl y rfl h₁ h₂]

theorem relayPush_inj {s r : Block 32} {v w : RelayPush} {t : Bytes}
    (hv : (Message.relayPush s v).Ranged) (hw : (Message.relayPush r w).Ranged)
    (h₁ : pushTranscript s v = .ok t) (h₂ : pushTranscript r w = .ok t) : s = r ∧ v = w := by
  have hcv : ∀ c ∈ v.msg, c.roundCtr < 2^16 := fun c hc => hv (c.roundCtr,16)
    (by simp [Message.words,Option.mem_def.mp hc])
  have hcw : ∀ c ∈ w.msg, c.roundCtr < 2^16 := fun c hc => hw (c.roundCtr,16)
    (by simp [Message.words,Option.mem_def.mp hc])
  simp only [Message.Ranged,Message.words,List.cons_append,List.forall_mem_cons] at hv hw
  obtain ⟨_,_,-⟩ := hv
  obtain ⟨_,_,-⟩ := hw
  simp only [pushTranscript,sequence_eq_ok,require_eq_ok,done_eq_ok] at h₁ h₂
  obtain ⟨m,hm,-,-,-,-,-,-,rfl⟩ := h₁
  obtain ⟨n,hn,-,-,-,-,-,-,h⟩ := h₂
  simp (disch := assumption) only [relayPushTranscript,List.append_assoc,List.append_cancel_left_eq,
    block_append_inj,u64_append_inj,counted_inj] at h
  obtain ⟨rfl,hqueue,hepoch,hnonce,hexpiry,rfl⟩ := h
  have hmsg : v.msg = w.msg := optional_inj rfl (fun _ => rfl) (fun _ => encodeMsgNatural_ne_nil)
    (fun c hc d hd => encodeMsgNatural_inj (hcv c hc) (hcw d hd)) hm hn
  cases v
  cases w
  simp_all

/-! ### GC/2 -/

theorem sealTranscript_inj {kind : CellType} {s r : Block 32} {x y t : Bytes}
    (hx : sealTranscript kind s x = .ok t) (hy : sealTranscript kind r y = .ok t) :
    s = r ∧ x = y := by
  simp only [sealTranscript,RelayCodec.Gc2.transcript,sequence_eq_ok,done_eq_ok] at hx hy
  obtain ⟨_,_,d,hd,rfl⟩ := hx
  obtain ⟨_,_,e,he,h⟩ := hy
  obtain rfl := Except.ok.inj (hd.symm.trans he)
  simp only [List.append_cancel_left_eq,block_append_inj,counted_inj] at h
  exact ⟨h.1.symm,h.2.symm⟩

/-- A nested cell behind a check, as both kinds of payloads write it. -/
theorem checkedCell_inj {ε : Type} {p q : Prop} [Decidable p] [Decidable q] {e : ε}
    {c d : NaturalCell} {bs : Bytes} (h₁ : (do require p e; pure c.encode) = .ok bs)
    (h₂ : (do require q e; pure d.encode) = .ok bs) : c = d := by
  simp only [sequence_eq_ok,require_eq_ok,done_eq_ok] at h₁ h₂
  obtain ⟨_,_,h₁⟩ := h₁
  obtain ⟨_,_,h₂⟩ := h₂
  exact naturalCell_encode_inj (h₁.trans h₂.symm)

theorem checkedCell_ne_nil {ε : Type} {p : Prop} [Decidable p] {e : ε} (c : NaturalCell) :
    (do require p e; pure c.encode) ≠ .ok [] := by
  simp only [ne_eq,sequence_eq_ok,require_eq_ok,done_eq_ok,not_exists,not_and]
  intro _ _
  simp [NaturalCell.encode]

theorem push_inj {s r : Block 32} {v w : Gc2.Push} {t : Bytes} (hv : (Message.push s v).Ranged)
    (hw : (Message.push r w).Ranged) (h₁ : pushTranscript2 s v = .ok t)
    (h₂ : pushTranscript2 r w = .ok t) : s = r ∧ v = w := by
  simp only [Message.Ranged,Message.words,List.forall_mem_cons] at hv hw
  obtain ⟨_,_,-⟩ := hv
  obtain ⟨_,_,-⟩ := hw
  simp only [pushTranscript2,sequence_eq_ok] at h₁ h₂
  obtain ⟨m,hm,h₁⟩ := h₁
  obtain ⟨n,hn,h₂⟩ := h₂
  obtain ⟨rfl,h⟩ := sealTranscript_inj h₁ h₂
  simp (disch := assumption) only [pushPayload,class_append_inj,block_append_inj,u64_append_inj,
    counted_inj] at h
  obtain ⟨hclass,hqueue,hepoch,hnonce,hexpiry,rfl⟩ := h
  have hmsg : v.msg = w.msg := optional_inj rfl (fun _ => rfl) (fun c => checkedCell_ne_nil c)
    (fun _ _ _ _ => checkedCell_inj) hm hn
  cases v
  cases w
  simp_all

theorem subscription_inj {s r : Block 32} {v w : Gc2.Subscription} {t : Bytes}
    (hv : (Message.subscription s v).Ranged) (hw : (Message.subscription r w).Ranged)
    (h₁ : sealTranscript .relaySub s (subscriptionPayload v) = .ok t)
    (h₂ : sealTranscript .relaySub r (subscriptionPayload w) = .ok t) : s = r ∧ v = w := by
  simp only [Message.Ranged,Message.words,List.forall_mem_cons] at hv hw
  obtain ⟨_,_,-⟩ := hv
  obtain ⟨_,_,-⟩ := hw
  obtain ⟨rfl,h⟩ := sealTranscript_inj h₁ h₂
  simp (disch := assumption) only [subscriptionPayload,class_append_inj,block_append_inj,block_inj,
    u64_append_inj] at h
  cases v
  cases w
  simp_all

/-! ### Addresses -/

def ipBytes : RelayCodec.IpAddr → Bytes
  | .v4 ip => byte 4++(ip.toList++List.replicate 12 0)
  | .v6 ip => byte 6++ip.toList

theorem ipBytes_length (a : RelayCodec.IpAddr) : (ipBytes a).length = 17 := by
  cases a <;> simp [ipBytes,byte]

theorem ipBytes_append_inj {a b : RelayCodec.IpAddr} {x y : Bytes} :
    ipBytes a++x = ipBytes b++y ↔ a = b ∧ x = y := by
  rw [append_inj_iff (by rw [ipBytes_length,ipBytes_length])]
  refine and_congr_left fun _ => ⟨fun h => ?_,congrArg ipBytes⟩
  cases a with
  | v4 p =>
      cases b with
      | v4 q => simpa [ipBytes,block_inj] using h
      | v6 q => simp [ipBytes,byte] at h
  | v6 p =>
      cases b with
      | v4 q => simp [ipBytes,byte] at h
      | v6 q => simpa [ipBytes,block_inj] using h

theorem target_encode_eq (t : RelayCodec.RelayTarget) :
    t.encode = ipBytes t.address.ip++(bigEndian 2 t.address.port++t.relayServiceId.toList) := by
  unfold RelayCodec.RelayTarget.encode
  cases t.address.ip <;> rfl

theorem target_append_inj {t u : RelayTarget} {x y : Bytes} :
    t.written.encode++x = u.written.encode++y ↔ t.written = u.written ∧ x = y := by
  have ht : (t.address.port : ℕ) < 2^16 := t.address.port.isLt
  have hu : (u.address.port : ℕ) < 2^16 := u.address.port.isLt
  simp (disch := assumption) only [target_encode_eq,RelayTarget.written,written,List.append_assoc,
    ipBytes_append_inj,u16_append_inj,block_append_inj,RelayCodec.RelayTarget.mk.injEq,
    RelayCodec.SocketAddr.mk.injEq,and_assoc]

theorem forward_inj {s r : Block 32} {p q : RelayCodec.FrwdTargetPolicy} {v w : Forward} {t : Bytes}
    (hv : (Message.forward s p v).Ranged) (hw : (Message.forward r q w).Ranged)
    (h₁ : forwardTranscript s p v = .ok t) (h₂ : forwardTranscript r q w = .ok t) :
    s = r ∧ v.written = w.written := by
  simp only [Message.Ranged,Message.words,List.forall_mem_cons] at hv hw
  obtain ⟨_,-⟩ := hv
  obtain ⟨_,-⟩ := hw
  simp only [forwardTranscript,sequence_eq_ok] at h₁ h₂
  obtain ⟨_,_,m,hm,h₁⟩ := h₁
  obtain ⟨_,_,n,hn,h₂⟩ := h₂
  obtain ⟨rfl,h⟩ := sealTranscript_inj h₁ h₂
  simp (disch := assumption) only [forwardPayload,class_append_inj,target_append_inj,
    block_append_inj,u64_append_inj,counted_inj] at h
  obtain ⟨hclass,htarget,hexpiry,hnonce,rfl⟩ := h
  rw [hclass] at hm
  have hpush : v.push = w.push := optional_inj rfl (fun _ => rfl)
    (fun p => checkedCell_ne_nil p.cell)
    (fun _ _ _ _ hp hq => Gc2.UnverifiedPush.ext_cell (checkedCell_inj hp hq)) hm hn
  simp [Forward.written,hclass,htarget,hexpiry,hnonce,hpush]

/-! ### File transfers -/

theorem contact_encode_eq {c : FileRecords.Contact} {bs : Bytes} (h : c.encode = .ok bs) :
    bs = byte FileRecords.profileVersionV1++(ipBytes c.address.ip++(bigEndian 2 c.address.port++
      (c.relayServiceId.toList++(c.queueId.toList++(bigEndian 8 c.epoch++(c.pushCap.toList++
        bigEndian 8 c.leaseExpiry)))))) := by
  simp only [FileRecords.Contact.encode,sequence_eq_ok,done_eq_ok] at h
  obtain ⟨_,_,rfl⟩ := h
  simp only [List.append_assoc]
  cases c.address.ip <;> rfl

theorem contact_append_inj {c d : Contact} {bs cs x y : Bytes}
    (hc : ∀ w ∈ contactWords c, w.1 < 2^w.2) (hd : ∀ w ∈ contactWords d, w.1 < 2^w.2)
    (h₁ : c.written.encode = .ok bs) (h₂ : d.written.encode = .ok cs) :
    bs++x = cs++y ↔ c.written = d.written ∧ x = y := by
  have hp : (c.address.port : ℕ) < 2^16 := c.address.port.isLt
  have hq : (d.address.port : ℕ) < 2^16 := d.address.port.isLt
  simp only [contactWords,List.forall_mem_cons] at hc hd
  obtain ⟨_,_,-⟩ := hc
  obtain ⟨_,_,-⟩ := hd
  rw [contact_encode_eq h₁,contact_encode_eq h₂]
  simp (disch := assumption) only [Contact.written,written,List.append_assoc,
    List.append_cancel_left_eq,ipBytes_append_inj,u16_append_inj,u64_append_inj,block_append_inj,
    FileRecords.Contact.mk.injEq,RelayCodec.SocketAddr.mk.injEq,and_assoc]

theorem fileInit_inj {c d : FileContact} {v w : FileInit} {t : Bytes}
    (hv : (Message.fileInit c v).Ranged) (hw : (Message.fileInit d w).Ranged)
    (h₁ : fileInitTranscript c v = .ok t) (h₂ : fileInitTranscript d w = .ok t) :
    c.terms = d.terms ∧ {v.written with bearerProof := w.bearerProof} = w.written := by
  simp only [Message.Ranged,Message.words,List.forall_mem_append,List.forall_mem_cons] at hv hw
  obtain ⟨⟨⟨_,_,_,_,_,_,_,_,-⟩,hrc⟩,hac⟩ := hv
  obtain ⟨⟨⟨_,_,_,_,_,_,_,_,-⟩,hrd⟩,had⟩ := hw
  simp only [fileInitTranscript,FileRecords.FileInit.proofTranscript,sequence_eq_ok,require_eq_ok,
    done_eq_ok] at h₁ h₂
  obtain ⟨_,hid,a,ha,r,hr,rfl⟩ := h₁
  obtain ⟨_,hid',a',ha',r',hr',h⟩ := h₂
  simp (disch := assumption) only [FileRecords.common,FileInit.written,FileContact.written,
    List.append_assoc,List.append_cancel_left_eq,byte_append_inj,block_append_inj,block_inj,
    u64_append_inj,contact_append_inj hrd hrc hr' hr,contact_append_inj had hac ha' ha] at h
  obtain ⟨hversion,htransfer,hrecipient,hexpiry,hmax,hchunk,hflight,hsize,hpiece,hsha,hroute,hnonce⟩ := h
  constructor
  · simp [FileContact.terms,← hid,← hid',htransfer,hrecipient,hexpiry,hmax,hchunk,hflight]
  · simp [FileInit.written,hversion,htransfer,hsize,hpiece,hsha,hroute,hnonce]

/-! ## Agreement -/

theorem agree_of_transcript {m₁ m₂ : Message} {t : Bytes} (hr₁ : m₁.Ranged) (hr₂ : m₂.Ranged)
    (h₁ : m₁.transcript = some t) (h₂ : m₂.transcript = some t) : Agree m₁ m₂ := by
  have hk := kind_eq h₁ h₂
  cases m₁ <;> cases m₂ <;> simp only [Message.kind,reduceCtorEq] at hk
  case admissionGrant.admissionGrant =>
    exact admissionGrant_inj hr₁ hr₂ (Option.some.inj (h₁.trans h₂.symm))
  case leaseCreate.leaseCreate =>
    exact leaseCreate_inj hr₁ hr₂ (Option.some.inj (h₁.trans h₂.symm))
  case leaseRenew.leaseRenew => exact short_inj hr₁ hr₂ (Option.some.inj (h₁.trans h₂.symm))
  case leaseRotate.leaseRotate =>
    exact leaseRotate_inj hr₁ hr₂ (Option.some.inj (h₁.trans h₂.symm))
  case leaseRevoke.leaseRevoke => exact short_inj hr₁ hr₂ (Option.some.inj (h₁.trans h₂.symm))
  case grantRequest.grantRequest =>
    exact grantRequest_inj hr₁ hr₂ (Option.some.inj (h₁.trans h₂.symm))
  case relayPush.relayPush =>
    exact relayPush_inj hr₁ hr₂ (toOption_eq_some.mp h₁) (toOption_eq_some.mp h₂)
  case relaySub.relaySub => exact relaySub_inj hr₁ hr₂ (Option.some.inj (h₁.trans h₂.symm))
  case push.push => exact push_inj hr₁ hr₂ (toOption_eq_some.mp h₁) (toOption_eq_some.mp h₂)
  case subscription.subscription =>
    exact subscription_inj hr₁ hr₂ (toOption_eq_some.mp h₁) (toOption_eq_some.mp h₂)
  case forward.forward =>
    exact forward_inj hr₁ hr₂ (toOption_eq_some.mp h₁) (toOption_eq_some.mp h₂)
  case fileInit.fileInit =>
    exact fileInit_inj hr₁ hr₂ (toOption_eq_some.mp h₁) (toOption_eq_some.mp h₂)

/-- Equal transcripts come from messages that agree, and so do equal tags under one key
where the HMAC does not collide on the two transcripts. -/
theorem transcripts_determine_messages {m₁ m₂ : Message} {t₁ t₂ : Bytes} (hr₁ : m₁.Ranged)
    (hr₂ : m₂.Ranged) (h₁ : m₁.transcript = some t₁) (h₂ : m₂.transcript = some t₂) :
    (t₁ = t₂ → m₁.kind = m₂.kind ∧ Agree m₁ m₂) ∧
      ∀ (P : Suite) (key : Block 32), (P.hmac key t₁ = P.hmac key t₂ → t₁ = t₂) →
        P.hmac key t₁ = P.hmac key t₂ → m₁.kind = m₂.kind ∧ Agree m₁ m₂ := by
  have hagree : t₁ = t₂ → m₁.kind = m₂.kind ∧ Agree m₁ m₂ := by
    rintro rfl
    exact ⟨kind_eq h₁ h₂,agree_of_transcript hr₁ hr₂ h₁ h₂⟩
  exact ⟨hagree,fun P key hcollision htag => hagree (hcollision htag)⟩

/-- A forwarding instruction to an IPv6 target on a scope. -/
def sampleForward (scope : U32) : Forward where
  trafficClass := .bulk
  target := ⟨.v6 (wordBlock 16 (0x2606*2^112+1)) 443 0 scope,wordBlock 32 7⟩
  expiry := 900
  nonce := wordBlock 16 5
  push := none

def samplePolicy : RelayCodec.FrwdTargetPolicy := ⟨false,[]⟩

def sampleForwardMessage (scope : U32) : Message :=
  .forward (wordBlock 32 9) samplePolicy (sampleForward scope)

theorem transcripts_determine_messages_sample :
    ∃ t, (sampleForwardMessage 1).transcript = some t ∧
      Agree (sampleForwardMessage 1) (sampleForwardMessage 2) := by
  have hr : ∀ scope, (sampleForwardMessage scope).Ranged := by
    intro scope
    simp [Message.Ranged,Message.words,sampleForwardMessage,sampleForward]
  obtain ⟨t,ht⟩ : ∃ t, (sampleForwardMessage 1).transcript = some t :=
    Option.isSome_iff_exists.mp (by decide +kernel)
  have ht' : (sampleForwardMessage 2).transcript = some t := ht
  exact ⟨t,ht,((transcripts_determine_messages (hr 1) (hr 2) ht ht').1 rfl).2⟩

/-- Two instructions whose targets differ in the scope have one transcript. -/
theorem scope_not_authenticated :
    (sampleForwardMessage 1).transcript = (sampleForwardMessage 2).transcript ∧
      (sampleForwardMessage 1).transcript.isSome = true ∧
      (sampleForward 1).target ≠ (sampleForward 2).target := by
  refine ⟨rfl,by decide +kernel,?_⟩
  simp [sampleForward]

end Gcoms.Transcripts
