import Gcoms.RelayCells

/-!
# Relay messages

Deposits, subscriptions and forwarding instructions of both wire versions, as
the relay decodes them. A message whose destination capability the relay does
not hold is only parsed; the type of such a value carries the fact that it
parsed. Authentication recomputes an HMAC over a transcript of decoded fields
in GC/1, and over the payload itself in GC/2.
-/
namespace Gcoms.RelayCodec
open ByteCodec Primitives Fallible RelayCells

inductive RelayCodecError where
  | wrongCellType | nonCanonicalCell | malformed | trailingBytes | invalidMac
  | expired (expiresUnix nowUnix : ℕ)
  | innerNotMsg | innerNotRelayPush | cellTooLarge | invalidTarget | nonCanonicalTarget
  deriving DecidableEq, Repr

def relaySubscribe : ℕ := 5
def targetLen : ℕ := 51
def maxMsgNaturalLen : ℕ := 15366
def relayPushFixedLen : ℕ := 99
def relaySubLen : ℕ := 98
def frwdFixedLen : ℕ := 110
def maxRelayPushNaturalLen : ℕ := headerLen+relayPushFixedLen+maxMsgNaturalLen

/-- One byte of a transcript. -/
def byte (n : ℕ) : Bytes := [Fin.ofNat 256 n]

/-! ## Targets -/

inductive IpAddr where
  | v4 (octets : Block 4)
  | v6 (octets : Block 16)
  deriving DecidableEq

structure SocketAddr where
  ip : IpAddr
  port : ℕ
  deriving DecidableEq

structure RelayTarget where
  address : SocketAddr
  relayServiceId : Block 32
  deriving DecidableEq

def RelayTarget.encode (t : RelayTarget) : Bytes :=
  (match t.address.ip with
    | .v4 ip => byte 4++(ip.toList++List.replicate 12 0)
    | .v6 ip => byte 6++ip.toList)++(bigEndian 2 t.address.port++t.relayServiceId.toList)

def RelayTarget.decodeIp (encoded : Bytes) : Except RelayCodecError IpAddr :=
  match wordAt 1 encoded 0 with
  | 4 => do
      require (∀ b ∈ slice encoded 5 17, b = 0) .nonCanonicalTarget
      pure (.v4 (blockAt 4 encoded 1))
  | 6 => pure (.v6 (blockAt 16 encoded 1))
  | _ => .error .nonCanonicalTarget

def RelayTarget.decode (encoded : Bytes) : Except RelayCodecError RelayTarget := do
  require (encoded.length = targetLen) .malformed
  let ip ← RelayTarget.decodeIp encoded
  pure ⟨⟨ip,wordAt 2 encoded 17⟩,blockAt 32 encoded 19⟩

structure PrivateTarget where
  network : IpAddr
  bits : ℕ
  port : Option ℕ
  deriving DecidableEq

/-- The leading `bits` of a `width`-bit address. -/
def networkMask (width bits : ℕ) : ℕ :=
  if bits = 0 then 0 else ((2^width-1) <<< (width-bits)) % 2^width

def PrivateTarget.contains (t : PrivateTarget) (address : IpAddr) : Bool :=
  match t.network,address with
  | .v4 n,.v4 a => readBigEndian n.toList &&& networkMask 32 t.bits =
      readBigEndian a.toList &&& networkMask 32 t.bits
  | .v6 n,.v6 a => readBigEndian n.toList &&& networkMask 128 t.bits =
      readBigEndian a.toList &&& networkMask 128 t.bits
  | _,_ => false

def isOrdinaryGlobal : IpAddr → Bool
  | .v4 ip =>
      let a := wordAt 1 ip.toList 0
      let b := wordAt 1 ip.toList 1
      let c := wordAt 1 ip.toList 2
      !(a == 0 || a == 10 || a == 127 || (a == 100 && 64 ≤ b && b ≤ 127) ||
        (a == 169 && b == 254) || (a == 172 && 16 ≤ b && b ≤ 31) ||
        (a == 192 && b == 0 && c == 0) || (a == 192 && b == 0 && c == 2) ||
        (a == 192 && b == 88 && c == 99) || (a == 192 && b == 168) ||
        (a == 198 && (b == 18 || b == 19)) || (a == 198 && b == 51 && c == 100) ||
        (a == 203 && b == 0 && c == 113) || 224 ≤ a)
  | .v6 ip =>
      let s₀ := wordAt 2 ip.toList 0
      let s₁ := wordAt 2 ip.toList 2
      (s₀ &&& 0xe000) == 0x2000 &&
        !(s₀ == 0x2001 && (s₁ == 0x0002 || s₁ == 0x000d || (0x0010 ≤ s₁ && s₁ ≤ 0x002f) ||
          s₁ == 0x0db8)) &&
        !(s₀ == 0x2002) && !(s₀ == 0x3fff && wordAt 1 ip.toList 2 < 0x10) &&
        !(slice ip.toList 0 12 == List.replicate 10 0++[255,255])

structure FrwdTargetPolicy where
  allowLocalFixture : Bool
  privateTargets : List PrivateTarget
  deriving DecidableEq

def FrwdTargetPolicy.permits (policy : FrwdTargetPolicy) (t : RelayTarget) : Bool :=
  policy.allowLocalFixture || isOrdinaryGlobal t.address.ip ||
    policy.privateTargets.any (fun allowed =>
      allowed.port.all (fun port => port == t.address.port) && allowed.contains t.address.ip)

def validateFrwdTarget (t : RelayTarget) (policy : FrwdTargetPolicy) :
    Except RelayCodecError Unit := do
  require (t.address.port ≠ 0) .invalidTarget
  require (policy.permits t = true) .invalidTarget

/-! ## Natural GC/1 cells -/

def exactLength (actual expected : ℕ) : Except RelayCodecError Unit := do
  require (expected ≤ actual) .malformed
  require (actual ≤ expected) .trailingBytes

def rejectExpired (expiresUnix nowUnix : ℕ) : Except RelayCodecError Unit :=
  require (nowUnix < expiresUnix) (.expired expiresUnix nowUnix)

def requireOuter (c : Cell) (expected : CellType) : Except RelayCodecError Unit := do
  require (c.cellType = some expected) .wrongCellType
  require (c.version = protocolVersion ∧ c.flags = 0) .nonCanonicalCell

def innerError : CellType → RelayCodecError
  | .msg => .innerNotMsg
  | .relayPush => .innerNotRelayPush
  | _ => .wrongCellType

def validateNatural (encoded : Bytes) (expected : CellType) : Except RelayCodecError Unit := do
  require (headerLen ≤ encoded.length) .malformed
  require (wordAt 1 encoded 0%16 = expected.raw) (innerError expected)
  require (wordAt 1 encoded 0/16 = protocolVersion ∧ wordAt 1 encoded 1 ≤ 3) .nonCanonicalCell
  exactLength encoded.length (headerLen+wordAt 2 encoded 4)

def decodeValidatedNatural (encoded : Bytes) : Cell :=
  ⟨wordAt 1 encoded 0/16,wordAt 1 encoded 0%16,wordAt 1 encoded 1,wordAt 2 encoded 2,
    encoded.drop headerLen⟩

def decodeMsgNatural (encoded : Bytes) : Except RelayCodecError Cell := do
  validateNatural encoded .msg
  pure (decodeValidatedNatural encoded)

def decodeRelayPushNatural (encoded : Bytes) : Except RelayCodecError Cell := do
  validateNatural encoded .relayPush
  pure (decodeValidatedNatural encoded)

/-! ## GC/1 deposits -/

structure PushParts where
  queueId : Block 32
  epoch : ℕ
  pushNonce : Block 16
  pushExpiry : ℕ
  msgLen : ℕ
  msgNatural : Bytes
  suppliedTag : Bytes
  deriving DecidableEq

def parsePushPayload (payload : Bytes) : Except RelayCodecError PushParts := do
  require (payload.length ≤ relayPushFixedLen+maxMsgNaturalLen) .cellTooLarge
  require (relayPushFixedLen ≤ payload.length) .malformed
  require (wordAt 1 payload 0 = protocolVersion) .nonCanonicalCell
  let msgLen := wordAt 2 payload 65
  require (msgLen = 0 ∨ headerLen ≤ msgLen) .malformed
  require (msgLen ≤ maxMsgNaturalLen) .cellTooLarge
  exactLength payload.length (relayPushFixedLen+msgLen)
  whenever (msgLen ≠ 0) (validateNatural (slice payload 67 (67+msgLen)) .msg)
  pure ⟨blockAt 32 payload 1,wordAt 8 payload 33,blockAt 16 payload 41,wordAt 8 payload 57,msgLen,
    slice payload 67 (67+msgLen),payload.drop (67+msgLen)⟩

structure RelayPush where
  queueId : Block 32
  epoch : ℕ
  pushNonce : Block 16
  pushExpiry : ℕ
  msg : Option Cell
  deriving DecidableEq

/-- A deposit that parsed, its destination tag unchecked. -/
structure UnauthenticatedRelayPush where
  cell : Cell
  parts : PushParts
  outer : requireOuter cell .relayPush = .ok ()
  parsed : parsePushPayload cell.payload = .ok parts

theorem UnauthenticatedRelayPush.ext_cell {p q : UnauthenticatedRelayPush} (h : p.cell = q.cell) :
    p = q := by
  obtain ⟨c,a,_,hp⟩ := p
  obtain ⟨d,b,_,hq⟩ := q
  obtain rfl : c = d := h
  obtain rfl := Except.ok.inj (hp.symm.trans hq)
  rfl

def UnauthenticatedRelayPush.parse (cell : Cell) :
    Except RelayCodecError UnauthenticatedRelayPush :=
  match ho : requireOuter cell .relayPush with
  | .error e => .error e
  | .ok () =>
      match hp : parsePushPayload cell.payload with
      | .error e => .error e
      | .ok parts => .ok ⟨cell,parts,ho,hp⟩

section Authentication
variable (P : Suite)

def relayPushTranscript (service : Block 32) (p : PushParts) : Bytes :=
  ascii "GC1/RELAY-PUSH\x00"++byte protocolVersion++service.toList++p.queueId.toList++
    bigEndian 8 p.epoch++byte CellType.relayPush.raw++p.pushNonce.toList++
    bigEndian 8 p.pushExpiry++bigEndian 2 p.msgLen++p.msgNatural

def UnauthenticatedRelayPush.authenticate (p : UnauthenticatedRelayPush) (pushCap service : Block 32)
    (nowUnix : ℕ) : Except RelayCodecError RelayPush := do
  require ((P.hmac pushCap (relayPushTranscript service p.parts)).toList = p.parts.suppliedTag)
    .invalidMac
  rejectExpired p.parts.pushExpiry nowUnix
  let msg ← if p.parts.msgLen = 0 then pure none
    else do
      let msg ← decodeMsgNatural p.parts.msgNatural
      pure (some msg)
  pure ⟨p.parts.queueId,p.parts.epoch,p.parts.pushNonce,p.parts.pushExpiry,msg⟩

/-! ## GC/1 subscriptions -/

structure RelaySub where
  queueId : Block 32
  epoch : ℕ
  subscriptionExpiry : ℕ
  nonce : Block 16
  deriving DecidableEq

def relaySubTranscript (service : Block 32) (s : RelaySub) : Bytes :=
  ascii "GC1/RELAY-SUB\x00"++byte protocolVersion++service.toList++s.queueId.toList++
    bigEndian 8 s.epoch++byte relaySubscribe++bigEndian 8 s.subscriptionExpiry++
    s.nonce.toList++bigEndian 2 0

def RelaySub.decodeFromCell (cell : Cell) (subCap service : Block 32) (nowUnix : ℕ) :
    Except RelayCodecError RelaySub := do
  requireOuter cell .relaySub
  exactLength cell.payload.length relaySubLen
  require (wordAt 1 cell.payload 0 = protocolVersion ∧ wordAt 1 cell.payload 1 = relaySubscribe)
    .nonCanonicalCell
  let value : RelaySub := ⟨blockAt 32 cell.payload 2,wordAt 8 cell.payload 34,
    wordAt 8 cell.payload 42,blockAt 16 cell.payload 50⟩
  require ((P.hmac subCap (relaySubTranscript service value)).toList = cell.payload.drop 66)
    .invalidMac
  rejectExpired value.subscriptionExpiry nowUnix
  pure value

/-! ## GC/1 forwarding -/

structure Frwd where
  target : RelayTarget
  frwdExpiry : ℕ
  relayPush : Option UnauthenticatedRelayPush
  nonce : Block 16

/-- A cover binds zero queue and epoch fields. -/
def Frwd.queue (f : Frwd) : Block 32 × ℕ :=
  match f.relayPush with
  | none => (wordBlock 32 0,0)
  | some push => (push.parts.queueId,push.parts.epoch)

/-- The authenticated fields, in the order of `frwd_mac`. -/
def frwdTranscript (service : Block 32) (f : Frwd) (pushNatural : Bytes) (pushLen : ℕ) : Bytes :=
  ascii "GC1/FRWD\x00"++(byte protocolVersion++(service.toList++(f.target.relayServiceId.toList++
    (f.queue.1.toList++(bigEndian 8 f.queue.2++(byte CellType.frwd.raw++(bigEndian 8 f.frwdExpiry++
      (f.nonce.toList++(bigEndian 2 pushLen++pushNatural)))))))))

def Frwd.nested (pushLen : ℕ) (pushNatural : Bytes) :
    Except RelayCodecError (Option UnauthenticatedRelayPush) :=
  if pushLen = 0 then pure none
  else do
    let cell ← decodeRelayPushNatural pushNatural
    let push ← UnauthenticatedRelayPush.parse cell
    pure (some push)

def Frwd.rejectExpiredPush (push : Option UnauthenticatedRelayPush) (nowUnix : ℕ) :
    Except RelayCodecError Unit :=
  match push with
  | none => pure ()
  | some push => rejectExpired push.parts.pushExpiry nowUnix

def Frwd.decodeFromCell (cell : Cell) (hopKey service : Block 32) (nowUnix : ℕ)
    (policy : FrwdTargetPolicy) : Except RelayCodecError Frwd := do
  requireOuter cell .frwd
  require (cell.payload.length ≤ maxPayload) .cellTooLarge
  require (frwdFixedLen ≤ cell.payload.length) .malformed
  require (wordAt 1 cell.payload 0 = protocolVersion) .nonCanonicalCell
  let target ← RelayTarget.decode (slice cell.payload 1 52)
  let pushLen := wordAt 2 cell.payload 60
  require (pushLen ≤ maxRelayPushNaturalLen) .cellTooLarge
  exactLength cell.payload.length (frwdFixedLen+pushLen)
  let pushNatural := slice cell.payload 62 (62+pushLen)
  let relayPush ← Frwd.nested pushLen pushNatural
  let value : Frwd :=
    ⟨target,wordAt 8 cell.payload 52,relayPush,blockAt 16 cell.payload (62+pushLen)⟩
  require ((P.hmac hopKey (frwdTranscript service value pushNatural pushLen)).toList =
    cell.payload.drop (62+pushLen+16)) .invalidMac
  rejectExpired value.frwdExpiry nowUnix
  Frwd.rejectExpiredPush value.relayPush nowUnix
  validateFrwdTarget value.target policy
  pure value

end Authentication

/-! ## GC/2 -/

namespace Gc2

def tagLen : ℕ := 32
def pushFixed : ℕ := 67
def subFixed : ℕ := 65
def frwdFixed : ℕ := 78

def domain : CellType → Except RelayCodecError Bytes
  | .relayPush => .ok (ascii "GC2/RELAY-PUSH\x00")
  | .relaySub => .ok (ascii "GC2/RELAY-SUB\x00")
  | .frwd => .ok (ascii "GC2/FRWD\x00")
  | _ => .error .wrongCellType

/-- What the tag of a cell of this kind is computed over. -/
def transcript (kind : CellType) (service : Block 32) (payload : Bytes) :
    Except RelayCodecError Bytes := do
  let d ← domain kind
  pure (d++(byte version2++(byte kind.raw++(service.toList++
    (bigEndian 2 payload.length++payload)))))

def body (cell : NaturalCell) (kind : CellType) : Except RelayCodecError Bytes := do
  require (cell.kind = kind ∧ cell.flags = 0) .wrongCellType
  require (tagLen ≤ cell.payload.length) .malformed
  pure (cell.payload.take (cell.payload.length-tagLen))

def trafficClass (b : Bytes) : Except RelayCodecError TrafficClass :=
  found .malformed (TrafficClass.fromByte (Fin.ofNat 256 (wordAt 1 b 0)))

structure Push where
  trafficClass : TrafficClass
  queueId : Block 32
  epoch : ℕ
  nonce : Block 16
  expiry : ℕ
  msg : Option NaturalCell
  deriving DecidableEq

def Push.nested (len : ℕ) (bytes : Bytes) : Except RelayCodecError (Option NaturalCell) :=
  if len = 0 then pure none
  else do
    let msg ← (NaturalCell.decode bytes).mapError (fun _ => .nonCanonicalCell)
    require (msg.kind = .msg) .innerNotMsg
    pure (some msg)

def Push.parse (bytes : Bytes) : Except RelayCodecError Push := do
  require (pushFixed ≤ bytes.length) .malformed
  let len := wordAt 2 bytes 65
  require (len ≤ maxMessage+headerLen ∧ len = bytes.length-pushFixed) .malformed
  let msg ← Push.nested len (bytes.drop pushFixed)
  let traffic ← Gc2.trafficClass bytes
  pure ⟨traffic,blockAt 32 bytes 1,wordAt 8 bytes 33,blockAt 16 bytes 41,wordAt 8 bytes 57,msg⟩

/-- A deposit that parsed, its destination tag unchecked. -/
structure UnverifiedPush where
  cell : NaturalCell
  push : Push
  bytes : Bytes
  outer : body cell .relayPush = .ok bytes
  parsed : Push.parse bytes = .ok push

theorem UnverifiedPush.ext_cell {p q : UnverifiedPush} (h : p.cell = q.cell) : p = q := by
  obtain ⟨c,a,x,ho,hp⟩ := p
  obtain ⟨d,b,y,ho',hq⟩ := q
  obtain rfl : c = d := h
  obtain rfl := Except.ok.inj (ho.symm.trans ho')
  obtain rfl := Except.ok.inj (hp.symm.trans hq)
  rfl

def UnverifiedPush.parse (cell : NaturalCell) : Except RelayCodecError UnverifiedPush :=
  match ho : body cell .relayPush with
  | .error e => .error e
  | .ok bytes =>
      match hp : Push.parse bytes with
      | .error e => .error e
      | .ok push => .ok ⟨cell,push,bytes,ho,hp⟩

structure Subscription where
  trafficClass : TrafficClass
  queueId : Block 32
  epoch : ℕ
  expiry : ℕ
  nonce : Block 16
  deriving DecidableEq

structure Forward where
  trafficClass : TrafficClass
  target : RelayTarget
  expiry : ℕ
  nonce : Block 16
  push : Option UnverifiedPush

section Authentication
variable (P : Suite)

def authenticate (cell : NaturalCell) (kind : CellType) (key service : Block 32) :
    Except RelayCodecError Bytes := do
  let bytes ← body cell kind
  let t ← transcript kind service bytes
  require ((P.hmac key t).toList = cell.payload.drop bytes.length) .invalidMac
  pure bytes

def UnverifiedPush.authenticate (p : UnverifiedPush) (cap service : Block 32) (now : ℕ) :
    Except RelayCodecError Push := do
  let bytes ← Gc2.authenticate P p.cell .relayPush cap service
  let push ← Push.parse bytes
  rejectExpired push.expiry now
  pure push

def Subscription.decode (cell : NaturalCell) (cap service : Block 32) (now : ℕ) :
    Except RelayCodecError Subscription := do
  let bytes ← Gc2.authenticate P cell .relaySub cap service
  require (bytes.length = subFixed) .malformed
  let traffic ← Gc2.trafficClass bytes
  let value : Subscription := ⟨traffic,blockAt 32 bytes 1,wordAt 8 bytes 33,wordAt 8 bytes 41,
    blockAt 16 bytes 49⟩
  rejectExpired value.expiry now
  pure value

def Forward.nested (traffic : TrafficClass) (len : ℕ) (bytes : Bytes) (now : ℕ) :
    Except RelayCodecError (Option UnverifiedPush) :=
  if len = 0 then pure none
  else do
    let cell ← (NaturalCell.decode bytes).mapError (fun _ => .nonCanonicalCell)
    let push ← UnverifiedPush.parse cell
    require (push.push.trafficClass = traffic) .nonCanonicalCell
    rejectExpired push.push.expiry now
    pure (some push)

def Forward.decode (cell : NaturalCell) (key service : Block 32) (now : ℕ)
    (policy : FrwdTargetPolicy) : Except RelayCodecError Forward := do
  let bytes ← Gc2.authenticate P cell .frwd key service
  require (frwdFixed ≤ bytes.length) .malformed
  let traffic ← Gc2.trafficClass bytes
  let target ← RelayTarget.decode (slice bytes 1 (1+targetLen))
  validateFrwdTarget target policy
  rejectExpired (wordAt 8 bytes 52) now
  let len := wordAt 2 bytes 76
  require (len = bytes.length-frwdFixed) .malformed
  let push ← Forward.nested traffic len (bytes.drop frwdFixed) now
  pure ⟨traffic,target,wordAt 8 bytes 52,blockAt 16 bytes 60,push⟩

end Authentication

end Gc2

end Gcoms.RelayCodec
