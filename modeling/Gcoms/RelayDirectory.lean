import Gcoms.Commands
import Gcoms.Fallible
import Gcoms.RelayCodec

/-!
# The private GC/2 relay directory

A bounded list of relay introductions, the guards selected among them and the
node's own services. Every change is made on a copy of the view, written to the
checkpoint and then published. A checkpoint that fails leaves it open which view
was saved, so the directory refuses to work from then on.

A socket address of IPv6 carries a flow label and a scope beside the IP and the
port. The stored form has the IP and the port only.
-/
namespace Gcoms.RelayDirectory
open ByteCodec Primitives Commands Fallible RelayCodec

def introductionBytes : ℕ := 155
def maxIntroductions : ℕ := 8
def maxRelays : ℕ := 64
def maxGuards : ℕ := 3
def maxOwnServices : ℕ := 8
def maxPrivateBytes : ℕ := 8+maxRelays*introductionBytes+maxGuards*32+maxOwnServices*51
def maxAdvertisementAge : ℕ := 24*60*60

/-! ## Addresses -/

inductive SocketAddr where
  | v4 (octets : Block 4) (port : U16)
  | v6 (octets : Block 16) (port : U16) (flowinfo scopeId : U32)
  deriving DecidableEq

namespace SocketAddr

def ip : SocketAddr → IpAddr
  | .v4 octets _ => .v4 octets
  | .v6 octets _ _ _ => .v6 octets

def port : SocketAddr → U16
  | .v4 _ port => port
  | .v6 _ port _ _ => port

/-- `SocketAddr::new`. -/
def new : IpAddr → U16 → SocketAddr
  | .v4 octets,port => .v4 octets port
  | .v6 octets,port => .v6 octets port 0 0

/-- The address without flow label and scope. -/
def canonical (a : SocketAddr) : SocketAddr := new a.ip a.port

end SocketAddr

def encodeAddress (a : SocketAddr) : Bytes :=
  (match a.ip with
    | .v4 octets => [4]++(octets.toList++List.replicate 12 0)
    | .v6 octets => [6]++octets.toList)++bigEndian 2 a.port

def isUnspecified : IpAddr → Bool
  | .v4 octets => octets.toList.all (· = 0)
  | .v6 octets => octets.toList.all (· = 0)

def isMulticast : IpAddr → Bool
  | .v4 octets => decide (octets.head.val/16 = 14)
  | .v6 octets => decide (octets.head.val = 255)

def isV4Mapped : IpAddr → Bool
  | .v4 _ => false
  | .v6 octets => octets.toList.take 12 = List.replicate 10 0++[255,255]

def Unusable (ip : IpAddr) (port : ℕ) : Prop :=
  port = 0 ∨ isUnspecified ip = true ∨ isMulticast ip = true ∨ isV4Mapped ip = true

instance (ip : IpAddr) (port : ℕ) : Decidable (Unusable ip port) :=
  inferInstanceAs (Decidable (_ ∨ _ ∨ _ ∨ _))

def decodeIp (kind : ℕ) (body : Block 16) : Except String IpAddr :=
  if kind = 4 ∧ body.toList.drop 4 = List.replicate 12 0 then .ok (.v4 (pad 4 body.toList))
  else if kind = 6 then .ok (.v6 body)
  else .error "noncanonical relay address"

def readAddress : Reader String SocketAddr := do
  let kind ← word "invalid relay address" 1
  let body ← take "invalid relay address" 16
  let port ← word "invalid relay address" 2
  let ip ← lift (decodeIp kind body)
  check (¬Unusable ip port) "unusable relay address"
  return .new ip (Fin.ofNat _ port)

def decodeAddress (bytes : Bytes) : Except String SocketAddr := do
  require (bytes.length = 19) "invalid relay address"
  let read ← readAddress.run bytes
  return read.1

/-! ## Introductions -/

structure Introduction where
  addr : SocketAddr
  serviceId : Block 32
  reentryCap : Block 32
  entryCap : Block 32
  transitCap : Block 32
  expiresAt : U64
  deriving DecidableEq

def zeroId : Block 32 := List.Vector.replicate 32 0

namespace Introduction

/-- The tests of the authorities, all of which must fail. -/
def Incomplete (r : Introduction) : Prop :=
  r.serviceId = zeroId ∨ r.reentryCap = zeroId ∨ r.entryCap = zeroId ∨ r.transitCap = zeroId ∨
    r.reentryCap = r.entryCap ∨ r.reentryCap = r.transitCap ∨ r.entryCap = r.transitCap ∨
    r.expiresAt = 0

instance (r : Introduction) : Decidable r.Incomplete :=
  inferInstanceAs (Decidable (_ ∨ _ ∨ _ ∨ _ ∨ _ ∨ _ ∨ _ ∨ _))

def validate (r : Introduction) : Except String Unit := do
  let _ ← decodeAddress (encodeAddress r.addr)
  require (¬r.Incomplete) "incomplete or overlapping GC/2 relay authorities"

def conflicts (r : Introduction) (addr : SocketAddr) (pin : Block 32) : Bool :=
  r.addr.ip = addr.ip || r.serviceId = pin

def fresh (r : Introduction) (now : ℕ) : Except String Unit := do
  r.validate
  require (¬(r.expiresAt.val ≤ now ∨ maxAdvertisementAge < r.expiresAt.val-now))
    "GC/2 relay advertisement outside freshness window"

def encode (r : Introduction) : Except String Bytes := do
  r.validate
  return encodeAddress r.addr++(r.serviceId.toList++(r.reentryCap.toList++(r.entryCap.toList++
    (r.transitCap.toList++bigEndian 8 r.expiresAt))))

def readFields : Reader String Introduction := do
  let addr ← take "invalid GC/2 introduction length" 19
  let serviceId ← take "invalid GC/2 introduction length" 32
  let reentryCap ← take "invalid GC/2 introduction length" 32
  let entryCap ← take "invalid GC/2 introduction length" 32
  let transitCap ← take "invalid GC/2 introduction length" 32
  let expiresAt ← word "invalid GC/2 introduction length" 8
  let addr ← lift (decodeAddress addr.toList)
  return ⟨addr,serviceId,reentryCap,entryCap,transitCap,Fin.ofNat _ expiresAt⟩

def decode (bytes : Bytes) : Except String Introduction := do
  require (bytes.length = introductionBytes) "invalid GC/2 introduction length"
  let read ← readFields.run bytes
  read.1.validate
  return read.1

end Introduction

structure BootstrapBundle where
  relays : List Introduction

/-- Each relay is valid and new among the ones before it. -/
def BootstrapBundle.validateFrom (before : List Introduction) :
    List Introduction → Except String Unit
  | [] => .ok ()
  | relay::rest => do
      relay.validate
      require (¬(before.any (fun old => decide (old.serviceId = relay.serviceId)) = true))
        "duplicate GC/2 bootstrap service"
      validateFrom (before++[relay]) rest

def BootstrapBundle.validate (b : BootstrapBundle) : Except String Unit := do
  require (¬(b.relays = [] ∨ maxIntroductions < b.relays.length))
    "GC/2 bootstrap bundle exceeds bounds"
  BootstrapBundle.validateFrom [] b.relays

/-! ## Views -/

structure View where
  relays : List Introduction
  guards : List (Block 32)
  own : List (SocketAddr × Block 32)
  deriving DecidableEq

namespace View

def empty : View := ⟨[],[],[]⟩

def find (v : View) (pin : Block 32) : Option Introduction :=
  v.relays.find? (fun r => decide (r.serviceId = pin))

def ownConflict (v : View) (relay : Introduction) : Bool :=
  v.own.any (fun o => relay.conflicts o.1 o.2)

def encodeRelays : List Introduction → Except String Bytes
  | [] => .ok []
  | relay::rest => do
      let bytes ← relay.encode
      let more ← encodeRelays rest
      return bytes++more

def encode (v : View) : Except String Bytes := do
  let relays ← encodeRelays v.relays
  return ascii "GCDR"++[2]++(bigEndian 1 v.relays.length++(relays++(bigEndian 1 v.guards.length++
    (v.guards.flatMap (·.toList)++(bigEndian 1 v.own.length++
      v.own.flatMap (fun o => encodeAddress o.1++o.2.toList))))))

def validateGuardsFrom (v : View) (selected : List Introduction) :
    List (Block 32) → Except String Unit
  | [] => .ok ()
  | pin::rest => do
      let relay ← found "unknown GC/2 guard" (v.find pin)
      require (¬(selected.any (fun old => old.conflicts relay.addr relay.serviceId) = true ∨
        v.ownConflict relay = true)) "GC/2 guard overlaps another guard or own service"
      validateGuardsFrom v (selected++[relay]) rest

def validateGuards (v : View) (guards : List (Block 32)) : Except String Unit :=
  v.validateGuardsFrom [] guards

/-- One round of the pruning loop. -/
def keepGuard (v : View) (kept : List (Block 32)) (pin : Block 32) : List (Block 32) :=
  match v.find pin with
  | none => kept
  | some relay =>
      if v.ownConflict relay = true ∨ kept.any (fun pin => (v.find pin).any
          (fun prior => prior.conflicts relay.addr relay.serviceId)) = true then kept
      else kept++[pin]

def pruneGuards (v : View) : View := {v with guards := v.guards.foldl v.keepGuard []}

end View

/-! ## The directory -/

/-- A refusal with its message, or a failed `expect`. -/
inductive Fault where
  | refused (message : String)
  | panic
  deriving DecidableEq

/-- The view, whether a checkpoint is installed and has failed, and what it was given. -/
structure Directory where
  view : View
  checkpointed : Bool
  persistenceFailed : Bool
  written : List Bytes
  deriving DecidableEq

abbrev Op (α : Type) := Cmd Directory Fault α

def checkPersistence : Op Unit := do
  let d ← Cmd.read id
  Cmd.demand (d.persistenceFailed = false)
    (.refused "GC/2 directory checkpoint failed; authenticated reload required")

/-- The call of the checkpoint, which fails with the message `disk` if there is one. -/
def save (next : View) (disk : Option String) : Op Unit := do
  let bytes ← Cmd.attempt .refused next.encode
  Cmd.update (fun d => {d with written := d.written++[bytes]})
  match disk with
  | none => pure ()
  | some error => do
      Cmd.update (fun d => {d with persistenceFailed := true})
      Cmd.fail (.refused error)

/-- A changed view is saved before it is published. -/
def publish (next : View) (disk : Option String) (checkpointed : Bool) : Op Unit :=
  match checkpointed with
  | false => Cmd.update (fun d => {d with view := next})
  | true => do
      save next disk
      Cmd.update (fun d => {d with view := next})

def commit (next : View) (disk : Option String) : Op Unit := do
  checkPersistence
  let d ← Cmd.read id
  if d.view = next then pure () else publish next disk d.checkpointed

section Operations
variable (allowed : IpAddr → Bool)

def admissible (relay : Introduction) (now : ℕ) : Except String Unit := do
  relay.validate
  require (¬(allowed relay.addr.ip = false ∨ maxAdvertisementAge < relay.expiresAt.val-now))
    "GC/2 introduction violates address or freshness policy"

def validateServices (before : List (SocketAddr × Block 32)) :
    List (SocketAddr × Block 32) → Except String Unit
  | [] => .ok ()
  | s::rest => do
      let _ ← decodeAddress (encodeAddress s.1)
      require (¬(s.2 = zeroId ∨ s ∈ before)) "invalid own GC/2 service identity"
      validateServices (before++[s]) rest

def setOwnServices (services : List (SocketAddr × Block 32)) (disk : Option String) : Op Unit := do
  Cmd.demand (services.length ≤ maxOwnServices) (.refused "too many own GC/2 services")
  Cmd.attempt .refused (validateServices [] services)
  let d ← Cmd.read id
  commit (View.pruneGuards {d.view with own := services}) disk

def setGuards (guards : List (Block 32)) (disk : Option String) : Op Unit := do
  Cmd.demand (guards.length ≤ maxGuards) (.refused "too many GC/2 guards")
  let d ← Cmd.read id
  Cmd.attempt .refused (d.view.validateGuards guards)
  commit {d.view with guards := guards} disk

/-- The candidate is published unless it overlaps. -/
def retainIndependent (next : View) (disk : Option String) : Op Bool :=
  match next.validateGuards next.guards with
  | .error _ => pure false
  | .ok _ => do
      commit next disk
      pure true

def retainGuard (pin : Block 32) (disk : Option String) : Op Bool := do
  checkPersistence
  let d ← Cmd.read id
  Cmd.demand (d.view.relays.any (fun r => decide (r.serviceId = pin)) = true)
    (.refused "unknown GC/2 guard")
  if d.view.guards.length = maxGuards ∨ pin ∈ d.view.guards then pure false
  else retainIndependent {d.view with guards := d.view.guards++[pin]} disk

/-- The stored relay that expires first among those that are not guards. -/
def victim (guards : List (Block 32)) (relays : List Introduction) : Option ℕ :=
  ((relays.zipIdx.filter (fun e => decide (e.1.serviceId ∉ guards))).argmin
    (fun e => e.1.expiresAt)).map Prod.snd

/-- The relay is new to the directory; a full one gives up a relay for it. -/
def admitNew (guards : List (Block 32)) (relays : List Introduction) (relay : Introduction) :
    Except Fault (List Introduction) :=
  if relays.length = maxRelays then
    match victim guards relays with
    | some index => .ok (relays.eraseIdx index++[relay])
    | none => .error .panic
  else .ok (relays++[relay])

/-- One for a relay that has not expired. -/
def freshCount (now : ℕ) (relay : Introduction) : ℕ := if now < relay.expiresAt.val then 1 else 0

/-- One round of the loop of `remember`: the relays and the number of fresh ones. -/
def install (guards : List (Block 32)) (now : ℕ) (acc : List Introduction × ℕ)
    (relay : Introduction) : Except Fault (List Introduction × ℕ) :=
  match acc.1.findIdx? (fun old => decide (old.serviceId = relay.serviceId)) with
  | some index =>
      if acc.1[index]?.any (fun old => decide (relay.expiresAt < old.expiresAt)) then .ok acc
      else .ok (acc.1.set index relay,acc.2+freshCount now relay)
  | none => do
      let relays ← admitNew guards acc.1 relay
      return (relays,acc.2+freshCount now relay)

def admissibleAll (now : ℕ) : List Introduction → Except String Unit
  | [] => .ok ()
  | relay::rest => do
      admissible allowed relay now
      admissibleAll now rest

/-- Some relay would change the re-entry authority of a stored service. -/
def Migrates (v : View) (bundle : BootstrapBundle) : Prop :=
  ∃ relay ∈ bundle.relays, ∃ old ∈ v.relays,
    old.serviceId = relay.serviceId ∧ old.reentryCap ≠ relay.reentryCap

instance (v : View) (bundle : BootstrapBundle) : Decidable (Migrates v bundle) :=
  inferInstanceAs (Decidable (∃ relay ∈ bundle.relays, ∃ old ∈ v.relays, _))

def remember (bundle : BootstrapBundle) (now : ℕ) (disk : Option String) : Op ℕ := do
  Cmd.attempt .refused bundle.validate
  Cmd.attempt .refused (admissibleAll allowed now bundle.relays)
  let d ← Cmd.read id
  Cmd.demand (¬Migrates d.view bundle)
    (.refused "GC/2 stable re-entry authority requires explicit bootstrap migration")
  let installed ← Cmd.attempt id (bundle.relays.foldlM (install d.view.guards now) (d.view.relays,0))
  commit (View.pruneGuards {d.view with relays := installed.1}) disk
  pure installed.2

/-! ### Reading -/

def Directory.guards (d : Directory) : List (Block 32) :=
  if d.persistenceFailed then [] else d.view.guards

def Directory.eligible (d : Directory) (excluded : List (SocketAddr × Block 32)) (now : ℕ) :
    Except String (List Introduction) := do
  require (excluded.length ≤ 64) "too many GC/2 route exclusions"
  require (d.persistenceFailed = false)
    "GC/2 directory checkpoint failed; authenticated reload required"
  return d.view.relays.filter (fun relay => (relay.fresh now).toBool && allowed relay.addr.ip &&
    !(d.view.own++excluded).any (fun o => relay.conflicts o.1 o.2))

/-- The position of a relay among the guards. -/
def guardRank (v : View) (relay : Introduction) : ℕ :=
  (v.guards.findIdx? (fun pin => decide (pin = relay.serviceId))).getD maxGuards

def Directory.reentryCandidates (d : Directory) : List Introduction :=
  if d.persistenceFailed then []
  else
    let relays := d.view.relays.filter (fun relay => allowed relay.addr.ip &&
      !d.view.ownConflict relay)
    (relays.mergeSort (fun a b => guardRank d.view a ≤ guardRank d.view b)).take maxIntroductions

def Directory.encodePrivate (d : Directory) : Except String Bytes := do
  require (d.persistenceFailed = false)
    "GC/2 directory checkpoint failed; authenticated reload required"
  d.view.encode

/-- `Directory::new`. -/
def Directory.new : Directory := ⟨View.empty,false,false,[]⟩

/-- The checkpoint is installed by saving the present view. -/
def Directory.withCheckpoint (d : Directory) (disk : Option String) : Except String Directory := do
  let bytes ← d.encodePrivate
  match disk with
  | some error => .error error
  | none => .ok {d with checkpointed := true, written := d.written++[bytes]}

/-! ### Restoring -/

def count (maximum : ℕ) : Reader String ℕ := do
  let n ← word "truncated GC/2 directory" 1
  check (n ≤ maximum) "GC/2 directory count exceeds bound"
  return n

def readRelay (now : ℕ) (relays : List Introduction) : Reader String (List Introduction) := do
  let bytes ← take "truncated GC/2 directory" introductionBytes
  let relay ← lift (Introduction.decode bytes.toList)
  lift (admissible allowed relay now)
  check (¬(relays.any (fun old => decide (old.serviceId = relay.serviceId)) = true))
    "duplicate private GC/2 relay"
  return relays++[relay]

def readGuard (guards : List (Block 32)) : Reader String (List (Block 32)) := do
  let pin ← take "truncated GC/2 directory" 32
  return guards++[pin]

def readOwn (own : List (SocketAddr × Block 32)) : Reader String (List (SocketAddr × Block 32)) := do
  let bytes ← take "truncated GC/2 directory" 19
  let addr ← lift (decodeAddress bytes.toList)
  let pin ← take "truncated GC/2 directory" 32
  check (¬(pin = zeroId ∨ (addr,pin) ∈ own)) "invalid private GC/2 own service"
  return own++[(addr,pin)]

def readView (now : ℕ) : Reader String View := do
  let magic ← take "truncated GC/2 directory" 5
  check (magic.toList = ascii "GCDR"++[2]) "private GC/2 directory required"
  let relayCount ← count maxRelays
  let relays ← loop (readRelay allowed now) relayCount []
  let guardCount ← count maxGuards
  let guards ← loop readGuard guardCount []
  let ownCount ← count maxOwnServices
  let own ← loop readOwn ownCount []
  return ⟨relays,guards,own⟩

def restoreWithPolicy (bytes : Bytes) (now : ℕ) : Except String Directory := do
  require (8 ≤ bytes.length ∧ bytes.length ≤ maxPrivateBytes) "GC/2 directory size exceeds bounds"
  let read ← (readView allowed now).run bytes
  require (read.2 = []) "trailing private GC/2 directory bytes"
  read.1.validateGuards read.1.guards
  return ⟨read.1,false,false,[]⟩

end Operations

end Gcoms.RelayDirectory
