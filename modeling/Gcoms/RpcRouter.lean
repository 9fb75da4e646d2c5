import Gcoms.Fallible
import Gcoms.LeaseCodec
import Gcoms.SortedMaps

/-!
# Operations of the RPC router

A client names an operation by an identifier of its own and may repeat the call.
The journal admits an operation once, keeps its record for the retention time
and stores the outcome. The router compares a call with the record under two
locks, admits it, and hands it to a worker that runs the handler outside of the
locks; the worker completes the record by key and then leaves the active set.

The model interleaves calls, queries, workers and shutdown. A call is divided
where the source waits for the store between `get` and `admit`: in between it
holds the locks and a permit, and only workers that complete can run. The
histories `started`, `outcomes` and `answers` record what happened and are never
read.
-/
namespace Gcoms.RpcRouter
open Fallible SortedMaps
open LeaseCodec (satAdd)

inductive ErrorCode where
  | invalidRequest
  | version
  | instanceId
  | service
  | method
  | unauthorized
  | conflict
  | expired
  | unavailable
  | busy
  | payloadTooLarge
  | storage
  | transport
  deriving DecidableEq

structure RpcError where
  code : ErrorCode
  message : String
  deriving DecidableEq

def RpcError.invalid (message : String) : RpcError := ⟨.invalidRequest,message⟩

inductive MethodKind where
  | query
  | operation
  | session
  deriving DecidableEq

def validId (value : String) : Bool :=
  16 ≤ value.length && value.length ≤ 128 &&
    value.toList.all fun c => c.isAlphanum || c == '-' || c == '_'

structure OperationId where
  value : String
  valid : validId value = true
  deriving DecidableEq

structure OperationKey where
  caller : String
  instanceId : String
  service : String
  version : ℕ
  method : String
  operationId : OperationId
  deriving DecidableEq

inductive Outcome (Value : Type) where
  | ok (value : Value)
  | error (value : Value)
  deriving DecidableEq

inductive ReplyBody (Value : Type) where
  | done (outcome : Outcome Value)
  | running
  | outcomeUnknown
  | unavailable
  | failed (error : RpcError)
  deriving DecidableEq

def ReplyBody.terminal {Value : Type} : ReplyBody Value → Bool
  | .done _ => true
  | .failed _ => true
  | _ => false

structure OperationToken where
  id : OperationId
  deadline : ℕ

inductive Invocation (Value : Type) where
  | call (args : Value) (operation : Option OperationToken)
  | status (operationId : OperationId)

structure Request (Value : Type) where
  rpc : ℕ
  id : OperationId
  instanceId : String
  service : String
  version : ℕ
  method : String
  invocation : Invocation Value

def wireVersion : ℕ := 1

variable {Value : Type}

def OperationKey.new (caller : String) (request : Request Value) (operationId : OperationId) :
    OperationKey where
  caller := caller
  instanceId := request.instanceId
  service := request.service
  version := request.version
  method := request.method
  operationId := operationId

/-! ## The journal -/

structure OperationRecord (Value : Type) where
  key : OperationKey
  digest : String
  admittedAt : ℕ
  retainUntil : ℕ
  result : Option (ReplyBody Value)

abbrev Journal (Value : Type) := List (OperationRecord Value)

structure StoreLimits where
  retentionSecs : ℕ
  records : ℕ
  bytes : ℕ

inductive Admission (Value : Type) where
  | new
  | existing (record : OperationRecord Value)

def conflicting : RpcError := ⟨.conflict,"operation ID was used with different contents"⟩

def getRecord (j : Journal Value) (key : OperationKey) (now : ℕ) : Option (OperationRecord Value) :=
  j.find? fun r => r.key = key ∧ now < r.retainUntil

/-- `encoded` is the length of the serialized journal. -/
def checkSize (encoded : Journal Value → Option ℕ) (limits : StoreLimits) (j : Journal Value) :
    Except RpcError Unit := do
  let length ← found ⟨.storage,"journal serialization failed"⟩ (encoded j)
  require (length ≤ limits.bytes) ⟨.busy,"operation journal byte limit"⟩

/-- The journal with the expired records removed and a new one at its end. -/
def enrolled (j : Journal Value) (key : OperationKey) (digest : String) (now retention : ℕ) :
    Journal Value :=
  j.filter (fun r => now < r.retainUntil)++[⟨key,digest,now,satAdd now retention,none⟩]

/-- The stores run this on a candidate, so that a refusal changes nothing. -/
def admitCall (encoded : Journal Value → Option ℕ) (limits : StoreLimits) (j : Journal Value)
    (key : OperationKey) (digest : String) (deadline now : ℕ) :
    Except RpcError (Admission Value × Journal Value) :=
  match getRecord j key now with
  | some existing =>
      if existing.digest = digest then .ok (.existing existing,j) else .error conflicting
  | none => do
      require (now < deadline ∧ deadline ≤ satAdd now 600)
        ⟨.expired,"submission deadline expired or exceeds ten minutes"⟩
      require (600 ≤ limits.retentionSecs) ⟨.storage,"retention must cover the admission window"⟩
      require ((j.filter fun r => now < r.retainUntil).length < limits.records)
        ⟨.busy,"operation journal is full"⟩
      checkSize encoded limits (enrolled j key digest now limits.retentionSecs)
      pure (.new,enrolled j key digest now limits.retentionSecs)

/-- Writes the result into the first record of the key. -/
def store (key : OperationKey) (result : ReplyBody Value) : Journal Value → Journal Value
  | [] => []
  | r::rest => if r.key = key then {r with result := some result}::rest else r::store key result rest

/-- A result is accepted by key alone: neither expiry nor the admission it
belongs to is looked at. -/
def complete [DecidableEq Value] (encoded : Journal Value → Option ℕ) (limits : StoreLimits)
    (j : Journal Value) (key : OperationKey) (result : ReplyBody Value) :
    Except RpcError (Journal Value) := do
  require (result.terminal = true) (.invalid "only terminal results can be committed")
  let record ← found ⟨.unavailable,"operation record unavailable"⟩ (j.find? fun r => r.key = key)
  match record.result with
  | some old =>
      if old = result then .ok j else .error ⟨.conflict,"operation already completed"⟩
  | none => do
      checkSize encoded limits (store key result j)
      pure (store key result j)

/-! ## The router -/

/-- A registered service: its descriptor, the dispatcher's pure part, its
authorization policy and the store it was registered with. -/
structure Registration (Value : Type) where
  methods : List (String × MethodKind)
  validate : String → Value → Except RpcError Value
  digest : String → Value → Except RpcError String
  allowed : String → String → ℕ → String → Bool
  store : ℕ

/-- The fixed part of a router and the lengths of its serialized values. -/
structure Router (Value : Type) where
  instanceId : String
  services : String → ℕ → Option (Registration Value)
  workers : ℕ
  frameLimit : ℕ
  limits : ℕ → StoreLimits
  requestLength : Request Value → Option ℕ
  replyLength : Request Value → ReplyBody Value → Option ℕ
  journalLength : Journal Value → Option ℕ

/-- A call that found no record and waits for the store. -/
structure Submission (Value : Type) where
  request : Request Value
  store : ℕ
  key : OperationKey
  args : Value
  digest : String
  deadline : ℕ

/-- An invocation: the submission that was admitted, and when. -/
structure Started (Value : Type) extends Submission Value where
  admittedAt : ℕ

/-- A worker runs the handler, waits to leave the active set, or has left it and
still holds its permit. -/
inductive Stage where
  | running
  | leaving
  | left
  deriving DecidableEq

structure Worker (Value : Type) where
  started : Started Value
  stage : Stage

/-- A reply that was read from a record. -/
structure Answer (Value : Type) where
  key : OperationKey
  admittedAt : ℕ
  body : ReplyBody Value

structure World (Value : Type) where
  clock : ℕ
  stopped : Bool
  /-- Whether the set of tasks is still in place. -/
  tasks : Bool
  pending : Option (Submission Value)
  active : Finset OperationKey
  journals : ℕ → Journal Value
  workers : SortedMap ℕ (Worker Value)
  fresh : ℕ
  queries : List (Request Value)
  started : List (Started Value)
  outcomes : List (Started Value × Outcome Value)
  answers : List (Answer Value)

def start (clock : ℕ) : World Value where
  clock := clock
  stopped := false
  tasks := true
  pending := none
  active := ∅
  journals := fun _ => []
  workers := SortedMap.empty
  fresh := 0
  queries := []
  started := []
  outcomes := []
  answers := []

namespace Router

def fits (e : Router Value) (length : Option ℕ) : Bool := length.any fun n => n ≤ e.frameLimit

/-- What `handle` makes of the body of a reply. -/
def reply (e : Router Value) (request : Request Value) (body : ReplyBody Value) : ReplyBody Value :=
  if e.fits (e.replyLength request body) then body
  else .failed ⟨.payloadTooLarge,"response exceeds adapter limit; paginate results"⟩

/-- The body a worker stores for the outcome of its handler. -/
def verdict (e : Router Value) (request : Request Value) (outcome : Outcome Value) :
    ReplyBody Value :=
  if e.fits (e.replyLength request (.done outcome)) then .done outcome
  else .failed ⟨.payloadTooLarge,"result exceeds adapter limit"⟩

/-- The checks of `handle_inner` that every request passes. -/
def front (e : Router Value) (stopped : Bool) (caller : String) (request : Request Value) :
    Except RpcError (Registration Value × MethodKind) := do
  require (stopped = false) ⟨.transport,"service stopped"⟩
  require (e.fits (e.requestLength request) = true)
    ⟨.payloadTooLarge,"request exceeds adapter limit"⟩
  require (request.rpc = wireVersion) ⟨.version,"unsupported RPC version"⟩
  require (request.instanceId = e.instanceId) ⟨.instanceId,"instance does not match attachment"⟩
  let registration ← found ⟨.service,"service version is not registered"⟩
    (e.services request.service request.version)
  require (registration.allowed caller request.service request.version request.method = true)
    ⟨.unauthorized,"service access denied"⟩
  let method ← found ⟨.method,"unknown method"⟩
    (registration.methods.find? fun m => m.1 = request.method)
  pure (registration,method.2)

end Router

def state (record : Option (OperationRecord Value)) (active : Bool) : ReplyBody Value :=
  match record with
  | none => .unavailable
  | some record => record.result.getD (if active then .running else .outcomeUnknown)

/-- A step either is blocked or gives the next world, with a reply if it ends a
request. -/
abbrev Effect (Value : Type) := Option (World Value × Option (ReplyBody Value))

/-- Ends a request at `now`; a waiting call gives up its locks and its permit. -/
def respond (e : Router Value) (request : Request Value) (now : ℕ) (body : ReplyBody Value)
    (w : World Value) : Effect Value :=
  some ({w with clock := now, pending := none},some (e.reply request body))

/-- Answers from a record. -/
def report (e : Router Value) (request : Request Value) (now : ℕ)
    (record : OperationRecord Value) (w : World Value) : Effect Value :=
  let body := e.reply request (state (some record) (decide (record.key ∈ w.active)))
  some ({w with
    clock := now
    pending := none
    answers := w.answers++[⟨record.key,record.admittedAt,body⟩]},some body)

def permitsHeld (w : World Value) : ℕ := w.workers.size+w.queries.length

def queryStatus (e : Router Value) (registration : Registration Value) (kind : MethodKind)
    (caller : String) (request : Request Value) (operationId : OperationId) (now : ℕ)
    (w : World Value) : Effect Value :=
  if kind ≠ .operation then
    respond e request now (.failed (.invalid "status requires an operation method")) w
  else
    match getRecord (w.journals registration.store) (.new caller request operationId) now with
    | none => respond e request now (state none false) w
    | some record => report e request now record w

/-- A call of an operation, up to its wait for `admit`. -/
def submit (e : Router Value) (registration : Registration Value) (caller : String)
    (request : Request Value) (args : Value) (token : OperationToken) (now : ℕ)
    (w : World Value) : Effect Value :=
  if w.tasks = false then respond e request now (.failed ⟨.transport,"service stopped"⟩) w
  else
    match registration.digest request.method args with
    | .error error => respond e request now (.failed error) w
    | .ok digest =>
        match getRecord (w.journals registration.store) (.new caller request token.id) now with
        | some record =>
            if record.digest ≠ digest then respond e request now (.failed conflicting) w
            else report e request now record w
        | none =>
            if permitsHeld w < e.workers then
              some ({w with
                clock := now
                pending := some ⟨request,registration.store,.new caller request token.id,args,
                  digest,token.deadline⟩},none)
            else respond e request now (.failed ⟨.busy,"service workers are busy"⟩) w

/-- Queries are answered by the handler without the journal. -/
def invokeQuery (e : Router Value) (request : Request Value) (now : ℕ) (w : World Value) :
    Effect Value :=
  if permitsHeld w+w.pending.toList.length < e.workers then
    some ({w with clock := now, queries := w.queries++[request]},none)
  else some ({w with clock := now},
    some (e.reply request (.failed ⟨.busy,"service workers are busy"⟩)))

def queryBody : Except RpcError (Outcome Value) → ReplyBody Value
  | .ok outcome => .done outcome
  | .error error => .failed error

/-- The part of `handle_inner` behind the common checks. -/
def handleMethod (e : Router Value) (registration : Registration Value) (kind : MethodKind)
    (caller : String) (request : Request Value) (now : ℕ) (w : World Value) : Effect Value :=
  match request.invocation with
  | .status operationId =>
      -- the active set is locked by a call that waits for the store
      if w.pending.isSome then none
      else queryStatus e registration kind caller request operationId now w
  | .call args operation =>
      if decide (kind = .operation) ≠ operation.isSome then
        some ({w with clock := now},some (e.reply request
          (.failed (.invalid "operation token does not match method kind"))))
      else
        match registration.validate request.method args,operation with
        | .error error,_ => some ({w with clock := now},some (e.reply request (.failed error)))
        | .ok _,none => invokeQuery e request now w
        | .ok args,some token =>
            if w.pending.isSome then none
            else submit e registration caller request args token now w

/-- The second half of a call: the waiting submission reaches the store. -/
def admitPending (e : Router Value) (now : ℕ) (p : Submission Value) (w : World Value) :
    Effect Value :=
  match admitCall e.journalLength (e.limits p.store) (w.journals p.store) p.key p.digest p.deadline
    now with
  | .error error => respond e p.request now (.failed error) w
  | .ok (.existing record,_) => report e p.request now record w
  | .ok (.new,journal) =>
      some ({w with
        clock := now
        pending := none
        journals := Function.update w.journals p.store journal
        active := insert p.key w.active
        workers := w.workers.insert w.fresh ⟨⟨p,now⟩,.running⟩
        fresh := w.fresh+1
        started := w.started++[⟨p,now⟩]},some (e.reply p.request .running))

/-- The handler of a worker has returned an outcome; a refusal of the store is ignored. -/
def finish [DecidableEq Value] (e : Router Value) (i : ℕ) (s : Started Value)
    (outcome : Outcome Value) (w : World Value) : World Value :=
  {w with
    journals :=
      match complete e.journalLength (e.limits s.store) (w.journals s.store) s.key
        (e.verdict s.request outcome) with
      | .ok journal => Function.update w.journals s.store journal
      | .error _ => w.journals
    workers := w.workers.insert i ⟨s,.leaving⟩
    outcomes := w.outcomes++[(s,outcome)]}

inductive Event (Value : Type) where
  /-- A request arrives; `seen` is the value it read from the stop flag. -/
  | handle (caller : String) (request : Request Value) (seen : Bool) (now : ℕ)
  /-- The waiting call reaches the store. -/
  | admitCall (now : ℕ)
  /-- The waiting call is dropped by its transport. -/
  | cancel
  | answerQuery (i : ℕ) (result : Except RpcError (Outcome Value))
  /-- The handler of a worker returns. -/
  | finish (i : ℕ) (outcome : Outcome Value)
  /-- The handler of a worker fails or panics. -/
  | fail (i : ℕ)
  | leave (i : ℕ)
  | release (i : ℕ)
  /-- The three steps of shutdown, and a worker that it aborts. -/
  | stop
  | takeTasks
  | clearActive
  | abort (i : ℕ)

/-- The worker with this handle, if it is at the given stage. -/
def workerAt (w : World Value) (i : ℕ) (stage : Stage) : Option (Started Value) :=
  match w.workers.find? i with
  | some k => if k.stage = stage then some k.started else none
  | none => none

def exec [DecidableEq Value] (e : Router Value) : Event Value → World Value → Effect Value
  | .handle caller request seen now,w =>
      -- the flag is never reset, so a set flag that was read earlier is still set
      if now < w.clock ∨ (seen = true ∧ w.stopped = false) then none
      else
        match e.front seen caller request with
        | .error error => some ({w with clock := now},some (e.reply request (.failed error)))
        | .ok (registration,kind) => handleMethod e registration kind caller request now w
  | .admitCall now,w =>
      match w.pending with
      | none => none
      | some p => if now < w.clock then none else admitPending e now p w
  | .cancel,w => some ({w with pending := none},none)
  | .answerQuery i result,w =>
      match w.queries[i]? with
      | none => none
      | some request =>
          some ({w with queries := w.queries.eraseIdx i},some (e.reply request (queryBody result)))
  | .finish i outcome,w =>
      match workerAt w i .running with
      | none => none
      | some s => some (finish e i s outcome w,none)
  | .fail i,w =>
      match workerAt w i .running with
      | none => none
      | some s => some ({w with workers := w.workers.insert i ⟨s,.leaving⟩},none)
  | .leave i,w =>
      match workerAt w i .leaving with
      | none => none
      | some s =>
          if w.pending.isSome then none
          else some ({w with
            active := w.active.erase s.key
            workers := w.workers.insert i ⟨s,.left⟩},none)
  | .release i,w =>
      match workerAt w i .left with
      | none => none
      | some _ => some ({w with workers := w.workers.erase i},none)
  | .stop,w => some ({w with stopped := true},none)
  | .takeTasks,w =>
      if w.pending.isSome ∨ w.stopped = false then none else some ({w with tasks := false},none)
  | .clearActive,w =>
      if w.pending.isSome ∨ w.tasks = true then none else some ({w with active := ∅},none)
  | .abort i,w =>
      if w.tasks = true then none else some ({w with workers := w.workers.erase i},none)

/-- The world after a sequence of events, if none of them is blocked. -/
def after [DecidableEq Value] (e : Router Value) : List (Event Value) → World Value →
    Option (World Value)
  | [],w => some w
  | event::rest,w =>
      match exec e event w with
      | none => none
      | some (w',_) => after e rest w'

end Gcoms.RpcRouter
