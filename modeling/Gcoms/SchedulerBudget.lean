import Gcoms.ByteCodec
import Gcoms.SortedMaps
import Gcoms.Commands

/-!
# The scheduler's admission budget

Endpoint and transit schedulers share one allowance of jobs and bytes. A
reservation holds a job until its destructor runs; a retained account holds the
durable outbox and grows in two phases, `stage` before a checkpoint and `commit`
after it. Cover traffic has an allowance of its own inside the totals.

The state of the budget is read through seven kinds of meter. Every object that
is alive weighs on each meter, and the budget is conserved when every meter shows
the sum of these weights. The subtractions of the source are checked: a release
of more than is recorded would stop the program.
-/
namespace Gcoms.SchedulerBudget
open ByteCodec SortedMaps Commands

def maxJobs : ℕ := 4096

def maxBytes : ℕ := 64*1024*1024

def coverBytes : ℕ := 16*1024

def maxLanes : ℕ := 512

/-- The greatest `usize`. -/
def usizeMax : ℕ := 2^64-1

structure ResourceSnapshot where
  jobs : ℕ
  bytes : ℕ
  peakJobs : ℕ
  peakBytes : ℕ

structure PayloadUsage where
  items : ℕ
  bytes : ℕ
  deriving DecidableEq

/-- The scheduler a budget handle belongs to: endpoint or transit. -/
abbrev Scope := Fin 2

instance scopeNeZero : NeZero 2 := ⟨by decide⟩

structure State where
  resources : ResourceSnapshot
  attempts : Finset (Scope × Block 32)
  locals : Scope → ResourceSnapshot
  coverLimits : Scope → ℕ
  covers : Scope → ℕ
  retained : PayloadUsage

structure Reservation where
  scope : Scope
  bytes : ℕ
  attempt : Option (Block 32)
  cover : Bool

inductive EnqueueError where
  | full
  | pending
  deriving DecidableEq

/-- A call is refused, stops at an arithmetic overflow, or names an object that
is not alive or is borrowed, which the ownership rules of the source exclude. -/
inductive Fault where
  | refused (e : EnqueueError)
  | overflow
  | unheld
  deriving DecidableEq

abbrev Op (α : Type) := Cmd State Fault α

namespace ResourceSnapshot

def addMany (r : ResourceSnapshot) (jobs bytes : ℕ) : ResourceSnapshot where
  jobs := r.jobs+jobs
  bytes := r.bytes+bytes
  peakJobs := max r.peakJobs (r.jobs+jobs)
  peakBytes := max r.peakBytes (r.bytes+bytes)

def add (r : ResourceSnapshot) (bytes : ℕ) : ResourceSnapshot := r.addMany 1 bytes

end ResourceSnapshot

namespace PayloadUsage

def add (u v : PayloadUsage) : PayloadUsage :=
  ⟨min (u.items+v.items) usizeMax,min (u.bytes+v.bytes) usizeMax⟩

def growth (u old : PayloadUsage) : PayloadUsage := ⟨u.items-old.items,u.bytes-old.bytes⟩

end PayloadUsage

def retainedLimit : PayloadUsage := ⟨2048,4*1024*1024⟩

def applicationLimit : PayloadUsage := ⟨1536,3*1024*1024⟩

inductive RetainedPriority where
  | application
  | control

def RetainedPriority.limit : RetainedPriority → PayloadUsage
  | .application => applicationLimit
  | .control => retainedLimit

/-! ## Meters -/

inductive Meter where
  | jobs
  | bytes
  | localJobs (scope : Scope)
  | localBytes (scope : Scope)
  | covers (scope : Scope)
  | retainedItems
  | retainedBytes
  deriving DecidableEq

def reading : Meter → State → ℕ
  | .jobs,s => s.resources.jobs
  | .bytes,s => s.resources.bytes
  | .localJobs c,s => (s.locals c).jobs
  | .localBytes c,s => (s.locals c).bytes
  | .covers c,s => s.covers c
  | .retainedItems,s => s.retained.items
  | .retainedBytes,s => s.retained.bytes

def write : Meter → State → ℕ → State
  | .jobs,s,v => {s with resources := {s.resources with jobs := v}}
  | .bytes,s,v => {s with resources := {s.resources with bytes := v}}
  | .localJobs c,s,v =>
      {s with locals := Function.update s.locals c {s.locals c with jobs := v}}
  | .localBytes c,s,v =>
      {s with locals := Function.update s.locals c {s.locals c with bytes := v}}
  | .covers c,s,v => {s with covers := Function.update s.covers c v}
  | .retainedItems,s,v => {s with retained := {s.retained with items := v}}
  | .retainedBytes,s,v => {s with retained := {s.retained with bytes := v}}

/-- What a live reservation weighs. -/
def weight : Meter → Reservation → ℕ
  | .jobs,_ => 1
  | .bytes,r => r.bytes
  | .localJobs c,r => if r.scope = c then 1 else 0
  | .localBytes c,r => if r.scope = c then r.bytes else 0
  | .covers c,r => if r.scope = c then r.cover.toNat else 0
  | .retainedItems,_ => 0
  | .retainedBytes,_ => 0

/-- What retained usage of a scope weighs. -/
def load : Meter → Scope → PayloadUsage → ℕ
  | .jobs,_,u => u.items
  | .bytes,_,u => u.bytes
  | .localJobs c,scope,u => if scope = c then u.items else 0
  | .localBytes c,scope,u => if scope = c then u.bytes else 0
  | .covers _,_,_ => 0
  | .retainedItems,_,u => u.items
  | .retainedBytes,_,u => u.bytes

theorem reading_write (m n : Meter) (s : State) (v : ℕ) :
    reading m (write n s v) = if m = n then v else reading m s := by
  cases m <;> cases n <;> simp [reading,write,Function.update_apply] <;> split <;> simp_all

@[simp] theorem write_attempts (m : Meter) (s : State) (v : ℕ) :
    (write m s v).attempts = s.attempts := by
  cases m <;> rfl

@[simp] theorem write_coverLimits (m : Meter) (s : State) (v : ℕ) :
    (write m s v).coverLimits = s.coverLimits := by
  cases m <;> rfl

/-! ## Operations -/

/-- The checked subtraction `a - b`. -/
def minus (a b : ℕ) : Op ℕ := fun s => if b ≤ a then (.ok (a-b),s) else (.error .overflow,s)

/-- The checked assignment `meter -= n`. -/
def decrease (m : Meter) (n : ℕ) : Op Unit := do
  let s ← Cmd.read id
  let v ← minus (reading m s) n
  Cmd.update (write m · v)

def decreaseAll : List (Meter × ℕ) → Op Unit
  | [] => pure ()
  | (m,n)::rest => do
      decrease m n
      decreaseAll rest

def State.coverCount (s : State) : ℕ := s.covers 0+s.covers 1

def State.coverLimit (s : State) : ℕ := s.coverLimits 0+s.coverLimits 1

/-- The test of `reserve_inner` that differs between cover and payload. Payload
never borrows the cover allowance, even while it is idle. -/
def admitBytes (s : State) (scope : Scope) (bytes : ℕ) (cover : Bool) : Op Unit :=
  match cover with
  | true => Cmd.demand (s.covers scope < s.coverLimits scope) (.refused .full)
  | false => do
      let dataJobs ← minus s.resources.jobs s.coverCount
      let dataBytes ← minus s.resources.bytes (s.coverCount*coverBytes)
      let dataLimit ← minus maxBytes (s.coverLimit*coverBytes)
      let jobLimit ← minus maxJobs s.coverLimit
      Cmd.demand (¬(jobLimit ≤ dataJobs ∨ dataLimit-dataBytes < bytes)) (.refused .full)

def State.hold (s : State) (r : Reservation) : State :=
  {s with
    covers := Function.update s.covers r.scope (s.covers r.scope+r.cover.toNat)
    resources := s.resources.add r.bytes
    locals := Function.update s.locals r.scope ((s.locals r.scope).add r.bytes)
    attempts := match r.attempt with
      | none => s.attempts
      | some id => insert (r.scope,id) s.attempts}

def reserveInner (scope : Scope) (bytes : ℕ) (attempt : Option (Block 32)) (cover : Bool) :
    Op Reservation := do
  let s ← Cmd.read id
  Cmd.demand (∀ id ∈ attempt, (scope,id) ∉ s.attempts) (.refused .pending)
  admitBytes s scope bytes cover
  Cmd.demand (¬(maxJobs ≤ s.resources.jobs ∨ maxBytes-s.resources.bytes < bytes)) (.refused .full)
  Cmd.update (·.hold ⟨scope,bytes,attempt,cover⟩)
  pure ⟨scope,bytes,attempt,cover⟩

def reserveCover (scope : Scope) : Op Reservation := reserveInner scope coverBytes none true

def reserve (scope : Scope) (bytes : ℕ) (attempt : Option (Block 32)) : Op Reservation :=
  reserveInner scope bytes attempt false

def State.forget (s : State) (r : Reservation) : State :=
  {s with attempts := match r.attempt with
    | none => s.attempts
    | some id => s.attempts.erase (r.scope,id)}

/-- The destructor of a reservation. -/
def dropReservation (r : Reservation) : Op Unit := do
  decreaseAll [(.covers r.scope,r.cover.toNat),(.jobs,1),(.bytes,r.bytes),(.localJobs r.scope,1),
    (.localBytes r.scope,r.bytes)]
  Cmd.update (·.forget r)

def releaseRetained (scope : Scope) (usage : PayloadUsage) : Op Unit :=
  decreaseAll [(.retainedItems,usage.items),(.retainedBytes,usage.bytes),(.jobs,usage.items),
    (.bytes,usage.bytes),(.localJobs scope,usage.items),(.localBytes scope,usage.bytes)]

def State.retain (s : State) (scope : Scope) (growth : PayloadUsage) : State :=
  {s with
    retained := s.retained.add growth
    resources := s.resources.addMany growth.items growth.bytes
    locals := Function.update s.locals scope ((s.locals scope).addMany growth.items growth.bytes)}

/-- The growth an account may not take. -/
def Excessive (s : State) (growth limit : PayloadUsage) (jobRoom byteRoom : ℕ) : Prop :=
  limit.items-s.retained.items < growth.items ∨ limit.bytes-s.retained.bytes < growth.bytes ∨
    jobRoom < growth.items ∨ byteRoom < growth.bytes

instance (s : State) (growth limit : PayloadUsage) (jobRoom byteRoom : ℕ) :
    Decidable (Excessive s growth limit jobRoom byteRoom) :=
  inferInstanceAs (Decidable (_ ∨ _ ∨ _ ∨ _))

/-- `RetainedAccount::stage` once the account is locked: the growth is charged
before the checkpoint is attempted. -/
def stage (scope : Scope) (current next : PayloadUsage) (priority : RetainedPriority) :
    Op PayloadUsage := do
  let s ← Cmd.read id
  let dataJobs ← minus s.resources.jobs s.coverCount
  let dataBytes ← minus s.resources.bytes (s.coverCount*coverBytes)
  let jobLimit ← minus maxJobs s.coverLimit
  let byteLimit ← minus maxBytes (s.coverLimit*coverBytes)
  Cmd.demand (¬Excessive s (next.growth current) priority.limit (jobLimit-dataJobs)
    (byteLimit-dataBytes)) (.refused .full)
  Cmd.update (·.retain scope (next.growth current))
  pure (next.growth current)

/-! ## The objects that are alive -/

structure RetainedUpdate where
  next : PayloadUsage
  growth : PayloadUsage

/-- An account, with the update that holds its lock. -/
structure RetainedAccount where
  scope : Scope
  usage : PayloadUsage
  staged : Option RetainedUpdate

/-- Usage together with staged growth. -/
def RetainedAccount.held (a : RetainedAccount) : PayloadUsage :=
  match a.staged with
  | none => a.usage
  | some u => ⟨a.usage.items+u.growth.items,a.usage.bytes+u.growth.bytes⟩

structure World where
  state : State
  reservations : SortedMap ℕ Reservation
  accounts : SortedMap ℕ RetainedAccount
  fresh : ℕ

inductive Event where
  | reserve (scope : Scope) (bytes : ℕ) (attempt : Option (Block 32))
  | reserveCover (scope : Scope)
  | dropReservation (handle : ℕ)
  | retainedAccount (scope : Scope)
  | stage (handle : ℕ) (next : PayloadUsage) (priority : RetainedPriority)
  | commit (handle : ℕ)
  | cancel (handle : ℕ)
  | dropAccount (handle : ℕ)

/-- An operation on the shared state. -/
def shared {α : Type} (x : Op α) : Cmd World Fault α := fun w =>
  ((x w.state).1,{w with state := (x w.state).2})

def World.setAccount (w : World) (handle : ℕ) (a : RetainedAccount) : World :=
  {w with accounts := w.accounts.insert handle a}

def keepReservation (r : Reservation) : Cmd World Fault Unit :=
  Cmd.update fun w => {w with
    reservations := w.reservations.insert w.fresh r
    fresh := w.fresh+1}

def accountOf (handle : ℕ) : Cmd World Fault RetainedAccount := do
  let account ← Cmd.read (·.accounts.find? handle)
  Cmd.obtain .unheld account

/-- The account and its staged update. -/
def updateOf (handle : ℕ) : Cmd World Fault (RetainedAccount × RetainedUpdate) := do
  let account ← accountOf handle
  let staged ← Cmd.obtain .unheld account.staged
  pure (account,staged)

def exec : Event → Cmd World Fault Unit
  | .reserve scope bytes attempt => do
      let r ← shared (reserve scope bytes attempt)
      keepReservation r
  | .reserveCover scope => do
      let r ← shared (reserveCover scope)
      keepReservation r
  | .dropReservation handle => do
      let found ← Cmd.read (·.reservations.find? handle)
      let r ← Cmd.obtain .unheld found
      shared (dropReservation r)
      Cmd.update fun w => {w with reservations := w.reservations.erase handle}
  | .retainedAccount scope =>
      Cmd.update fun w => {w with
        accounts := w.accounts.insert w.fresh ⟨scope,⟨0,0⟩,none⟩
        fresh := w.fresh+1}
  | .stage handle next priority => do
      let account ← accountOf handle
      -- the lock of the account is held by a staged update
      Cmd.demand (account.staged.isNone = true) (.refused .pending)
      let growth ← shared (stage account.scope account.usage next priority)
      Cmd.update (·.setAccount handle {account with staged := some ⟨next,growth⟩})
  | .commit handle => do
      let (account,staged) ← updateOf handle
      shared (releaseRetained account.scope (account.usage.growth staged.next))
      Cmd.update (·.setAccount handle {account with usage := staged.next, staged := none})
  | .cancel handle => do
      let (account,staged) ← updateOf handle
      shared (releaseRetained account.scope staged.growth)
      Cmd.update (·.setAccount handle {account with staged := none})
  | .dropAccount handle => do
      let account ← accountOf handle
      Cmd.demand (account.staged.isNone = true) .unheld
      shared (releaseRetained account.scope account.usage)
      Cmd.update fun w => {w with accounts := w.accounts.erase handle}

/-- A new budget with the given cover allowances. -/
def start (limits : Scope → ℕ) : World where
  state :=
    { resources := ⟨0,0,0,0⟩, attempts := ∅, locals := fun _ => ⟨0,0,0,0⟩, coverLimits := limits
      covers := fun _ => 0, retained := ⟨0,0⟩ }
  reservations := SortedMap.empty
  accounts := SortedMap.empty
  fresh := 0

def withCoverReserve (coverLimit : ℕ) : World := start ![coverLimit,0]

def pair (coverLimit : ℕ) : World := start ![coverLimit,coverLimit]

/-- The world after a sequence of calls, whatever their results. -/
def after (w : World) : List Event → World
  | [] => w
  | e::es => after (exec e w).2 es

end Gcoms.SchedulerBudget
