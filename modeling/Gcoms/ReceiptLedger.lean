import Gcoms.FlowWindow
import Gcoms.UndoLogs

/-!
# The ledger of logical receipts

A node remembers which application records it has accepted from which peer, so
that a record sent again over a replacement session takes effect once. A
receipt is kept until its horizon has passed or until the counter of its own
acknowledgement has been credited. An acknowledgement that cannot be sent yet
is an obligation in `pending`. The clock of the ledger never goes back: `now`
reads the later of the caller's clock and the highest clock seen before.

A stage changes the ledger ahead of the database transaction that makes the
effect durable and returns an `Undo` for the case that this transaction fails.
-/
namespace Gcoms.ReceiptLedger
open ByteCodec SortedMaps UndoLogs Primitives FlowWindow

def maxReceipts : ℕ := 2048
def maxPerPeer : ℕ := 128
def maxPendingAcks : ℕ := 1024

/-- The hash of the peer and the id of the record, ordered lexicographically. -/
abbrev Key := Block 32 ×ₗ Block 16

/-- The session tag and the counter under which an acknowledgement was sent. -/
abbrev Barrier := Block 16 × U64

structure Receipt where
  hash : Block 32
  horizon : U64
  ack : Option Barrier
  deriving DecidableEq

structure PendingAck where
  expires : U64
  sharePresence : Bool
  deriving DecidableEq

@[ext] structure Ledger where
  entries : SortedMap Key Receipt
  legacy : SortedMap (Block 32) Barrier
  pending : SortedMap Key PendingAck
  clockFloor : U64
  deriving DecidableEq

structure Undo where
  clockFloor : U64
  inserted : Option Key
  removed : List (Key × Receipt)
  legacy : Option (Block 32 × Barrier)
  pendingInserted : Option Key
  pendingRemoved : List (Key × PendingAck)

def saturatingAdd (a : U64) (n : ℕ) : U64 := ⟨min (a.val+n) (2^64-1),by omega⟩

/-- The entries of one peer. -/
def ofPeer {V : Type} (peer : Block 32) (es : List (Key × V)) : List (Key × V) :=
  es.filter (fun e => (ofLex e.1).1 = peer)

section Model
variable (P : Suite)

def peerKey (peer : Bytes) : Block 32 := P.sha256 peer

def keyOf (peer : Bytes) (id : Block 16) : Key := toLex (peerKey P peer,id)

namespace Ledger

def empty : Ledger := ⟨.empty,.empty,.empty,0⟩

def now (l : Ledger) (now : U64) : U64 := max now l.clockFloor

/-- `true` for a record that is known already, `false` for a new one. -/
def check (l : Ledger) (peer : Bytes) (id : Block 16) (hash : Block 32) (horizon now : U64) :
    Except String Bool :=
  let now := l.now now
  if horizon ≤ now then .error "expired GC/2 logical record"
  else
    let key := keyOf P peer id
    match l.entries.find? key with
    | some receipt =>
        if receipt.hash ≠ hash ∨ receipt.horizon ≠ horizon then
          .error "conflicting GC/2 logical record"
        else .ok true
    | none =>
        let live := l.entries.entries.filter (fun e => e.2.horizon > now)
        if live.length ≥ maxReceipts ∨ (ofPeer (ofLex key).1 live).length ≥ maxPerPeer then
          .error "GC/2 logical receipt capacity reached"
        else .ok false

def expire (l : Ledger) (now : U64) : Undo × Ledger :=
  let floor := l.now now
  ({ clockFloor := l.clockFloor
     inserted := none
     removed := l.entries.entries.filter (fun e => e.2.horizon ≤ floor)
     legacy := none
     pendingInserted := none
     pendingRemoved := l.pending.entries.filter (fun e => e.2.expires ≤ floor) },
   { l with
     entries := l.entries.retain (fun _ r => r.horizon > floor)
     pending := l.pending.retain (fun _ a => a.expires > floor)
     clockFloor := floor })

def stageData (l : Ledger) (peer : Bytes) (id : Block 16) (hash : Block 32) (horizon : U64)
    (ack : Barrier) (now : U64) : Except String Undo × Ledger :=
  match l.check P peer id hash horizon now with
  | .error e => (.error e,l)
  | .ok _ =>
      let undo := (l.expire now).1
      let l₁ := (l.expire now).2
      let key := keyOf P peer id
      (.ok { undo with
        inserted := some key
        removed := undo.removed++displaced l₁.entries key
        pendingRemoved := undo.pendingRemoved++displaced l₁.pending key },
       { l₁ with
        entries := l₁.entries.insert key ⟨hash,horizon,some ack⟩
        pending := l₁.pending.erase key })

/-- The receipts of a peer whose own acknowledgement `window` reports as credited. -/
def settled (peer : Block 32) (window : Window) (key : Key) (receipt : Receipt) : Bool :=
  (ofLex key).1 = peer &&
    receipt.ack.any (fun b => b.1 = window.session && window.isCredited b.2.val)

/-- Drops the barrier of a peer once everything up to its counter is credited. -/
def releaseLegacy (legacy : SortedMap (Block 32) Barrier) (peer : Block 32) (window : Window) :
    Option (Block 32 × Barrier) × SortedMap (Block 32) Barrier :=
  match legacy.find? peer with
  | none => (none,legacy)
  | some barrier =>
      if barrier.1 = window.session ∧ barrier.2.val ≤ window.credited.floor then
        (some (peer,barrier),legacy.erase peer)
      else (none,legacy)

def stageCredit (l : Ledger) (peer : Bytes) (window : Window) (now : U64) : Undo × Ledger :=
  let undo := (l.expire now).1
  let l₁ := (l.expire now).2
  let peer := peerKey P peer
  let released := releaseLegacy l₁.legacy peer window
  ({ undo with
    removed := undo.removed++l₁.entries.entries.filter (fun e => settled peer window e.1 e.2)
    legacy := released.1 },
   { l₁ with
    entries := l₁.entries.retain (fun k r => !settled peer window k r)
    legacy := released.2 })

def restoreLegacy (legacy : SortedMap (Block 32) Barrier) :
    Option (Block 32 × Barrier) → SortedMap (Block 32) Barrier
  | none => legacy
  | some (peer,barrier) => legacy.insert peer barrier

def rollback (l : Ledger) (u : Undo) : Ledger where
  entries := undo l.entries u.inserted u.removed
  legacy := restoreLegacy l.legacy u.legacy
  pending := undo l.pending u.pendingInserted u.pendingRemoved
  clockFloor := u.clockFloor

/-- The check of the record itself, for an acknowledgement that belongs to one. -/
def checkApplication (l : Ledger) (peer : Bytes) (id : Block 16)
    (application : Option (Block 32 × U64)) (now : U64) : Except String Unit :=
  match application with
  | none => .ok ()
  | some (hash,horizon) => (l.check P peer id hash horizon now).map (fun _ => ())

/-- The conditions under which an acknowledgement may be deferred. -/
def checkDeferred (l : Ledger) (peer : Bytes) (id : Block 16)
    (application : Option (Block 32 × U64)) (now : U64) : Except String Unit :=
  let key := keyOf P peer id
  match l.checkApplication P peer id application now with
  | .error e => .error e
  | .ok _ =>
      let existing := (l.entries.find? key).filter (fun r => r.horizon > now)
      let pending := (l.pending.find? key).filter (fun a => a.expires > now)
      if (application.isNone && existing.isSome) ||
          (application.isSome && (pending.isSome && existing.isNone)) then
        .error "conflicting GC/2 deferred ACK identity"
      else
        let live := l.pending.entries.filter (fun e => e.2.expires > now)
        if pending.isNone && (live.length ≥ maxPendingAcks ||
            (ofPeer (ofLex key).1 live).length ≥ maxPerPeer) then
          .error "GC/2 deferred ACK capacity reached"
        else .ok ()

/-- An obligation lasts as long as its record, or ten minutes, and never longer
than the obligation it replaces. -/
def deferredExpiry (pending : SortedMap Key PendingAck) (key : Key)
    (application : Option (Block 32 × U64)) (now : U64) : U64 :=
  let expires := (application.map Prod.snd).getD (saturatingAdd now 600)
  match pending.find? key with
  | none => expires
  | some old => min expires old.expires

def stageDeferredAck (l : Ledger) (peer : Bytes) (id : Block 16)
    (application : Option (Block 32 × U64)) (sharePresence : Bool) (now : U64) :
    Except String Undo × Ledger :=
  let key := keyOf P peer id
  let now := l.now now
  match l.checkDeferred P peer id application now with
  | .error e => (.error e,l)
  | .ok _ =>
      let undo := (l.expire now).1
      let l₁ := (l.expire now).2
      let expires := deferredExpiry l₁.pending key application now
      let undo := { undo with
        pendingInserted := some key
        pendingRemoved := undo.pendingRemoved++displaced l₁.pending key }
      let l₂ := { l₁ with pending := l₁.pending.insert key ⟨expires,sharePresence⟩ }
      match application with
      | none => (.ok undo,l₂)
      | some (hash,horizon) =>
          (.ok { undo with
            inserted := some key
            removed := undo.removed++displaced l₂.entries key },
           { l₂ with entries := l₂.entries.insert key ⟨hash,horizon,none⟩ })

def stagePreparedAck (l : Ledger) (key : Key) (ack : Barrier) (now : U64) : Undo × Ledger :=
  let undo := (l.expire now).1
  let l₁ := (l.expire now).2
  match l₁.pending.find? key with
  | none => (undo,l₁)
  | some _ =>
      let undo := { undo with pendingRemoved := undo.pendingRemoved++displaced l₁.pending key }
      let l₂ := { l₁ with pending := l₁.pending.erase key }
      match l₂.entries.find? key with
      | none => (undo,l₂)
      | some receipt =>
          ({ undo with
            inserted := some key
            removed := undo.removed++displaced l₂.entries key },
           { l₂ with entries := l₂.entries.insert key { receipt with ack := some ack } })

end Ledger

/-! ## The four stages as one operation -/

inductive Stage
  | data (peer : Bytes) (id : Block 16) (hash : Block 32) (horizon : U64) (ack : Barrier)
  | credit (peer : Bytes) (window : Window)
  | deferredAck (peer : Bytes) (id : Block 16) (application : Option (Block 32 × U64))
      (sharePresence : Bool)
  | preparedAck (key : Key) (ack : Barrier)

def Ledger.stage (l : Ledger) (now : U64) : Stage → Except String Undo × Ledger
  | .data peer id hash horizon ack => l.stageData P peer id hash horizon ack now
  | .credit peer window =>
      let r := l.stageCredit P peer window now
      (.ok r.1,r.2)
  | .deferredAck peer id application sharePresence =>
      l.stageDeferredAck P peer id application sharePresence now
  | .preparedAck key ack =>
      let r := l.stagePreparedAck key ack now
      (.ok r.1,r.2)

end Model

/-! ## Undoing a stage -/

/-- What `u` has to record for `rollback` to lead from `l'` back to `l`. -/
structure Reverts (l l' : Ledger) (u : Undo) : Prop where
  entries : Undoes l.entries l'.entries u.inserted u.removed
  pending : Undoes l.pending l'.pending u.pendingInserted u.pendingRemoved
  legacy : Ledger.restoreLegacy l'.legacy u.legacy = l.legacy
  clock : u.clockFloor = l.clockFloor

theorem Reverts.rollback_eq {l l' : Ledger} {u : Undo} (h : Reverts l l' u) :
    l'.rollback u = l := by
  apply Ledger.ext
  · exact h.entries.undo_eq
  · exact h.legacy
  · exact h.pending.undo_eq
  · exact h.clock

theorem expire_reverts (l : Ledger) (now : U64) :
    Reverts l (l.expire now).2 (l.expire now).1 where
  entries := by
    apply ((Undoes.refl l.entries).retain (fun _ r => r.horizon > l.now now)).congr
    simp [Ledger.expire]
  pending := by
    apply ((Undoes.refl l.pending).retain (fun _ a => a.expires > l.now now)).congr
    simp [Ledger.expire]
  legacy := rfl
  clock := rfl

theorem releaseLegacy_reverts (legacy : SortedMap (Block 32) Barrier) (peer : Block 32)
    (window : Window) :
    Ledger.restoreLegacy (Ledger.releaseLegacy legacy peer window).2
      (Ledger.releaseLegacy legacy peer window).1 = legacy := by
  simp only [Ledger.releaseLegacy]
  cases hf : legacy.find? peer with
  | none => rfl
  | some barrier =>
      have he := ((Undoes.refl legacy).erase peer).undo_eq
      simp only [undo,displaced,hf] at he
      dsimp only
      split_ifs
      · exact he
      · rfl

section Reverting
variable (P : Suite) (l : Ledger) (now : U64)

theorem stageData_reverts {peer : Bytes} {id : Block 16} {hash : Block 32} {horizon : U64}
    {ack : Barrier} {u : Undo} {l' : Ledger}
    (h : l.stageData P peer id hash horizon ack now = (.ok u,l')) : Reverts l l' u := by
  have he := expire_reverts l now
  simp only [Ledger.stageData] at h
  split at h
  · cases h
  · cases h
    exact {
      entries := he.entries.insert _ _
      pending := he.pending.erase _
      legacy := he.legacy
      clock := he.clock }

theorem stageCredit_reverts (peer : Bytes) (window : Window) :
    Reverts l (l.stageCredit P peer window now).2 (l.stageCredit P peer window now).1 where
  entries := by
    have he := (expire_reverts l now).entries.retain
      (fun k r => !Ledger.settled (peerKey P peer) window k r)
    simp only [Bool.not_not] at he
    exact he
  pending := (expire_reverts l now).pending
  legacy := releaseLegacy_reverts l.legacy (peerKey P peer) window
  clock := rfl

theorem stageDeferredAck_reverts {peer : Bytes} {id : Block 16}
    {application : Option (Block 32 × U64)} {sharePresence : Bool} {u : Undo} {l' : Ledger}
    (h : l.stageDeferredAck P peer id application sharePresence now = (.ok u,l')) :
    Reverts l l' u := by
  have he := expire_reverts l (l.now now)
  simp only [Ledger.stageDeferredAck] at h
  split at h
  · cases h
  · cases application with
    | none =>
        cases h
        exact {
          entries := he.entries
          pending := he.pending.insert _ _
          legacy := he.legacy
          clock := he.clock }
    | some application =>
        cases h
        exact {
          entries := he.entries.insert _ _
          pending := he.pending.insert _ _
          legacy := he.legacy
          clock := he.clock }

theorem stagePreparedAck_reverts (key : Key) (ack : Barrier) :
    Reverts l (l.stagePreparedAck key ack now).2 (l.stagePreparedAck key ack now).1 := by
  have he := expire_reverts l now
  simp only [Ledger.stagePreparedAck]
  split
  · exact he
  · have hp : Reverts l { (l.expire now).2 with pending := (l.expire now).2.pending.erase key }
        { (l.expire now).1 with pendingRemoved :=
          (l.expire now).1.pendingRemoved++displaced (l.expire now).2.pending key } :=
      { he with pending := he.pending.erase key }
    split
    · exact hp
    · exact { hp with entries := he.entries.insert _ _ }

end Reverting

theorem stage_reverts (P : Suite) {l l' : Ledger} {now : U64} {s : Stage} {u : Undo}
    (h : l.stage P now s = (.ok u,l')) : Reverts l l' u := by
  cases s with
  | data => exact stageData_reverts P l now h
  | credit peer window =>
      cases h
      exact stageCredit_reverts P l now peer window
  | deferredAck => exact stageDeferredAck_reverts P l now h
  | preparedAck key ack =>
      cases h
      exact stagePreparedAck_reverts l now key ack

theorem stage_error (P : Suite) {l l' : Ledger} {now : U64} {s : Stage} {e : String}
    (h : l.stage P now s = (.error e,l')) : l' = l := by
  cases s with
  | data =>
      simp only [Ledger.stage,Ledger.stageData] at h
      split at h <;> cases h
      rfl
  | credit => cases h
  | deferredAck peer id application =>
      simp only [Ledger.stage,Ledger.stageDeferredAck] at h
      split at h
      · cases h
        rfl
      · cases application <;> cases h
  | preparedAck => cases h

/-- Whatever a stage did to the ledger, its undo record takes back, and a stage
that fails has done nothing. -/
theorem stage_undone (P : Suite) (l : Ledger) (now : U64) (s : Stage) :
    match l.stage P now s with
    | (.ok u,l') => l'.rollback u = l
    | (.error _,l') => l' = l := by
  cases h : l.stage P now s with
  | mk result l' =>
      cases result with
      | ok u => exact (stage_reverts P h).rollback_eq
      | error e => exact stage_error P h

end Gcoms.ReceiptLedger
