import Gcoms.LeaseSteps

/-!
# What the operations of the lease store do

After the cleanup an operation refuses, or it makes a short sequence of edits: it
adds a grant, updates a lease, creates or removes a lease with its queue, appends
a message to one of the three lanes of a queue, removes the head of one, or wakes
its subscribers. An edit carries the conditions under which the operations make
it, so that properties of whole runs are proved edit by edit.

One theorem for each operation says what its success implies.
-/
namespace Gcoms.LeaseEdits
open ByteCodec SortedMaps Primitives Commands RelayCells RelayCodec LeaseCodec LeaseStore LeaseSteps

/-! ## Edits -/

/-- The queue and the byte count of the relay after a change of one queue. -/
def setQueue (s : Store) (q : QueueId) (queue : Queue) (total : ℕ) : Store :=
  { s with queues := { s.queues with
    queues := s.queues.queues.insert q queue, totalBytes := total } }

def setLease (s : Store) (q : QueueId) (l : LeaseRecord) : Store :=
  { s with leases := s.leases.insert q l }

def setGrant (s : Store) (id : GrantId) (g : GrantRecord) : Store :=
  { s with grants := s.grants.insert id g }

def addQueue (s : Store) (q : QueueId) : Store :=
  { s with queues := { s.queues with
    queues := s.queues.queues.insert q ⟨0,[],.new s.queues.nextGeneration⟩
    nextGeneration := s.queues.nextGeneration+1 } }

theorem setQueue_find? (s : Store) (q : QueueId) (queue : Queue) (total : ℕ) (a : QueueId) :
    (setQueue s q queue total).queues.queues.find? a =
      if a = q then some queue else s.queues.queues.find? a := by
  simp [setQueue,SortedMap.find?_insert]

theorem setLease_find? (s : Store) (q : QueueId) (l : LeaseRecord) (a : QueueId) :
    (setLease s q l).leases.find? a = if a = q then some l else s.leases.find? a := by
  simp [setLease,SortedMap.find?_insert]

theorem setGrant_find? (s : Store) (id : GrantId) (g : GrantRecord) (a : GrantId) :
    (setGrant s id g).grants.find? a = if a = id then some g else s.grants.find? a := by
  simp [setGrant,SortedMap.find?_insert]

theorem addQueue_find? (s : Store) (q a : QueueId) : (addQueue s q).queues.queues.find? a =
    if a = q then some ⟨0,[],.new s.queues.nextGeneration⟩ else s.queues.queues.find? a := by
  simp [addQueue,SortedMap.find?_insert]

/-- What an edit does to grants, to incarnations of queues and to their lanes. -/
inductive Effect where
  | grant (id : GrantId) (temporaryExpiry : Option ℕ)
  | create (id : GrantId) (generation : ℕ)
  | remove (q : QueueId)
  | append (generation : ℕ) (x : Lane) (item : Item)
  | pop (generation : ℕ) (x : Lane) (item : Item)
  deriving DecidableEq

inductive Edit (s : Store) : Store → List Effect → Prop
  | grant (id : GrantId) (g : GrantRecord) (hnew : s.grants.find? id = none)
      (hroom : s.grants.size < s.config.maxGrants) (hstatus : g.status = .unconsumed) :
      Edit s (setGrant s id g) [.grant id g.temporaryExpiry]
  | lease (q : QueueId) (l l' : LeaseRecord) (hl : s.leases.find? q = some l)
      (hu : LeaseUpdate l l') : Edit s (setLease s q l') []
  | create (q : QueueId) (l : LeaseRecord) (id : GrantId) (g : GrantRecord)
      (hg : s.grants.find? id = some g) (hstatus : g.status = .unconsumed)
      (hl : s.leases.find? q = none) (hq : s.queues.queues.find? q = none)
      (hroom : s.queues.queues.size < s.queues.maxQueues)
      (hcached : l.nextReplayExpiry = earliest l.replay)
      (htemp : l.temporaryExpiry = g.temporaryExpiry)
      (hbound : withinBound l.temporaryExpiry l.expiry = true) :
      Edit s (setGrant (setLease (addQueue s q) q l) id { g with status := .consumed })
        [.create id s.queues.nextGeneration]
  | remove (q : QueueId) : Edit s (s.removeLease q) [.remove q]
  | append (q : QueueId) (l : LeaseRecord) (queue queue' : Queue) (x : Lane) (item : Item)
      (hl : s.leases.find? q = some l) (hq : s.queues.queues.find? q = some queue)
      (happ : Appended queue queue' x item)
      (htotal : s.queues.totalBytes+item.len ≤ s.config.maxTotalQueueBytes)
      (hcells : queue.len+1 ≤ l.limits.maxQueueCells)
      (hbytes : queue'.bytes ≤ l.limits.maxQueueBytes) :
      Edit s (setQueue s q queue' (s.queues.totalBytes+item.len))
        [.append queue.classes.generation x item]
  | pop (q : QueueId) (queue queue' : Queue) (x : Lane) (item : Item)
      (hq : s.queues.queues.find? q = some queue) (hpop : Popped queue queue' x item) :
      Edit s (setQueue s q queue' (s.queues.totalBytes-item.len))
        [.pop queue.classes.generation x item]
  | wake (q : QueueId) (queue : Queue) (hq : s.queues.queues.find? q = some queue) :
      Edit s (setQueue s q { queue with classes := queue.classes.wakeAll } s.queues.totalBytes) []

/-! ## Shared steps -/

section Steps
variable {α : Type} {s s' : Store} {now : ℕ} {b : α}

theorem checkedAdd_eq_some {a b c : ℕ} : checkedAdd a b = some c ↔ a+b < 2^64 ∧ a+b = c := by
  unfold checkedAdd
  split_ifs with h
  · simp only [Option.some.injEq,h,true_and]
  · simp only [h,false_and]

theorem policyOf_bind_ok {horizon : StoreConfig → ℕ} {f : ValidationPolicy → Op α} :
    (policyOf now horizon >>= f) s = (.ok b,s') ↔
      ∃ p, s.policy now (horizon s.config) = .ok p ∧ f p s = (.ok b,s') := by
  rw [policyOf,bind_assoc_run,read_bind,attempt_bind_ok]
  rfl

theorem shortQueueId_bind_ok {wire : Bytes} {f : QueueId → Op α} :
    (shortQueueId wire >>= f) s = (.ok b,s') ↔
      34 ≤ wire.length ∧ f (blockAt 32 wire 2) s = (.ok b,s') := by
  rw [shortQueueId,bind_assoc_run,demand_bind_ok]
  rfl

theorem leaseOf_bind_ok {q : QueueId} {f : LeaseRecord → Op α} :
    (leaseOf q >>= f) s = (.ok b,s') ↔
      ∃ l, s.leases.find? q = some l ∧ f l s = (.ok b,s') := by
  rw [leaseOf,bind_assoc_run,read_bind,obtain_bind_ok]
  rfl

theorem purgedLeaseOf_bind_run (ht : Tidy now s) (q : QueueId) (f : LeaseRecord → Op α) :
    (purgedLeaseOf q now >>= f) s = (leaseOf q >>= f) s := by
  rw [purgedLeaseOf,bind_assoc_run,leaseOf,bind_assoc_run,bind_assoc_run,read_bind,read_bind]
  cases hf : s.leases.find? q with
  | none => simp [bind_run,Cmd.obtain,hf]
  | some l =>
      have hp := ht q l hf
      have hs : { s with leases := s.leases.insert q l } = s := by
        rw [SortedMap.insert_of_find? hf]
      simp [bind_run,Cmd.obtain,hf,hp,putLease,Cmd.update,hs,pure_run]

theorem purgedLeaseOf_bind_ok (ht : Tidy now s) {q : QueueId} {f : LeaseRecord → Op α} :
    (purgedLeaseOf q now >>= f) s = (.ok b,s') ↔
      ∃ l, s.leases.find? q = some l ∧ f l s = (.ok b,s') := by
  rw [purgedLeaseOf_bind_run ht,leaseOf_bind_ok]

theorem queueOf_bind_ok {q : QueueId} {message : String} {f : Queue → Op α} :
    (queueOf q message >>= f) s = (.ok b,s') ↔
      ∃ queue, s.queues.queues.find? q = some queue ∧ f queue s = (.ok b,s') := by
  rw [queueOf,bind_assoc_run,read_bind,obtain_bind_ok]
  rfl

theorem putGrant_bind (id : GrantId) (g : GrantRecord) (f : Unit → Op α) :
    (putGrant id g >>= f) s = f () (setGrant s id g) := rfl

theorem putLease_bind (q : QueueId) (l : LeaseRecord) (f : Unit → Op α) :
    (putLease q l >>= f) s = f () (setLease s q l) := rfl

theorem putQueue_bind (q : QueueId) (queue : Queue) (total : ℕ) (f : Unit → Op α) :
    (putQueue q queue total >>= f) s = f () (setQueue s q queue total) := rfl

theorem cleanup_bind (f : Unit → Op α) : (cleanup now >>= f) s = f () (s.cleanupExpired now) := rfl

theorem totalAfter_bind_ok {n : ℕ} {f : ℕ → Op α} :
    (totalAfter n >>= f) s = (.ok b,s') ↔
      s.queues.totalBytes+n < 2^64 ∧ s.queues.totalBytes+n ≤ s.config.maxTotalQueueBytes ∧
        f (s.queues.totalBytes+n) s = (.ok b,s') := by
  rw [totalAfter,bind_assoc_run,read_bind,bind_assoc_run,obtain_bind_ok]
  simp only [id,checkedAdd_eq_some]
  constructor
  · rintro ⟨t,⟨hlt,rfl⟩,h⟩
    rw [bind_assoc_run,demand_bind_ok] at h
    exact ⟨hlt,h.1,h.2⟩
  · rintro ⟨hlt,hle,h⟩
    refine ⟨_,⟨hlt,rfl⟩,?_⟩
    rw [bind_assoc_run,demand_bind_ok]
    exact ⟨hle,h⟩

theorem recordPush_bind_ok {q : QueueId} {l : LeaseRecord} {r : ReplayRecord} {f : Unit → Op α} :
    (recordPush q l r >>= f) s = (.ok b,s') ↔
      ∃ l', l.recordReplay r s.config.maxReplayNoncesPerLease = .ok l' ∧
        f () (setLease s q l') = (.ok b,s') := by
  rw [recordPush,bind_assoc_run,read_bind,bind_assoc_run,attempt_bind_ok]
  rfl

theorem subtract_bind_ok {m n : ℕ} {f : ℕ → Op α} :
    (subtract m n >>= f) s = (.ok b,s') ↔ n ≤ m ∧ f (m-n) s = (.ok b,s') := by
  rw [subtract,bind_assoc_run,demand_bind_ok]
  rfl

end Steps

/-! ## What the decoders fix -/

section Decoders
variable {P : Suite}

theorem short_ok {wire : Bytes} {operation : ℕ} {domain : Bytes} {key service : Block 32}
    {v : Short} (h : Short.decode P wire operation domain key service = .ok v) :
    v.queueId = blockAt 32 wire 2 ∧ v.epoch = wordAt 8 wire 34 := by
  simp only [Short.decode,Fallible.sequence_eq_ok,Fallible.done_eq_ok] at h
  obtain ⟨_,_,_,_,_,_,rfl⟩ := h
  exact ⟨rfl,rfl⟩

theorem renew_decoded {wire : Bytes} {cap service : Block 32} {expiry : ℕ} {p : ValidationPolicy}
    {v : Short} (h : renewDecodeAndVerify P wire cap service expiry p = .ok v) :
    v.queueId = blockAt 32 wire 2 ∧ v.epoch = wordAt 8 wire 34 := by
  simp only [renewDecodeAndVerify,Fallible.sequence_eq_ok,Fallible.done_eq_ok] at h
  obtain ⟨w,hw,_,_,_,_,_,_,_,_,rfl⟩ := h
  exact short_ok hw

theorem revoke_decoded {wire : Bytes} {cap service : Block 32} {p : ValidationPolicy}
    {v : Short} (h : revokeDecodeAndVerify P wire cap service p = .ok v) :
    v.queueId = blockAt 32 wire 2 ∧ v.epoch = wordAt 8 wire 34 := by
  simp only [revokeDecodeAndVerify,Fallible.sequence_eq_ok,Fallible.done_eq_ok] at h
  obtain ⟨w,hw,_,_,_,_,_,_,rfl⟩ := h
  exact short_ok hw

theorem rotate_decoded {wire : Bytes} {caps : Capabilities} {service : Block 32}
    {p : ValidationPolicy} {v : LeaseRotate}
    (h : LeaseRotate.decodeAndVerify P wire caps service p = .ok v) :
    v.queueId = blockAt 32 wire 2 ∧ v.oldEpoch = wordAt 8 wire 34 ∧ v.newEpoch = v.oldEpoch+1 := by
  simp only [LeaseRotate.decodeAndVerify,LeaseRotate.validate,Fallible.sequence_eq_ok,
    Fallible.done_eq_ok,Fallible.require_eq_ok,Fallible.found_eq_ok,checkedAdd_eq_some] at h
  obtain ⟨_,_,_,_,_,_,_,⟨_,_,e,⟨_,he⟩,_,hn,_⟩,rfl⟩ := h
  exact ⟨rfl,rfl,hn.trans he.symm⟩

theorem request_decoded {wire : Bytes} {cap service : Block 32} {q : QueueId} {epoch : ℕ}
    {p : ValidationPolicy} {v : DynamicGrantRequest}
    (h : DynamicGrantRequest.decodeAndVerify P wire cap service q epoch p = .ok v) :
    v = DynamicGrantRequest.decodeBody wire ∧ wordAt 8 wire 34 = epoch := by
  simp only [DynamicGrantRequest.decodeAndVerify,Fallible.sequence_eq_ok,Fallible.done_eq_ok,
    Fallible.require_eq_ok] at h
  obtain ⟨_,_,_,_,_,_,_,⟨_,he⟩,_,_,_,_,rfl⟩ := h
  exact ⟨rfl,he⟩

theorem create_decoded {wire : Bytes} {key service : Block 32} {p p' : ValidationPolicy}
    {limits : LeaseLimits} {v : LeaseCreate}
    (h : LeaseCreate.decodeAndVerify P wire key service p p' limits = .ok v) :
    v = LeaseCreate.decodeBody wire := by
  simp only [LeaseCreate.decodeAndVerify,Fallible.sequence_eq_ok,Fallible.done_eq_ok] at h
  obtain ⟨_,_,_,_,_,_,_,_,_,_,_,_,rfl⟩ := h
  rfl

theorem sub_decoded {cell : Cell} {cap service : Block 32} {now : ℕ} {v : RelaySub}
    (h : RelaySub.decodeFromCell P cell cap service now = .ok v) :
    v.epoch = wordAt 8 cell.payload 34 := by
  simp only [RelaySub.decodeFromCell,Fallible.sequence_eq_ok,Fallible.done_eq_ok] at h
  obtain ⟨_,_,_,_,_,_,_,_,_,_,rfl⟩ := h
  rfl

theorem body_ok {cell : NaturalCell} {kind : CellType} {bytes : Bytes}
    (h : Gc2.body cell kind = .ok bytes) :
    bytes = cell.payload.take (cell.payload.length-Gc2.tagLen) := by
  simp only [Gc2.body,Fallible.sequence_eq_ok,Fallible.done_eq_ok] at h
  obtain ⟨_,_,_,_,rfl⟩ := h
  rfl

theorem authenticate_ok {cell : NaturalCell} {kind : CellType} {cap service : Block 32}
    {bytes : Bytes} (h : Gc2.authenticate P cell kind cap service = .ok bytes) :
    Gc2.body cell kind = .ok bytes := by
  simp only [Gc2.authenticate,Fallible.sequence_eq_ok,Fallible.done_eq_ok] at h
  obtain ⟨b,hb,_,_,_,_,rfl⟩ := h
  exact hb

theorem subGc2_decoded {cell : NaturalCell} {cap service : Block 32} {now : ℕ}
    {v : Gc2.Subscription} (h : Gc2.Subscription.decode P cell cap service now = .ok v) :
    v.epoch = wordAt 8 (cell.payload.take (cell.payload.length-Gc2.tagLen)) 33 := by
  simp only [Gc2.Subscription.decode,Fallible.sequence_eq_ok,Fallible.done_eq_ok] at h
  obtain ⟨bytes,hb,_,_,_,_,_,_,rfl⟩ := h
  rw [← body_ok (authenticate_ok hb)]

/-- The message inside a GC/1 deposit. -/
def innerCell (p : PushParts) : Option Cell :=
  if p.msgLen = 0 then none else some (decodeValidatedNatural p.msgNatural)

theorem push_decoded {p : UnauthenticatedRelayPush} {cap service : Block 32} {now : ℕ}
    {v : RelayPush} (h : p.authenticate P cap service now = .ok v) :
    v = ⟨p.parts.queueId,p.parts.epoch,p.parts.pushNonce,p.parts.pushExpiry,innerCell p.parts⟩ ∧
      now < p.parts.pushExpiry := by
  simp only [UnauthenticatedRelayPush.authenticate,Fallible.sequence_eq_ok,rejectExpired,
    Fallible.require_eq_ok] at h
  obtain ⟨_,_,_,hlt,h⟩ := h
  refine ⟨?_,hlt⟩
  by_cases hz : p.parts.msgLen = 0
  · simp only [hz,if_true,Fallible.sequence_eq_ok,Fallible.done_eq_ok] at h
    obtain ⟨_,rfl,rfl⟩ := h
    simp only [innerCell,hz,if_true]
  · simp only [hz,if_false,decodeMsgNatural,Fallible.sequence_eq_ok,Fallible.done_eq_ok] at h
    obtain ⟨_,⟨_,_,rfl⟩,_,rfl,rfl⟩ := h
    simp only [innerCell,hz,if_false]

theorem pushGc2_decoded {p : Gc2.UnverifiedPush} {cap service : Block 32} {now : ℕ}
    {v : Gc2.Push} (h : p.authenticate P cap service now = .ok v) :
    v = p.push ∧ now < p.push.expiry := by
  simp only [Gc2.UnverifiedPush.authenticate,Fallible.sequence_eq_ok,Fallible.done_eq_ok,
    rejectExpired,Fallible.require_eq_ok] at h
  obtain ⟨bytes,hb,push,hp,_,hlt,rfl⟩ := h
  have hbytes : bytes = p.bytes := Except.ok.inj ((authenticate_ok hb).symm.trans p.outer)
  rw [hbytes,p.parsed] at hp
  cases hp
  exact ⟨rfl,hlt⟩

end Decoders

/-! ## What success of an operation implies -/

section Operations
variable {P : Suite} {s s' : Store} {now : ℕ}

theorem issueGrantWithBound_ok {request : GrantRequest} {temporaryExpiry : Option ℕ} {draw : Draw}
    {v : AdmissionProvision}
    (h : issueGrantWithBound P request temporaryExpiry draw now s = (.ok v,s')) :
    ∃ expiry, (s.cleanupExpired now).grants.size < (s.cleanupExpired now).config.maxGrants ∧
      s' = setGrant (s.cleanupExpired now) draw.grantId
        ⟨request.queueId,request.epoch,expiry,.unconsumed,temporaryExpiry⟩ := by
  simp only [issueGrantWithBound,cleanup_bind,read_bind,demand_bind_ok,obtain_bind_ok,
    policyOf_bind_ok,attempt_bind_ok,putGrant_bind,pure_ok,id] at h
  obtain ⟨hroom,expiry,_,_,_,_,_,_,rfl⟩ := h
  simp only [not_or,ge_iff_le,not_le] at hroom
  exact ⟨expiry,hroom.1,rfl⟩

theorem setLease_setLease (s : Store) (q : QueueId) (l l' : LeaseRecord) :
    setLease (setLease s q l) q l' = setLease s q l' := by
  have hm : (s.leases.insert q l).insert q l' = s.leases.insert q l' := by
    apply SortedMap.ext_find?
    intro a
    simp only [SortedMap.find?_insert]
    split <;> rfl
  simp only [setLease,hm]

theorem chargeAuthority_ok (ht : Tidy now s) {wire : Bytes} {request : DynamicGrantRequest}
    (h : chargeAuthority P wire now s = (.ok request,s')) :
    ∃ l l', s.leases.find? (blockAt 32 wire 2) = some l ∧ l.temporaryExpiry = none ∧
      l.epoch = wordAt 8 wire 34 ∧ l'.epoch = l.epoch ∧ LeaseUpdate l l' ∧
      request = DynamicGrantRequest.decodeBody wire ∧
      s' = setLease s (blockAt 32 wire 2) l' := by
  simp only [chargeAuthority,shortQueueId_bind_ok,read_bind,policyOf_bind_ok,leaseOf_bind_ok,
    purgedLeaseOf_bind_ok ht,demand_bind_ok,attempt_bind_ok,putLease_bind,pure_ok,id] at h
  obtain ⟨_,_,_,l₀,hl₀,htemp,l,hl,r,hr,_,_,l₁,hrec,rfl,rfl⟩ := h
  cases hl₀.symm.trans hl
  obtain ⟨hbody,hepoch⟩ := request_decoded hr
  have hu : LeaseUpdate l₀ (l₁.addSlot now) :=
    ((slots_update l₀ _).trans (recordReplay_update hrec)).trans (slots_update l₁ _)
  have hkept : l₁.epoch = l₀.epoch := (recordReplay_epoch hrec).trans rfl
  exact ⟨l₀,l₁.addSlot now,hl,htemp,hepoch.symm,hkept,hu,hbody,setLease_setLease _ _ _ _⟩

theorem create_queues_ok {qs qs' : QueueStore} {q : QueueId} (h : qs.create q = .ok qs') :
    qs.queues.size < qs.maxQueues ∧ qs.queues.find? q = none ∧ qs' = { qs with
      queues := qs.queues.insert q ⟨0,[],.new qs.nextGeneration⟩
      nextGeneration := qs.nextGeneration+1 } := by
  unfold QueueStore.create at h
  split_ifs at h with hc
  cases h
  simp only [not_or,ge_iff_le,not_le,SortedMap.contains,Bool.not_eq_true,
    Option.isSome_eq_false_iff,Option.isNone_iff_eq_none] at hc
  exact ⟨hc.1,hc.2,rfl⟩

theorem usableGrant_bind_ok {α : Type} {create : LeaseCreate} {f : GrantRecord → Op α} {b : α} :
    (usableGrant create now >>= f) s = (.ok b,s') ↔
      ∃ g, s.grants.find? (grantIdOf create) = some g ∧ g.status ≠ .consumed ∧
        (¬ (g.queueId ≠ create.queueId ∨ g.epoch ≠ create.epoch ∨ g.expiry ≤ now ∨
          withinBound g.temporaryExpiry create.leaseExpiry = false ∨
          s.leases.contains create.queueId = true)) ∧ f g s = (.ok b,s') := by
  simp only [usableGrant,bind_assoc_run,read_bind,obtain_bind_ok,demand_bind_ok,id]
  rfl

theorem createNew_ok {create : LeaseCreate} {digest : Block 32} {v : LeaseView}
    (h : createNew create digest now s = (.ok v,s')) :
    ∃ g, s.grants.find? (grantIdOf create) = some g ∧ g.status = .unconsumed ∧
      s.leases.find? create.queueId = none ∧ s.queues.queues.find? create.queueId = none ∧
      s.queues.queues.size < s.queues.maxQueues ∧
      withinBound g.temporaryExpiry create.leaseExpiry = true ∧
      s' = setGrant (setLease (addQueue s create.queueId) create.queueId
        (newLease create digest g.temporaryExpiry)) (grantIdOf create)
        { g with status := .consumed } := by
  simp only [createNew,usableGrant_bind_ok,read_bind,attempt_bind_ok,update_bind,putLease_bind,
    putGrant_bind,pure_ok,id] at h
  obtain ⟨g,hg,hstatus,hfit,qs,hqs,_,rfl⟩ := h
  obtain ⟨hroom,hq,rfl⟩ := create_queues_ok hqs
  simp only [not_or,ne_eq,not_not,Bool.not_eq_false,SortedMap.contains,Bool.not_eq_true,
    Option.isSome_eq_false_iff,Option.isNone_iff_eq_none] at hfit
  have hun : g.status = .unconsumed := by
    cases hs : g.status with
    | unconsumed => rfl
    | consumed => exact absurd hs hstatus
  exact ⟨g,hg,hun,hfit.2.2.2.2,hq,hroom,hfit.2.2.2.1,rfl⟩

theorem createLease_ok {wire : Bytes} {v : LeaseView}
    (h : createLease P wire now s = (.ok v,s')) :
    (s' = s.cleanupExpired now ∧
      ∃ l, (s.cleanupExpired now).leases.find? (LeaseCreate.decodeBody wire).queueId = some l) ∨
    createNew (LeaseCreate.decodeBody wire) (P.sha256 wire) now (s.cleanupExpired now) =
      (.ok v,s') := by
  simp only [createLease,cleanup_bind,read_bind,policyOf_bind_ok,attempt_bind_ok,id] at h
  obtain ⟨_,_,_,_,create,hc,h⟩ := h
  obtain rfl := create_decoded hc
  cases hb : createdBefore (s.cleanupExpired now) (LeaseCreate.decodeBody wire) (P.sha256 wire) with
  | some l =>
      simp only [hb,pure_ok] at h
      exact .inl ⟨h.2.symm,l,(Option.filter_eq_some_iff.mp hb).1⟩
  | none =>
      simp only [hb] at h
      exact .inr h

theorem renew_ok {wire : Bytes} {v : LeaseView} (h : renew P wire now s = (.ok v,s')) :
    ∃ l l', (s.cleanupExpired now).leases.find? (blockAt 32 wire 2) = some l ∧
      l.epoch = wordAt 8 wire 34 ∧ l'.epoch = l.epoch ∧ LeaseUpdate l l' ∧
      s' = setLease (s.cleanupExpired now) (blockAt 32 wire 2) l' := by
  simp only [renew,cleanup_bind,shortQueueId_bind_ok,policyOf_bind_ok,read_bind,
    purgedLeaseOf_bind_ok (cleanup_tidy s now),attempt_bind_ok,demand_bind_ok,putLease_bind,
    pure_ok,id] at h
  obtain ⟨_,_,_,l,hl,v,hv,_,hb,hbound,_,l',hrec,_,rfl⟩ := h
  obtain ⟨_,hepoch⟩ := requireBinding_ok hb
  have hkept : l'.epoch = l.epoch := recordReplay_epoch hrec
  exact ⟨l,{ l' with expiry := v.expiry },hl,hepoch.trans (renew_decoded hv).2,hkept,
    (recordReplay_update hrec).setExpiry hbound,rfl⟩

theorem rotate_ok {wire : Bytes} {v : LeaseView} (h : rotate P wire now s = (.ok v,s')) :
    ∃ l l' queue, (s.cleanupExpired now).leases.find? (blockAt 32 wire 2) = some l ∧
      l.epoch = wordAt 8 wire 34 ∧ l'.epoch = l.epoch+1 ∧ LeaseUpdate l l' ∧
      (s.cleanupExpired now).queues.queues.find? (blockAt 32 wire 2) = some queue ∧
      v = l'.view ∧
      s' = setQueue (setLease (s.cleanupExpired now) (blockAt 32 wire 2) l') (blockAt 32 wire 2)
        { queue with classes := queue.classes.wakeAll }
        (s.cleanupExpired now).queues.totalBytes := by
  simp only [rotate,cleanup_bind,shortQueueId_bind_ok,policyOf_bind_ok,read_bind,
    purgedLeaseOf_bind_ok (cleanup_tidy s now),attempt_bind_ok,demand_bind_ok,putLease_bind,
    queueOf_bind_ok,putQueue_bind,pure_ok,id] at h
  obtain ⟨_,_,_,l,hl,v,hv,_,hb,hbound,queue,hq,rfl,rfl⟩ := h
  obtain ⟨_,hepoch⟩ := requireBinding_ok hb
  obtain ⟨_,hold,hnew⟩ := rotate_decoded hv
  have hnext : v.newEpoch = l.epoch+1 := by rw [hnew,hepoch]
  refine ⟨l,_,queue,hl,hepoch.trans hold,hnext,?_,hq,rfl,rfl⟩
  refine ⟨rfl,rfl,fun _ => hbound,fun _ => rfl,.inr ?_⟩
  change l.epoch < v.newEpoch
  omega

theorem revoke_ok {wire : Bytes} {u : Unit} (h : revoke P wire now s = (.ok u,s')) :
    ∃ l, (s.cleanupExpired now).leases.find? (blockAt 32 wire 2) = some l ∧
      l.epoch = wordAt 8 wire 34 ∧
      s' = (s.cleanupExpired now).removeLease (blockAt 32 wire 2) := by
  simp only [revoke,cleanup_bind,shortQueueId_bind_ok,policyOf_bind_ok,read_bind,leaseOf_bind_ok,
    attempt_bind_ok,update_ok,id] at h
  obtain ⟨_,_,_,l,hl,v,hv,_,hb,rfl⟩ := h
  exact ⟨l,hl,(requireBinding_ok hb).2.trans (revoke_decoded hv).2,rfl⟩

theorem authenticateSub_ok {cell : Cell} {v : RelaySub}
    (h : authenticateSub P cell now s = (.ok v,s')) :
    ∃ l l', (s.cleanupExpired now).leases.find? (blockAt 32 cell.payload 2) = some l ∧
      l.epoch = wordAt 8 cell.payload 34 ∧ l'.epoch = l.epoch ∧ LeaseUpdate l l' ∧
      s' = setLease (s.cleanupExpired now) (blockAt 32 cell.payload 2) l' := by
  simp only [authenticateSub,cleanup_bind,demand_bind_ok,read_bind,
    purgedLeaseOf_bind_ok (cleanup_tidy s now),attempt_bind_ok,putLease_bind,pure_ok,id] at h
  obtain ⟨_,l,hl,v,hv,_,hb,_,_,l',hrec,_,rfl⟩ := h
  exact ⟨l,l',hl,(requireBinding_ok hb).2.trans (sub_decoded hv),recordReplay_epoch hrec,
    recordReplay_update hrec,rfl⟩

theorem authenticateSubGc2_ok {cell : NaturalCell} {v : AuthenticatedSubscription}
    (h : authenticateSubGc2 P cell now s = (.ok v,s')) :
    ∃ l l' queue, (s.cleanupExpired now).leases.find? (blockAt 32 cell.payload 1) = some l ∧
      l.epoch = wordAt 8 (cell.payload.take (cell.payload.length-Gc2.tagLen)) 33 ∧
      l'.epoch = l.epoch ∧ LeaseUpdate l l' ∧
      (s.cleanupExpired now).queues.queues.find? (blockAt 32 cell.payload 1) = some queue ∧
      v.generation = queue.classes.generation ∧ v.subscription.epoch = l.epoch ∧
      s' = setLease (s.cleanupExpired now) (blockAt 32 cell.payload 1) l' := by
  simp only [authenticateSubGc2,cleanup_bind,demand_bind_ok,read_bind,leaseOf_bind_ok,
    attempt_bind_ok,putLease_bind,queueOf_bind_ok,pure_ok,id] at h
  obtain ⟨_,l,hl,v,hv,_,hb,_,_,l',hrec,queue,hq,rfl,rfl⟩ := h
  have hepoch := (requireBinding_ok hb).2
  exact ⟨l,l',queue,hl,hepoch.trans (subGc2_decoded hv),recordReplay_epoch hrec,
    recordReplay_update hrec,hq,rfl,hepoch.symm,rfl⟩

end Operations

/-! ## Deposits -/

/-- What a deposit of either wire version asks for, as its tag authenticates it. -/
structure Envelope where
  queueId : QueueId
  epoch : ℕ
  nonce : Nonce
  expiry : ℕ
  binding : Option (Block 32)
  lane : Lane
  item : Option Item

def envelope (p : UnauthenticatedRelayPush) : Envelope where
  queueId := p.parts.queueId
  epoch := p.parts.epoch
  nonce := p.parts.pushNonce
  expiry := p.parts.pushExpiry
  binding := none
  lane := .gc1
  item := (innerCell p.parts).map (fun cell => .gc1 ⟨p.parts.pushNonce,cell⟩)

def envelopeGc2 (P : Suite) (p : Gc2.UnverifiedPush) : Envelope where
  queueId := p.push.queueId
  epoch := p.push.epoch
  nonce := p.push.nonce
  expiry := p.push.expiry
  binding := some (P.sha256 p.cell.encode)
  lane := .gc2 p.push.trafficClass
  item := p.push.msg.map (fun cell => .gc2 ⟨p.push.nonce,cell⟩)

def Envelope.record (e : Envelope) : ReplayRecord := ⟨e.epoch,.push,e.nonce,e.expiry,e.binding⟩

/-- The store after a deposit, by its outcome. -/
inductive Deposited (c : Store) (e : Envelope) : PushOutcome → Store → Prop
  | duplicate (l : LeaseRecord) (hl : c.leases.find? e.queueId = some l) (he : l.epoch = e.epoch)
      (hr : l.hasReplay e.epoch .push e.nonce = true) : Deposited c e .duplicate c
  | cover (l l' : LeaseRecord) (hl : c.leases.find? e.queueId = some l) (he : l.epoch = e.epoch)
      (hr : l.hasReplay e.epoch .push e.nonce = false) (n : ℕ)
      (hrec : l.recordReplay e.record n = .ok l') (hitem : e.item = none) :
      Deposited c e .cover (setLease c e.queueId l')
  | enqueued (l l' : LeaseRecord) (queue queue' : Queue) (item : Item)
      (hl : c.leases.find? e.queueId = some l) (he : l.epoch = e.epoch)
      (hr : l.hasReplay e.epoch .push e.nonce = false) (n : ℕ)
      (hrec : l.recordReplay e.record n = .ok l')
      (hq : c.queues.queues.find? e.queueId = some queue) (hitem : e.item = some item)
      (happ : Appended queue queue' e.lane item)
      (htotal : c.queues.totalBytes+item.len ≤ c.config.maxTotalQueueBytes)
      (hcells : queue.len+1 ≤ l.limits.maxQueueCells)
      (hbytes : queue'.bytes ≤ l.limits.maxQueueBytes) :
      Deposited c e .enqueued (setLease (setQueue c e.queueId queue'
        (c.queues.totalBytes+item.len)) e.queueId l')

section Deposits
variable {P : Suite} {s s' : Store} {now : ℕ}

theorem hasReplay_of_find? {l : LeaseRecord} {epoch : ℕ} {op : ReplayOperation} {nonce : Nonce} :
    l.hasReplay epoch op nonce = (l.replay.find? (LeaseRecord.sameNonce epoch op nonce)).isSome := by
  rw [LeaseRecord.hasReplay,Bool.eq_iff_iff,List.any_eq_true,List.find?_isSome]

theorem deposit_ok {c : Store} {p : UnauthenticatedRelayPush} {l : LeaseRecord}
    {outcome : PushOutcome} (hl : c.leases.find? p.parts.queueId = some l)
    (he : l.epoch = p.parts.epoch)
    (h : deposit p.parts.queueId l ⟨p.parts.queueId,p.parts.epoch,p.parts.pushNonce,
      p.parts.pushExpiry,innerCell p.parts⟩ c = (.ok outcome,s')) :
    Deposited c (envelope p) outcome s' := by
  simp only [deposit] at h
  by_cases hr : l.hasReplay p.parts.epoch .push p.parts.pushNonce = true
  · simp only [hr,if_true,retried,demand_bind_ok,pure_ok] at h
    obtain ⟨_,rfl,rfl⟩ := h
    exact .duplicate l hl he hr
  · have hr' : l.hasReplay p.parts.epoch .push p.parts.pushNonce = false := by simpa using hr
    simp only [hr',Bool.false_eq_true,if_false] at h
    cases hm : innerCell p.parts with
    | none =>
        simp only [hm,recordPush_bind_ok,pure_ok] at h
        obtain ⟨l',hrec,rfl,rfl⟩ := h
        exact .cover l l' hl he hr' _ hrec (by simp [envelope,hm])
    | some cell =>
        simp only [hm,enqueue,attempt_bind_ok,totalAfter_bind_ok,queueOf_bind_ok,obtain_bind_ok,
          demand_bind_ok,read_bind,putQueue_bind,recordPush_bind_ok,pure_ok,checkedAdd_eq_some] at h
        obtain ⟨n,hn,_,htotal,queue,hq,cells,⟨_,rfl⟩,bytes,⟨_,rfl⟩,hfit,_,l',hrec,rfl,rfl⟩ := h
        have hlen : n = cell.naturalLen := by
          unfold naturalCellLenChecked at hn
          split_ifs at hn
          exact (Except.ok.inj hn).symm
        subst hlen
        exact .enqueued l l' queue _ (.gc1 ⟨p.parts.pushNonce,cell⟩) hl he hr' _ hrec hq
          (by simp [envelope,hm]) (appended_gc1 queue ⟨p.parts.pushNonce,cell⟩) htotal hfit.1 hfit.2

theorem authenticatePush_ok {p : UnauthenticatedRelayPush} {outcome : PushOutcome}
    (h : authenticatePush P p now s = (.ok outcome,s')) :
    now < (envelope p).expiry ∧ Deposited (s.cleanupExpired now) (envelope p) outcome s' := by
  simp only [authenticatePush,cleanup_bind,read_bind,purgedLeaseOf_bind_ok (cleanup_tidy s now),
    attempt_bind_ok,demand_bind_ok,id] at h
  obtain ⟨l,hl,v,hv,_,hb,_,h⟩ := h
  obtain ⟨rfl,hlt⟩ := push_decoded hv
  exact ⟨hlt,deposit_ok hl (requireBinding_ok hb).2 h⟩

theorem depositGc2_ok {c : Store} {p : Gc2.UnverifiedPush} {l : LeaseRecord}
    {outcome : PushOutcome} (hl : c.leases.find? p.push.queueId = some l)
    (he : l.epoch = p.push.epoch)
    (h : depositGc2 p.push.queueId l p.push (P.sha256 p.cell.encode) c = (.ok outcome,s')) :
    Deposited c (envelopeGc2 P p) outcome s' := by
  simp only [depositGc2] at h
  cases hf : l.replay.find? (LeaseRecord.sameNonce p.push.epoch .push p.push.nonce) with
  | some record =>
      have hr : l.hasReplay p.push.epoch .push p.push.nonce = true := by
        rw [hasReplay_of_find?,hf]
        rfl
      simp only [hf,retriedGc2,demand_bind_ok,pure_ok] at h
      obtain ⟨_,rfl,rfl⟩ := h
      exact .duplicate l hl he hr
  | none =>
      have hr : l.hasReplay p.push.epoch .push p.push.nonce = false := by
        rw [hasReplay_of_find?,hf]
        rfl
      simp only [hf] at h
      cases hm : p.push.msg with
      | none =>
          simp only [hm,recordPush_bind_ok,pure_ok] at h
          obtain ⟨l',hrec,rfl,rfl⟩ := h
          exact .cover l l' hl he hr _ hrec (by simp [envelopeGc2,hm])
      | some cell =>
          simp only [hm,enqueueGc2,totalAfter_bind_ok,queueOf_bind_ok,obtain_bind_ok,
            demand_bind_ok,putQueue_bind,recordPush_bind_ok,pure_ok,checkedAdd_eq_some] at h
          obtain ⟨_,htotal,queue,hq,bytes,⟨_,rfl⟩,hfit,l',hrec,rfl,rfl⟩ := h
          exact .enqueued l l' queue _ (.gc2 ⟨p.push.nonce,cell⟩) hl he hr _ hrec hq
            (by simp [envelopeGc2,hm]) (appended_gc2 queue _ ⟨p.push.nonce,cell⟩ _) htotal hfit.1 hfit.2

theorem authenticatePushGc2_ok {p : Gc2.UnverifiedPush} {outcome : PushOutcome}
    (h : authenticatePushGc2 P p now s = (.ok outcome,s')) :
    now < (envelopeGc2 P p).expiry ∧
      Deposited (s.cleanupExpired now) (envelopeGc2 P p) outcome s' := by
  simp only [authenticatePushGc2,cleanup_bind,read_bind,leaseOf_bind_ok,attempt_bind_ok,
    demand_bind_ok,id] at h
  obtain ⟨l,hl,v,hv,_,hb,_,h⟩ := h
  obtain ⟨rfl,hlt⟩ := pushGc2_decoded hv
  exact ⟨hlt,depositGc2_ok hl (requireBinding_ok hb).2 h⟩

end Deposits

/-! ## Acknowledgements -/

/-- The store after an acknowledgement, by its outcome. -/
inductive Acked (c : Store) (q : QueueId) (x : Lane) : AckOutcome → Store → Prop
  | removed (queue queue' : Queue) (item : Item) (hq : c.queues.queues.find? q = some queue)
      (hpop : Popped queue queue' x item) :
      Acked c q x .removed (setQueue c q queue' (c.queues.totalBytes-item.len))
  | mismatch : Acked c q x .mismatch c
  | empty : Acked c q x .empty c

section Delivery
variable {s s' : Store} {now : ℕ}

theorem acknowledge_ok {q : QueueId} {nonce : Nonce} {outcome : AckOutcome}
    (h : acknowledge q nonce now s = (.ok outcome,s')) :
    Acked (s.cleanupExpired now) q .gc1 outcome s' := by
  simp only [acknowledge,cleanup_bind,read_bind,id] at h
  cases hq : (s.cleanupExpired now).queues.queues.find? q with
  | none =>
      simp only [hq,pure_ok] at h
      obtain ⟨rfl,rfl⟩ := h
      exact .empty
  | some queue =>
      simp only [hq,dequeue] at h
      cases hm : queue.messages with
      | nil =>
          simp only [hm,pure_ok] at h
          obtain ⟨rfl,rfl⟩ := h
          exact .empty
      | cons head rest =>
          simp only [hm] at h
          split_ifs at h
          · obtain ⟨rfl,rfl⟩ := pure_ok.mp h
            exact .mismatch
          · simp only [read_bind,putQueue_bind,pure_ok] at h
            obtain ⟨rfl,rfl⟩ := h
            exact .removed queue _ _ hq (popped_gc1 hm)

theorem validate_bind_ok {α : Type} {handle : AuthenticatedSubscription} {f : Unit → Op α} {b : α} :
    (validateGc2Subscription handle now >>= f) s = (.ok b,s') ↔
      ∃ l queue, s.leases.find? handle.subscription.queueId = some l ∧
        l.requireBinding handle.subscription.queueId handle.subscription.epoch = .ok () ∧
        now < handle.subscription.expiry ∧ handle.subscription.expiry ≤ l.expiry ∧
        s.queues.queues.find? handle.subscription.queueId = some queue ∧
        handle.generation = queue.classes.generation ∧ f () s = (.ok b,s') := by
  rw [validateGc2Subscription]
  simp only [bind_assoc_run,leaseOf_bind_ok,attempt_bind_ok,demand_bind_ok,queueOf_bind_ok,
    not_or,not_le,gt_iff_lt,not_lt]
  constructor
  · rintro ⟨l,hl,_,hb,⟨h₁,h₂⟩,queue,hq,hg,h⟩
    exact ⟨l,queue,hl,hb,h₁,h₂,hq,hg,h⟩
  · rintro ⟨l,queue,hl,hb,h₁,h₂,hq,hg,h⟩
    exact ⟨l,hl,(),hb,⟨h₁,h₂⟩,queue,hq,hg,h⟩

theorem peekGc2_ok {handle : AuthenticatedSubscription} {v : Option (Queued NaturalCell)}
    (h : peekGc2 handle now s = (.ok v,s')) :
    s' = s.cleanupExpired now ∧ ∃ l queue,
      s'.leases.find? handle.subscription.queueId = some l ∧
      l.epoch = handle.subscription.epoch ∧
      s'.queues.queues.find? handle.subscription.queueId = some queue ∧
      queue.classes.generation = handle.generation := by
  simp only [peekGc2,cleanup_bind,validate_bind_ok,queueOf_bind_ok,pure_ok] at h
  obtain ⟨l,queue,hl,hb,_,_,hq,hg,_,_,_,rfl⟩ := h
  exact ⟨rfl,l,queue,hl,(requireBinding_ok hb).2,hq,hg.symm⟩

theorem acknowledgeGc2_ok {handle : AuthenticatedSubscription} {nonce : Nonce}
    {outcome : AckOutcome} (h : acknowledgeGc2 handle nonce now s = (.ok outcome,s')) :
    Acked (s.cleanupExpired now) handle.subscription.queueId
        (.gc2 handle.subscription.trafficClass) outcome s' ∧
      ∃ l queue, (s.cleanupExpired now).leases.find? handle.subscription.queueId = some l ∧
        l.epoch = handle.subscription.epoch ∧
        (s.cleanupExpired now).queues.queues.find? handle.subscription.queueId = some queue ∧
        queue.classes.generation = handle.generation := by
  simp only [acknowledgeGc2,cleanup_bind,validate_bind_ok,queueOf_bind_ok] at h
  obtain ⟨l,queue,hl,hb,_,_,hq,hg,queue',hq',h⟩ := h
  cases hq.symm.trans hq'
  refine ⟨?_,l,queue,hl,(requireBinding_ok hb).2,hq,hg.symm⟩
  simp only [dequeueGc2] at h
  cases hm : (queue.classes.ofClass handle.subscription.trafficClass).messages with
  | nil =>
      simp only [hm,pure_ok] at h
      obtain ⟨rfl,rfl⟩ := h
      exact .empty
  | cons head rest =>
      simp only [hm] at h
      split_ifs at h
      · obtain ⟨rfl,rfl⟩ := pure_ok.mp h
        exact .mismatch
      · simp only [subtract_bind_ok,read_bind,putQueue_bind,pure_ok] at h
        obtain ⟨_,_,rfl,rfl⟩ := h
        exact .removed queue _ _ hq (popped_gc2 hm _)

end Delivery

end Gcoms.LeaseEdits
