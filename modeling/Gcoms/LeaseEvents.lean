import Gcoms.LeaseEdits

/-!
# Runs of the lease store

Every public operation is an event, executed at the caller's clock. Two theorems
describe them together. Where an event fails, `exec_aborts` reduces what holds of
the failure to three cases: an error leaves the cleaned up store, and the two
kinds of panic need a lease without a queue or a counter below one of its
messages. A dynamic grant is the exception, its authority may be charged. Where
an event succeeds, `exec_path` gives the edits it has made.
-/
namespace Gcoms.LeaseEvents
open ByteCodec SortedMaps Primitives Commands RelayCells RelayCodec LeaseCodec LeaseStore LeaseSteps
  LeaseEdits

inductive Event where
  | issueGrant (request : GrantRequest) (draw : Draw)
  | issueTemporaryGrant (request : GrantRequest) (expiresAt : ℕ) (draw : Draw)
  | issueDynamicGrant (wire : Bytes) (draw : Draw)
  | createLease (wire : Bytes)
  | renew (wire : Bytes)
  | rotate (wire : Bytes)
  | revoke (wire : Bytes)
  | subscribe (cell : Cell)
  | subscribeGc2 (cell : NaturalCell)
  | push (p : UnauthenticatedRelayPush)
  | pushGc2 (p : Gc2.UnverifiedPush)
  | peek (queueId : QueueId)
  | peekGc2 (handle : AuthenticatedSubscription)
  | acknowledge (queueId : QueueId) (pushNonce : Nonce)
  | acknowledgeGc2 (handle : AuthenticatedSubscription) (pushNonce : Nonce)
  | cleanup

inductive Reply where
  | provision (v : AdmissionProvision)
  | view (v : LeaseView)
  | done
  | subscription (v : RelaySub)
  | handle (v : AuthenticatedSubscription)
  | pushed (outcome : PushOutcome)
  | message (v : Option (Queued Cell))
  | natural (v : Option (Queued NaturalCell))
  | acked (outcome : AckOutcome)
  deriving DecidableEq

/-- The same command with its result renamed. -/
def reply {α : Type} (f : α → Reply) (x : Op α) : Op Reply := do
  let v ← x
  pure (f v)

def exec (P : Suite) (now : ℕ) : Event → Op Reply
  | .issueGrant request draw => reply .provision (issueGrant P request draw now)
  | .issueTemporaryGrant request expiresAt draw =>
      reply .provision (issueTemporaryGrant P request expiresAt draw now)
  | .issueDynamicGrant wire draw => reply .provision (issueDynamicGrant P wire draw now)
  | .createLease wire => reply .view (createLease P wire now)
  | .renew wire => reply .view (renew P wire now)
  | .rotate wire => reply .view (rotate P wire now)
  | .revoke wire => reply (fun _ => .done) (revoke P wire now)
  | .subscribe cell => reply .subscription (authenticateSub P cell now)
  | .subscribeGc2 cell => reply .handle (authenticateSubGc2 P cell now)
  | .push p => reply .pushed (authenticatePush P p now)
  | .pushGc2 p => reply .pushed (authenticatePushGc2 P p now)
  | .peek queueId => reply .message (peek queueId now)
  | .peekGc2 handle => reply .natural (peekGc2 handle now)
  | .acknowledge queueId pushNonce => reply .acked (acknowledge queueId pushNonce now)
  | .acknowledgeGc2 handle pushNonce => reply .acked (acknowledgeGc2 handle pushNonce now)
  | .cleanup => reply (fun _ => .done) (cleanup now)

theorem reply_ok {α : Type} {f : α → Reply} {x : Op α} {s s' : Store} {r : Reply}
    (h : reply f x s = (.ok r,s')) : ∃ v, x s = (.ok v,s') ∧ r = f v := by
  simp only [reply,bind_ok,pure_ok] at h
  obtain ⟨v,s₁,hx,rfl,rfl⟩ := h
  exact ⟨v,hx,rfl⟩

theorem reply_error {α : Type} {f : α → Reply} {x : Op α} {s s' : Store} {e : Fault}
    (h : reply f x s = (.error e,s')) : x s = (.error e,s') := by
  rw [reply,bind_run] at h
  cases hx : x s with
  | mk r s₁ =>
      rw [hx] at h
      cases r with
      | error e' =>
          cases h
          rfl
      | ok v => cases h

/-! ## Failures -/

/-- `A` holds of every way in which an event can fail from the cleaned up store `c`. -/
structure Tolerates (A : Fault → Store → Prop) (c : Store) : Prop where
  error : ∀ e, A (.error e) c
  orphan : ∀ q l, c.leases.find? q = some l → c.queues.queues.find? q = none →
    ∀ m s', A (.panic m) s'
  underflow : ∀ q queue x item rest, c.queues.queues.find? q = some queue →
    lane queue x = item::rest → queue.bytes < item.len ∨ c.queues.totalBytes < item.len →
    ∀ m s', A (.panic m) s'

section Failures
variable {P : Suite} {A : Fault → Store → Prop} {α : Type} {s : Store} {now : ℕ}

theorem Aborts.policyOf_bind {horizon : StoreConfig → ℕ} {f : ValidationPolicy → Op α}
    (h : ∀ e, A (.error e) s) (hf : ∀ p, Aborts A (f p) s) :
    Aborts A (policyOf now horizon >>= f) s := by
  intro e s' hr
  rw [policyOf,bind_assoc_run,read_bind] at hr
  exact Aborts.attempt_bind (fun e _ => h e) (fun p _ => hf p) e s' hr

theorem Aborts.shortQueueId_bind {wire : Bytes} {f : QueueId → Op α}
    (h : ∀ e, A (.error e) s) (hf : Aborts A (f (blockAt 32 wire 2)) s) :
    Aborts A (shortQueueId wire >>= f) s := by
  intro e s' hr
  rw [shortQueueId,bind_assoc_run] at hr
  exact Aborts.demand_bind (fun _ => h _) (fun _ => hf) e s' hr

theorem Aborts.leaseOf_bind {q : QueueId} {f : LeaseRecord → Op α}
    (h : ∀ e, A (.error e) s) (hf : ∀ l, s.leases.find? q = some l → Aborts A (f l) s) :
    Aborts A (leaseOf q >>= f) s := by
  intro e s' hr
  rw [leaseOf,bind_assoc_run,read_bind] at hr
  exact Aborts.obtain_bind (fun _ => h _) hf e s' hr

theorem Aborts.purgedLeaseOf_bind (ht : Tidy now s) {q : QueueId} {f : LeaseRecord → Op α}
    (h : ∀ e, A (.error e) s) (hf : ∀ l, s.leases.find? q = some l → Aborts A (f l) s) :
    Aborts A (purgedLeaseOf q now >>= f) s := by
  intro e s' hr
  rw [purgedLeaseOf_bind_run ht] at hr
  exact Aborts.leaseOf_bind h hf e s' hr

theorem Aborts.queueOf_bind {q : QueueId} {m : String} {f : Queue → Op α}
    (h : s.queues.queues.find? q = none → A (.panic m) s)
    (hf : ∀ queue, s.queues.queues.find? q = some queue → Aborts A (f queue) s) :
    Aborts A (queueOf q m >>= f) s := by
  intro e s' hr
  rw [queueOf,bind_assoc_run,read_bind] at hr
  exact Aborts.obtain_bind h hf e s' hr

theorem Aborts.totalAfter_bind {n : ℕ} {f : ℕ → Op α} (h : ∀ e, A (.error e) s)
    (hf : ∀ total, Aborts A (f total) s) : Aborts A (totalAfter n >>= f) s := by
  intro e s' hr
  rw [totalAfter,bind_assoc_run,read_bind,bind_assoc_run] at hr
  refine Aborts.obtain_bind (fun _ => h _) (fun total _ => ?_) e s' hr
  intro e s' hr
  rw [bind_assoc_run] at hr
  exact Aborts.demand_bind (fun _ => h _) (fun _ => hf total) e s' hr

/-- Recording a deposit fails only where there is no room for its record. -/
theorem Aborts.recordPush_bind {q : QueueId} {l : LeaseRecord} {r : ReplayRecord} {f : Unit → Op α}
    (h : s.config.maxReplayNoncesPerLease ≤ l.replayCount r.operation →
      A (.error .replayCapacity) s)
    (hf : ∀ l', Aborts A (f ()) (setLease s q l')) : Aborts A (recordPush q l r >>= f) s := by
  intro e s' hr
  rw [recordPush,bind_assoc_run,read_bind,bind_assoc_run] at hr
  refine Aborts.attempt_bind ?_ (fun l' _ => Aborts.update_bind (hf l')) e s' hr
  intro e he
  unfold LeaseRecord.recordReplay at he
  split_ifs at he with hc
  cases he
  exact h hc

theorem issueGrantWithBound_aborts {request : GrantRequest} {temporaryExpiry : Option ℕ}
    {draw : Draw} (h : ∀ e, A (.error e) (s.cleanupExpired now)) :
    Aborts A (issueGrantWithBound P request temporaryExpiry draw now) s := by
  refine Aborts.update_bind (Aborts.read_bind ?_)
  refine Aborts.demand_bind (fun _ => h _) (fun _ => ?_)
  refine Aborts.obtain_bind (fun _ => h _) (fun expiry _ => ?_)
  refine Aborts.policyOf_bind h (fun policy => ?_)
  exact Aborts.attempt_bind (fun e _ => h _) (fun _ _ => Aborts.update_bind (Aborts.pure _))

theorem createNew_aborts {create : LeaseCreate} {digest : Block 32}
    (h : ∀ e, A (.error e) s) : Aborts A (createNew create digest now) s := by
  refine Aborts.bind ?_ ?_
  · refine Aborts.read_bind (Aborts.obtain_bind (fun _ => h _) (fun grant _ => ?_))
    refine Aborts.demand_bind (fun _ => h _) (fun _ => ?_)
    exact Aborts.demand_bind (fun _ => h _) (fun _ => Aborts.pure _)
  · intro grant s' hg
    have hs : s' = s := by
      simp only [usableGrant,read_bind,obtain_bind_ok,demand_bind_ok,pure_ok] at hg
      obtain ⟨_,_,_,_,_,rfl⟩ := hg
      rfl
    subst hs
    refine Aborts.read_bind (Aborts.attempt_bind (fun e _ => h e) (fun queues _ => ?_))
    exact Aborts.update_bind (Aborts.update_bind (Aborts.update_bind (Aborts.pure _)))

theorem createLease_aborts {wire : Bytes} (h : ∀ e, A (.error e) (s.cleanupExpired now)) :
    Aborts A (createLease P wire now) s := by
  refine Aborts.update_bind (Aborts.read_bind ?_)
  refine Aborts.policyOf_bind h (fun grantPolicy => Aborts.policyOf_bind h (fun leasePolicy => ?_))
  refine Aborts.attempt_bind (fun e _ => h _) (fun create _ => ?_)
  split
  · exact Aborts.pure _
  · exact createNew_aborts h

theorem renew_aborts {wire : Bytes} (h : ∀ e, A (.error e) (s.cleanupExpired now)) :
    Aborts A (renew P wire now) s := by
  refine Aborts.update_bind (Aborts.shortQueueId_bind h ?_)
  refine Aborts.policyOf_bind h (fun policy => Aborts.read_bind ?_)
  refine Aborts.purgedLeaseOf_bind (cleanup_tidy s now) h (fun l _ => ?_)
  refine Aborts.attempt_bind (fun e _ => h _) (fun v _ => ?_)
  refine Aborts.attempt_bind (fun e _ => h _) (fun _ _ => ?_)
  refine Aborts.demand_bind (fun _ => h _) (fun _ => Aborts.demand_bind (fun _ => h _) (fun _ => ?_))
  exact Aborts.attempt_bind (fun e _ => h _) (fun l' _ => Aborts.update_bind (Aborts.pure _))

theorem rotate_aborts {wire : Bytes} (h : Tolerates A (s.cleanupExpired now)) :
    Aborts A (rotate P wire now) s := by
  refine Aborts.update_bind (Aborts.shortQueueId_bind h.error ?_)
  refine Aborts.policyOf_bind h.error (fun policy => Aborts.read_bind ?_)
  refine Aborts.purgedLeaseOf_bind (cleanup_tidy s now) h.error (fun l hl => ?_)
  refine Aborts.attempt_bind (fun e _ => h.error _) (fun v _ => ?_)
  refine Aborts.attempt_bind (fun e _ => h.error _) (fun _ _ => ?_)
  refine Aborts.demand_bind (fun _ => h.error _) (fun _ => Aborts.update_bind ?_)
  refine Aborts.queueOf_bind (fun hn => h.orphan _ l hl hn _ _) (fun queue _ => ?_)
  exact Aborts.update_bind (Aborts.pure _)

theorem revoke_aborts {wire : Bytes} (h : ∀ e, A (.error e) (s.cleanupExpired now)) :
    Aborts A (revoke P wire now) s := by
  refine Aborts.update_bind (Aborts.shortQueueId_bind h ?_)
  refine Aborts.policyOf_bind h (fun policy => Aborts.read_bind ?_)
  refine Aborts.leaseOf_bind h (fun l _ => ?_)
  refine Aborts.attempt_bind (fun e _ => h _) (fun v _ => ?_)
  exact Aborts.attempt_bind (fun e _ => h _) (fun _ _ => Aborts.update)

theorem authenticateSub_aborts {cell : Cell} (h : ∀ e, A (.error e) (s.cleanupExpired now)) :
    Aborts A (authenticateSub P cell now) s := by
  refine Aborts.update_bind (Aborts.demand_bind (fun _ => h _) (fun _ => Aborts.read_bind ?_))
  refine Aborts.purgedLeaseOf_bind (cleanup_tidy s now) h (fun l _ => ?_)
  refine Aborts.attempt_bind (fun e _ => h _) (fun v _ => ?_)
  refine Aborts.attempt_bind (fun e _ => h _) (fun _ _ => ?_)
  refine Aborts.demand_bind (fun _ => h _) (fun _ => Aborts.demand_bind (fun _ => h _) (fun _ => ?_))
  exact Aborts.attempt_bind (fun e _ => h _) (fun l' _ => Aborts.update_bind (Aborts.pure _))

theorem authenticateSubGc2_aborts {cell : NaturalCell} (h : Tolerates A (s.cleanupExpired now)) :
    Aborts A (authenticateSubGc2 P cell now) s := by
  refine Aborts.update_bind (Aborts.demand_bind (fun _ => h.error _) (fun _ => Aborts.read_bind ?_))
  refine Aborts.leaseOf_bind h.error (fun l hl => ?_)
  refine Aborts.attempt_bind (fun e _ => h.error _) (fun v _ => ?_)
  refine Aborts.attempt_bind (fun e _ => h.error _) (fun _ _ => ?_)
  refine Aborts.demand_bind (fun _ => h.error _) (fun _ => ?_)
  refine Aborts.demand_bind (fun _ => h.error _) (fun _ => ?_)
  refine Aborts.attempt_bind (fun e _ => h.error _) (fun l' _ => Aborts.update_bind ?_)
  exact Aborts.queueOf_bind (fun hn => h.orphan _ l hl hn _ _) (fun queue _ => Aborts.pure _)

/-- A GC/1 deposit is written before it is recorded; there is room for the record. -/
theorem enqueue_aborts {l : LeaseRecord} {push : RelayPush} {msg : Cell} {q : QueueId}
    (h : Tolerates A s) (hl : s.leases.find? q = some l) : Aborts A (enqueue q l push msg) s := by
  refine Aborts.attempt_bind (fun e _ => h.error _) (fun bytes _ => ?_)
  refine Aborts.totalAfter_bind h.error (fun total => ?_)
  refine Aborts.queueOf_bind (fun hn => h.orphan q l hl hn _ _) (fun queue _ => ?_)
  refine Aborts.obtain_bind (fun _ => h.error _) (fun cells _ => ?_)
  refine Aborts.obtain_bind (fun _ => h.error _) (fun nextBytes _ => ?_)
  refine Aborts.demand_bind (fun _ => h.error _) (fun _ => Aborts.read_bind ?_)
  refine Aborts.demand_bind (fun _ => h.error _) (fun hroom => Aborts.update_bind ?_)
  refine Aborts.recordPush_bind (fun hfull => ?_) (fun l' => Aborts.pure _)
  exact absurd hroom (not_lt.mpr hfull)

theorem deposit_aborts {l : LeaseRecord} {push : RelayPush} {q : QueueId}
    (h : Tolerates A s) (hl : s.leases.find? q = some l) : Aborts A (deposit q l push) s := by
  unfold deposit
  split_ifs
  · exact Aborts.demand_bind (fun _ => h.error _) (fun _ => Aborts.pure _)
  · cases push.msg with
    | none => exact Aborts.recordPush_bind (fun _ => h.error _) (fun _ => Aborts.pure _)
    | some msg => exact enqueue_aborts h hl

theorem authenticatePush_aborts {p : UnauthenticatedRelayPush}
    (h : Tolerates A (s.cleanupExpired now)) : Aborts A (authenticatePush P p now) s := by
  refine Aborts.update_bind (Aborts.read_bind ?_)
  refine Aborts.purgedLeaseOf_bind (cleanup_tidy s now) h.error (fun l hl => ?_)
  refine Aborts.attempt_bind (fun e _ => h.error _) (fun v _ => ?_)
  refine Aborts.attempt_bind (fun e _ => h.error _) (fun _ _ => ?_)
  exact Aborts.demand_bind (fun _ => h.error _) (fun _ => deposit_aborts h hl)

/-- A GC/2 deposit is recorded before it is written. -/
theorem depositGc2_aborts {l : LeaseRecord} {push : Gc2.Push} {q : QueueId} {binding : Block 32}
    (h : Tolerates A s) (hl : s.leases.find? q = some l) :
    Aborts A (depositGc2 q l push binding) s := by
  unfold depositGc2
  split
  · exact Aborts.demand_bind (fun _ => h.error _) (fun _ => Aborts.pure _)
  · cases push.msg with
    | none => exact Aborts.recordPush_bind (fun _ => h.error _) (fun _ => Aborts.pure _)
    | some msg =>
        refine Aborts.totalAfter_bind h.error (fun total => ?_)
        refine Aborts.queueOf_bind (fun hn => h.orphan q l hl hn _ _) (fun queue _ => ?_)
        refine Aborts.obtain_bind (fun _ => h.error _) (fun nextBytes _ => ?_)
        refine Aborts.demand_bind (fun _ => h.error _) (fun _ => ?_)
        refine Aborts.recordPush_bind (fun _ => h.error _) (fun l' => ?_)
        exact Aborts.update_bind (Aborts.pure _)

theorem authenticatePushGc2_aborts {p : Gc2.UnverifiedPush}
    (h : Tolerates A (s.cleanupExpired now)) : Aborts A (authenticatePushGc2 P p now) s := by
  refine Aborts.update_bind (Aborts.read_bind ?_)
  refine Aborts.leaseOf_bind h.error (fun l hl => ?_)
  refine Aborts.attempt_bind (fun e _ => h.error _) (fun v _ => ?_)
  refine Aborts.attempt_bind (fun e _ => h.error _) (fun _ _ => ?_)
  exact Aborts.demand_bind (fun _ => h.error _) (fun _ => depositGc2_aborts h hl)

theorem acknowledge_aborts {q : QueueId} {nonce : Nonce} :
    Aborts A (acknowledge q nonce now) s := by
  refine Aborts.update_bind (Aborts.read_bind ?_)
  split
  · exact Aborts.pure _
  · unfold dequeue
    split
    · exact Aborts.pure _
    · split_ifs
      · exact Aborts.pure _
      · exact Aborts.read_bind (Aborts.update_bind (Aborts.pure _))

theorem validate_bind_aborts {handle : AuthenticatedSubscription} {f : Unit → Op α}
    (h : Tolerates A s)
    (hf : ∀ queue, s.queues.queues.find? handle.subscription.queueId = some queue →
      Aborts A (f ()) s) :
    Aborts A (validateGc2Subscription handle now >>= f) s := by
  refine Aborts.bind ?_ ?_
  · refine Aborts.leaseOf_bind h.error (fun l hl => ?_)
    refine Aborts.attempt_bind (fun e _ => h.error _) (fun _ _ => ?_)
    refine Aborts.demand_bind (fun _ => h.error _) (fun _ => ?_)
    refine Aborts.queueOf_bind (fun hn => h.orphan _ l hl hn _ _) (fun queue _ => ?_)
    exact Aborts.demand (fun _ => h.error _)
  · intro u s' hv
    simp only [validateGc2Subscription,leaseOf_bind_ok,attempt_bind_ok,demand_bind_ok,
      queueOf_bind_ok,demand_ok] at hv
    obtain ⟨_,_,_,_,_,queue,hq,_,rfl⟩ := hv
    exact hf queue hq

theorem peekGc2_aborts {handle : AuthenticatedSubscription}
    (h : Tolerates A (s.cleanupExpired now)) : Aborts A (peekGc2 handle now) s := by
  refine Aborts.update_bind (validate_bind_aborts h (fun queue hq => ?_))
  refine Aborts.queueOf_bind (fun hn => ?_) (fun _ _ => Aborts.pure _)
  rw [hq] at hn
  cases hn

theorem Aborts.subtract_bind {m n : ℕ} {f : ℕ → Op α} (h : ∀ message, m < n → A (.panic message) s)
    (hf : Aborts A (f (m-n)) s) : Aborts A (subtract m n >>= f) s := by
  intro e s' hr
  rw [subtract,bind_assoc_run] at hr
  exact Aborts.demand_bind (fun hn => h _ (not_le.mp hn)) (fun _ => hf) e s' hr

theorem acknowledgeGc2_aborts {handle : AuthenticatedSubscription} {nonce : Nonce}
    (h : Tolerates A (s.cleanupExpired now)) : Aborts A (acknowledgeGc2 handle nonce now) s := by
  refine Aborts.update_bind (validate_bind_aborts h (fun queue hq => ?_))
  refine Aborts.queueOf_bind (fun hn => ?_) (fun queue' hq' => ?_)
  · rw [hq] at hn
    cases hn
  · cases hm : (queue'.classes.ofClass handle.subscription.trafficClass).messages with
    | nil =>
        rw [dequeueGc2,hm]
        exact Aborts.pure _
    | cons head rest =>
        have hlane : lane queue' (.gc2 handle.subscription.trafficClass) =
            .gc2 head::rest.map .gc2 := by
          rw [lane,hm]
          rfl
        have hunder := h.underflow _ queue' _ _ _ hq' hlane
        simp only [dequeueGc2,hm]
        split_ifs
        · exact Aborts.pure _
        · refine Aborts.subtract_bind (fun m hlt => hunder (.inl hlt) m _) (Aborts.read_bind ?_)
          refine Aborts.subtract_bind (fun m hlt => hunder (.inr hlt) m _) ?_
          exact Aborts.update_bind (Aborts.pure _)

/-- Besides the plain refusals, an authority without a free rate or replay slot loses its
expired rate slots. -/
theorem chargeAuthority_aborts (ht : Tidy now s) {wire : Bytes} (h : ∀ e, A (.error e) s)
    (hpruned : ∀ l e, s.leases.find? (blockAt 32 wire 2) = some l →
      A (.error e) (setLease s (blockAt 32 wire 2) (l.pruneSlots now))) :
    Aborts A (chargeAuthority P wire now) s := by
  refine Aborts.shortQueueId_bind h (Aborts.read_bind ?_)
  refine Aborts.policyOf_bind h (fun policy => Aborts.leaseOf_bind h (fun _ _ => ?_))
  refine Aborts.demand_bind (fun _ => h _) (fun _ => ?_)
  refine Aborts.purgedLeaseOf_bind ht h (fun l hl => ?_)
  refine Aborts.attempt_bind (fun e _ => h _) (fun request _ => ?_)
  refine Aborts.demand_bind (fun _ => h _) (fun _ => Aborts.update_bind ?_)
  refine Aborts.demand_bind (fun _ => hpruned l _ hl) (fun _ => ?_)
  exact Aborts.attempt_bind (fun e _ => hpruned l _ hl) (fun l' _ => Aborts.update_bind (Aborts.pure _))

end Failures

theorem Aborts.reply {α : Type} {A : Fault → Store → Prop} {f : α → Reply} {x : Op α} {s : Store}
    (h : Aborts A x s) : Aborts A (reply f x) s :=
  fun e s' hr => h e s' (reply_error hr)

/-- What holds of the plain refusals, of a refusal before the cleanup, of an authority whose
rate slots were pruned and of a grant refused to a charged authority, holds of every failure. -/
theorem exec_aborts {P : Suite} {A : Fault → Store → Prop} {s : Store} {now : ℕ} (event : Event)
    (h : Tolerates A (s.cleanupExpired now)) (huntouched : ∀ e, A (.error e) s)
    (hpruned : ∀ wire draw l e, event = .issueDynamicGrant wire draw →
      (s.cleanupExpired now).leases.find? (blockAt 32 wire 2) = some l →
      A (.error e) (setLease (s.cleanupExpired now) (blockAt 32 wire 2) (l.pruneSlots now)))
    (hcharged : ∀ wire draw request s₁, event = .issueDynamicGrant wire draw →
      chargeAuthority P wire now (s.cleanupExpired now) = (.ok request,s₁) →
      Aborts A (issueGrant P ⟨request.queueId,request.epoch,request.limits⟩ draw now) s₁) :
    Aborts A (exec P now event) s := by
  cases event with
  | issueGrant request draw => exact Aborts.reply (issueGrantWithBound_aborts h.error)
  | issueTemporaryGrant request expiresAt draw =>
      refine Aborts.reply (Aborts.read_bind (Aborts.demand_bind (fun _ => huntouched _) (fun _ => ?_)))
      exact issueGrantWithBound_aborts h.error
  | issueDynamicGrant wire draw =>
      refine Aborts.reply (Aborts.update_bind (Aborts.bind ?_ ?_))
      · exact chargeAuthority_aborts (cleanup_tidy s now) h.error (fun l e => hpruned wire draw l e rfl)
      · intro request s₁ hr
        exact hcharged wire draw request s₁ rfl hr
  | createLease wire => exact Aborts.reply (createLease_aborts h.error)
  | renew wire => exact Aborts.reply (renew_aborts h.error)
  | rotate wire => exact Aborts.reply (rotate_aborts h)
  | revoke wire => exact Aborts.reply (revoke_aborts h.error)
  | subscribe cell => exact Aborts.reply (authenticateSub_aborts h.error)
  | subscribeGc2 cell => exact Aborts.reply (authenticateSubGc2_aborts h)
  | push p => exact Aborts.reply (authenticatePush_aborts h)
  | pushGc2 p => exact Aborts.reply (authenticatePushGc2_aborts h)
  | peek q => exact Aborts.reply (Aborts.update_bind (Aborts.read_bind (Aborts.pure _)))
  | peekGc2 handle => exact Aborts.reply (peekGc2_aborts h)
  | acknowledge q nonce => exact Aborts.reply acknowledge_aborts
  | acknowledgeGc2 handle nonce => exact Aborts.reply (acknowledgeGc2_aborts h)
  | cleanup => exact Aborts.reply Aborts.update

/-! ## Successes -/

/-- A grant's random values are accepted where they are drawn. -/
def Event.Drawn (now : ℕ) (s : Store) : Event → Prop
  | .issueGrant request draw => draw.Accepted (s.cleanupExpired now) request.queueId
  | .issueTemporaryGrant request _ draw => draw.Accepted (s.cleanupExpired now) request.queueId
  | .issueDynamicGrant wire draw =>
      draw.Accepted (s.cleanupExpired now) (DynamicGrantRequest.decodeBody wire).queueId
  | _ => True

/-- A sequence of edits, with its effects. -/
inductive Edits (s : Store) : Store → List Effect → Prop
  | refl : Edits s s []
  | tail {t t' : Store} {ops op : List Effect} (h : Edits s t ops) (he : Edit t t' op) :
      Edits s t' (ops++op)

theorem Edits.single {s s' : Store} {op : List Effect} (h : Edit s s' op) : Edits s s' op :=
  Edits.refl.tail h

/-- A sequence of cleanups and edits. -/
inductive Path (now : ℕ) (s : Store) : Store → List Effect → Prop
  | refl : Path now s s []
  | cleanup {t : Store} {ops : List Effect} (h : Path now s t ops) :
      Path now s (t.cleanupExpired now) ops
  | edit {t t' : Store} {ops op : List Effect} (h : Path now s t ops) (he : Edit t t' op) :
      Path now s t' (ops++op)

theorem Edits.path {now : ℕ} {s s' : Store} {ops : List Effect}
    (h : Edits (s.cleanupExpired now) s' ops) : Path now s s' ops := by
  induction h with
  | refl => exact .cleanup .refl
  | tail _ he ih => exact .edit ih he

/-! The effects of an event, by its reply. `c` is the cleaned up store. -/

def createOps (c : Store) (create : LeaseCreate) : List Effect :=
  match c.leases.find? create.queueId with
  | some _ => []
  | none => [.create (grantIdOf create) c.queues.nextGeneration]

def appendOps (c : Store) (e : Envelope) : List Effect :=
  match c.queues.queues.find? e.queueId,e.item with
  | some queue,some item => [.append queue.classes.generation e.lane item]
  | _,_ => []

def popOps (c : Store) (q : QueueId) (x : Lane) : List Effect :=
  match c.queues.queues.find? q with
  | some queue => (lane queue x).head?.toList.map (.pop queue.classes.generation x)
  | none => []

def effectsOf (P : Suite) (c : Store) : Event → Reply → List Effect
  | .issueGrant _ draw,.provision _ => [.grant draw.grantId none]
  | .issueTemporaryGrant _ expiresAt draw,.provision _ => [.grant draw.grantId (some expiresAt)]
  | .issueDynamicGrant _ draw,.provision _ => [.grant draw.grantId none]
  | .createLease wire,.view _ => createOps c (LeaseCreate.decodeBody wire)
  | .push p,.pushed .enqueued => appendOps c (envelope p)
  | .pushGc2 p,.pushed .enqueued => appendOps c (envelopeGc2 P p)
  | .acknowledge q _,.acked .removed => popOps c q .gc1
  | .acknowledgeGc2 handle _,.acked .removed =>
      popOps c handle.subscription.queueId (.gc2 handle.subscription.trafficClass)
  | .revoke wire,.done => [.remove (blockAt 32 wire 2)]
  | _,_ => []

section Successes
variable {P : Suite} {s s' : Store} {now : ℕ}

theorem issueGrantWithBound_edits {request : GrantRequest} {temporaryExpiry : Option ℕ} {draw : Draw}
    {v : AdmissionProvision} (hnew : (s.cleanupExpired now).grants.find? draw.grantId = none)
    (h : issueGrantWithBound P request temporaryExpiry draw now s = (.ok v,s')) :
    Edits (s.cleanupExpired now) s' [.grant draw.grantId temporaryExpiry] := by
  obtain ⟨expiry,hroom,rfl⟩ := issueGrantWithBound_ok h
  exact .single (.grant _ _ hnew hroom rfl)

theorem createLease_edits {wire : Bytes} {v : LeaseView}
    (h : createLease P wire now s = (.ok v,s')) : Edits (s.cleanupExpired now) s'
      (createOps (s.cleanupExpired now) (LeaseCreate.decodeBody wire)) := by
  cases createLease_ok h with
  | inl hs =>
      obtain ⟨rfl,l,hl⟩ := hs
      simp only [createOps,hl]
      exact .refl
  | inr hn =>
      obtain ⟨g,hg,hstatus,hl,hq,hroom,hbound,rfl⟩ := createNew_ok hn
      simp only [createOps,hl]
      exact .single (.create _ _ _ g hg hstatus hl hq hroom rfl rfl hbound)

theorem rotate_edits {wire : Bytes} {v : LeaseView} (h : rotate P wire now s = (.ok v,s')) :
    Edits (s.cleanupExpired now) s' [] := by
  obtain ⟨l,l',queue,hl,_,_,hu,hq,_,rfl⟩ := rotate_ok h
  exact (Edits.single (.lease _ l l' hl hu)).tail (.wake _ queue hq)

theorem deposited_edits {c : Store} {e : Envelope} {outcome : PushOutcome}
    (h : Deposited c e outcome s') :
    Edits c s' (if outcome = .enqueued then appendOps c e else []) := by
  cases h with
  | duplicate l hl he hr => exact .refl
  | cover l l' hl he hr n hrec hitem => exact .single (.lease _ l l' hl (recordReplay_update hrec))
  | enqueued l l' queue queue' item hl he hr n hrec hq hitem happ htotal hcells hbytes =>
      have hops : appendOps c e = [.append queue.classes.generation e.lane item] := by
        simp only [appendOps,hq,hitem]
      rw [if_pos rfl,hops]
      have happend := Edits.single (.append _ l queue queue' _ item hl hq happ htotal hcells hbytes)
      exact happend.tail (.lease _ l l' hl (recordReplay_update hrec))

theorem acked_edits {c : Store} {q : QueueId} {x : Lane} {outcome : AckOutcome}
    (h : Acked c q x outcome s') :
    Edits c s' (if outcome = .removed then popOps c q x else []) := by
  cases h with
  | removed queue queue' item hq hpop =>
      have hops : popOps c q x = [.pop queue.classes.generation x item] := by
        simp only [popOps,hq,hpop.same]
        rfl
      rw [if_pos rfl,hops]
      exact .single (.pop q queue queue' x item hq hpop)
  | mismatch => exact .refl
  | empty => exact .refl

/-- A successful event edits the cleaned up store. A dynamic grant does a second cleanup. -/
theorem exec_edits {event : Event} {r : Reply} (hd : event.Drawn now s)
    (hstatic : ∀ wire draw, event ≠ .issueDynamicGrant wire draw)
    (h : exec P now event s = (.ok r,s')) :
    Edits (s.cleanupExpired now) s' (effectsOf P (s.cleanupExpired now) event r) := by
  cases event with
  | issueGrant request draw =>
      obtain ⟨v,hv,rfl⟩ := reply_ok h
      exact issueGrantWithBound_edits hd.2.1 hv
  | issueTemporaryGrant request expiresAt draw =>
      obtain ⟨v,hv,rfl⟩ := reply_ok h
      simp only [issueTemporaryGrant,read_bind,demand_bind_ok] at hv
      exact issueGrantWithBound_edits hd.2.1 hv.2
  | issueDynamicGrant wire draw => exact absurd rfl (hstatic wire draw)
  | createLease wire =>
      obtain ⟨v,hv,rfl⟩ := reply_ok h
      exact createLease_edits hv
  | renew wire =>
      obtain ⟨v,hv,rfl⟩ := reply_ok h
      obtain ⟨l,l',hl,_,_,hu,rfl⟩ := renew_ok hv
      exact .single (.lease _ l l' hl hu)
  | rotate wire =>
      obtain ⟨v,hv,rfl⟩ := reply_ok h
      exact rotate_edits hv
  | revoke wire =>
      obtain ⟨v,hv,rfl⟩ := reply_ok h
      obtain ⟨l,_,_,rfl⟩ := revoke_ok hv
      exact .single (.remove _)
  | subscribe cell =>
      obtain ⟨v,hv,rfl⟩ := reply_ok h
      obtain ⟨l,l',hl,_,_,hu,rfl⟩ := authenticateSub_ok hv
      exact .single (.lease _ l l' hl hu)
  | subscribeGc2 cell =>
      obtain ⟨v,hv,rfl⟩ := reply_ok h
      obtain ⟨l,l',_,hl,_,_,hu,_,_,_,rfl⟩ := authenticateSubGc2_ok hv
      exact .single (.lease _ l l' hl hu)
  | push p =>
      obtain ⟨v,hv,rfl⟩ := reply_ok h
      have he := deposited_edits (authenticatePush_ok hv).2
      cases v <;> exact he
  | pushGc2 p =>
      obtain ⟨v,hv,rfl⟩ := reply_ok h
      have he := deposited_edits (authenticatePushGc2_ok hv).2
      cases v <;> exact he
  | peek q =>
      obtain ⟨v,hv,rfl⟩ := reply_ok h
      simp only [peek,cleanup_bind,read_bind,pure_ok] at hv
      exact hv.2 ▸ .refl
  | peekGc2 handle =>
      obtain ⟨v,hv,rfl⟩ := reply_ok h
      exact (peekGc2_ok hv).1 ▸ .refl
  | acknowledge q nonce =>
      obtain ⟨v,hv,rfl⟩ := reply_ok h
      have he := acked_edits (acknowledge_ok hv)
      cases v <;> exact he
  | acknowledgeGc2 handle nonce =>
      obtain ⟨v,hv,rfl⟩ := reply_ok h
      have he := acked_edits (acknowledgeGc2_ok hv).1
      cases v <;> exact he
  | cleanup =>
      obtain ⟨v,hv,rfl⟩ := reply_ok h
      exact update_ok.mp hv ▸ .refl

/-- A cleanup adds no grants. -/
theorem cleanup_grant_none {id : GrantId} (h : s.grants.find? id = none) :
    (s.cleanupExpired now).grants.find? id = none := by
  rw [(cleanup_frame s now).1,SortedMap.find?_retain,h]
  rfl

/-- A successful event is a sequence of cleanups and edits. -/
theorem exec_path {event : Event} {r : Reply} (hd : event.Drawn now s)
    (h : exec P now event s = (.ok r,s')) :
    Path now s s' (effectsOf P (s.cleanupExpired now) event r) := by
  by_cases hdyn : ∃ wire draw, event = .issueDynamicGrant wire draw
  · obtain ⟨wire,draw,rfl⟩ := hdyn
    obtain ⟨v,hv,rfl⟩ := reply_ok h
    simp only [issueDynamicGrant,cleanup_bind,bind_ok] at hv
    obtain ⟨request,s₁,hcharge,hgrant⟩ := hv
    obtain ⟨l,l',hl,_,_,_,hu,_,rfl⟩ := chargeAuthority_ok (cleanup_tidy s now) hcharge
    obtain ⟨expiry,hroom,rfl⟩ := issueGrantWithBound_ok hgrant
    have hcharged := (Edits.single (.lease _ l l' hl hu)).path.cleanup
    exact hcharged.edit (.grant _ _ (cleanup_grant_none hd.2.1) hroom rfl)
  · push Not at hdyn
    exact (exec_edits hd hdyn h).path

end Successes

/-! ## Runs -/

/-- One event at one clock reading. A failed grant has drawn nothing. -/
structure Step (P : Suite) (now : ℕ) (event : Event) (s : Store) (r : Except Fault Reply)
    (s' : Store) : Prop where
  run : exec P now event s = (r,s')
  drawn : ∀ v, r = .ok v → event.Drawn now s

/-- What a run records of a step. -/
structure Entry where
  now : ℕ
  event : Event
  before : Store
  result : Except Fault Reply
  after : Store

inductive Run (P : Suite) (s₀ : Store) : List Entry → Store → Prop
  | start : Run P s₀ [] s₀
  | step {log : List Entry} {s s' : Store} {now : ℕ} {event : Event} {r : Except Fault Reply}
      (h : Run P s₀ log s) (hs : Step P now event s r s') :
      Run P s₀ (log++[⟨now,event,s,r,s'⟩]) s'

section Rules
variable {P : Suite} {s₀ s : Store} {log : List Entry}

/-- What a step makes true of its own entry and later steps keep, holds of every entry. -/
theorem Run.since {Q : Entry → Store → Prop}
    (hnew : ∀ log s now event r s', Run P s₀ log s → Step P now event s r s' →
      Q ⟨now,event,s,r,s'⟩ s')
    (hkeep : ∀ log s now event r s', Run P s₀ log s → Step P now event s r s' →
      ∀ a ∈ log, Q a s → Q a s')
    (hr : Run P s₀ log s) : ∀ a ∈ log, Q a s := by
  induction hr with
  | start => exact fun _ ha => (List.not_mem_nil ha).elim
  | step h hs ih =>
      intro a ha
      cases List.mem_append.mp ha with
      | inl hin => exact hkeep _ _ _ _ _ _ h hs a hin (ih a hin)
      | inr hin =>
          obtain rfl := List.mem_singleton.mp hin
          exact hnew _ _ _ _ _ _ h hs

/-- What holds between every earlier entry and a step holds between any two entries. -/
theorem Run.pairs {R : Entry → Entry → Prop}
    (hstep : ∀ log s now event r s', Run P s₀ log s → Step P now event s r s' →
      ∀ a ∈ log, R a ⟨now,event,s,r,s'⟩)
    (hr : Run P s₀ log s) : log.Pairwise R := by
  induction hr with
  | start => exact List.Pairwise.nil
  | step h hs ih =>
      refine List.pairwise_append.mpr ⟨ih,List.pairwise_singleton _ _,fun a ha b hb => ?_⟩
      obtain rfl := List.mem_singleton.mp hb
      exact hstep _ _ _ _ _ _ h hs a ha

end Rules

/-- Executes the events in turn. -/
def perform (P : Suite) (s : Store) : List (ℕ × Event) → List Entry × Store
  | [] => ([],s)
  | (now,event)::events =>
      let (r,s') := exec P now event s
      let (log,final) := perform P s' events
      (⟨now,event,s,r,s'⟩::log,final)

instance (d : Draw) (s : Store) (q : QueueId) : Decidable (d.Accepted s q) :=
  inferInstanceAs (Decidable (_ ∧ _))

instance (now : ℕ) (s : Store) (event : Event) : Decidable (event.Drawn now s) :=
  match event with
  | .issueGrant _ _ | .issueTemporaryGrant _ _ _ | .issueDynamicGrant _ _ =>
      inferInstanceAs (Decidable (Draw.Accepted _ _ _))
  | .createLease _ | .renew _ | .rotate _ | .revoke _ | .subscribe _ | .subscribeGc2 _ | .push _
  | .pushGc2 _ | .peek _ | .peekGc2 _ | .acknowledge _ _ | .acknowledgeGc2 _ _ | .cleanup =>
      .isTrue trivial

/-- Its draws being accepted, an execution is a run. -/
theorem perform_run {P : Suite} {s₀ s : Store} {log : List Entry} (events : List (ℕ × Event))
    (hr : Run P s₀ log s)
    (hd : ∀ entry ∈ (perform P s events).1, entry.event.Drawn entry.now entry.before) :
    Run P s₀ (log++(perform P s events).1) (perform P s events).2 := by
  induction events generalizing s log with
  | nil => simpa [perform] using hr
  | cons head events ih =>
      obtain ⟨now,event⟩ := head
      have hdrawn := hd _ List.mem_cons_self
      have hstep : Step P now event s (exec P now event s).1 (exec P now event s).2 :=
        ⟨rfl,fun _ _ => hdrawn⟩
      have hrest := ih (hr.step hstep) (fun entry he => hd entry (List.mem_cons_of_mem _ he))
      rw [List.append_assoc] at hrest
      exact hrest

end Gcoms.LeaseEvents
