import Gcoms.LeaseEvents

/-!
# The books of the lease store

`Accounted` says that the parallel tables of a store agree: leases and queues
have the same ids, every byte counter is the length of what it counts, the limits
hold and the cached replay expiries are right. Each edit and each step of a
cleanup keeps it, and in an accounted store no event panics and no subtraction is
cut off at zero. Clock readings are arbitrary throughout.
-/
namespace Gcoms.LeaseAccounting
open ByteCodec SortedMaps Primitives Commands RelayCells RelayCodec LeaseCodec LeaseStore LeaseSteps
  LeaseEdits LeaseEvents

structure Accounted (s : Store) : Prop where
  owned : ∀ q, (s.leases.find? q).isSome = (s.queues.queues.find? q).isSome
  counted : ∀ q queue, s.queues.queues.find? q = some queue → queue.bytes = contentBytes queue
  total : s.queues.totalBytes = s.queues.queues.sumBy (·.bytes)
  totalLimit : s.queues.totalBytes ≤ s.config.maxTotalQueueBytes
  leaseLimits : ∀ q l queue, s.leases.find? q = some l → s.queues.queues.find? q = some queue →
    queue.len ≤ l.limits.maxQueueCells ∧ queue.bytes ≤ l.limits.maxQueueBytes
  grantLimit : s.grants.size ≤ s.config.maxGrants
  queueLimit : s.queues.queues.size ≤ s.config.maxQueues
  maxQueues : s.queues.maxQueues = s.config.maxQueues
  cached : ∀ q l, s.leases.find? q = some l → l.nextReplayExpiry = earliest l.replay

theorem new_accounted {service key : Block 32} {config : StoreConfig} {s : Store}
    (h : Store.new service key config = .ok s) : Accounted s := by
  unfold Store.new at h
  split_ifs at h
  split at h
  · cases h
  · cases h
    exact {
      owned := fun q => rfl
      counted := fun q queue hq => by cases hq
      total := rfl
      totalLimit := Nat.zero_le _
      leaseLimits := fun q l queue hl => by cases hl
      grantLimit := Nat.zero_le _
      queueLimit := Nat.zero_le _
      maxQueues := rfl
      cached := fun q l hl => by cases hl }

section Facts
variable {s : Store}

theorem Accounted.queue_of_lease (h : Accounted s) {q : QueueId} {l : LeaseRecord}
    (hl : s.leases.find? q = some l) : ∃ queue, s.queues.queues.find? q = some queue := by
  have ho := h.owned q
  rw [hl] at ho
  exact Option.isSome_iff_exists.mp ho.symm

theorem Accounted.lease_of_queue (h : Accounted s) {q : QueueId} {queue : Queue}
    (hq : s.queues.queues.find? q = some queue) : ∃ l, s.leases.find? q = some l := by
  have ho := h.owned q
  rw [hq] at ho
  exact Option.isSome_iff_exists.mp ho

/-- The relay's total without one queue. -/
theorem Accounted.total_split (h : Accounted s) {q : QueueId} {queue : Queue}
    (hq : s.queues.queues.find? q = some queue) :
    s.queues.totalBytes = queue.bytes+(s.queues.queues.erase q).sumBy (·.bytes) :=
  h.total.trans (SortedMap.sumBy_of_find? hq _)

theorem Accounted.bytes_le_total (h : Accounted s) {q : QueueId} {queue : Queue}
    (hq : s.queues.queues.find? q = some queue) : queue.bytes ≤ s.queues.totalBytes := by
  have ht := h.total_split hq
  omega

theorem Accounted.item_le_bytes (h : Accounted s) {q : QueueId} {queue : Queue} {item : Item}
    (hq : s.queues.queues.find? q = some queue) (hi : item ∈ contents queue) :
    item.len ≤ queue.bytes := by
  rw [h.counted q queue hq]
  exact List.le_sum_of_mem (List.mem_map_of_mem hi)

end Facts

/-! ## Cleanups -/

section Cleanup
variable {s : Store}

theorem accounted_removeLease (h : Accounted s) (a : QueueId) : Accounted (s.removeLease a) := by
  have hleases : ∀ {q l}, (s.removeLease a).leases.find? q = some l →
      q ≠ a ∧ s.leases.find? q = some l := by
    intro q l hl
    rw [removeLease_leases] at hl
    split_ifs at hl with hqa
    exact ⟨hqa,hl⟩
  have hqueues : ∀ {q queue}, (s.removeLease a).queues.queues.find? q = some queue →
      s.queues.queues.find? q = some queue := by
    intro q queue hq
    rw [Store.removeLease,remove_find?] at hq
    split_ifs at hq
    exact hq
  have hframe := remove_frame s.queues a
  have htotal : (s.queues.remove a).totalBytes = (s.queues.remove a).queues.sumBy (·.bytes) ∧
      (s.queues.remove a).totalBytes ≤ s.queues.totalBytes ∧
      (s.queues.remove a).queues.size ≤ s.queues.queues.size := by
    cases hf : s.queues.queues.find? a with
    | none =>
        simp only [QueueStore.remove,hf]
        exact ⟨h.total,le_rfl,le_rfl⟩
    | some queue =>
        have hsplit := h.total_split hf
        simp only [QueueStore.remove,hf]
        exact ⟨by omega,Nat.sub_le _ _,SortedMap.size_retain_le _ _⟩
  exact {
    owned := by
      intro q
      rw [removeLease_leases,Store.removeLease,remove_find?]
      by_cases hqa : q = a
      · simp [hqa]
      · simpa [hqa] using h.owned q
    counted := fun q queue hq => h.counted q queue (hqueues hq)
    total := htotal.1
    totalLimit := htotal.2.1.trans h.totalLimit
    leaseLimits := fun q l queue hl hq => h.leaseLimits q l queue (hleases hl).2 (hqueues hq)
    grantLimit := h.grantLimit
    queueLimit := htotal.2.2.trans h.queueLimit
    maxQueues := hframe.1.trans h.maxQueues
    cached := fun q l hl => h.cached q l (hleases hl).2 }

theorem accounted_foldl (h : Accounted s) (ids : List QueueId) :
    Accounted (ids.foldl Store.removeLease s) := by
  induction ids generalizing s with
  | nil => exact h
  | cons a ids ih => exact ih (accounted_removeLease h a)

theorem accounted_retain (h : Accounted s) (p : GrantId → GrantRecord → Bool) :
    Accounted { s with grants := s.grants.retain p } :=
  { h with grantLimit := (SortedMap.size_retain_le _ _).trans h.grantLimit }

theorem purge_limits (l : LeaseRecord) (now : ℕ) : (l.purgeReplay now).limits = l.limits := by
  unfold LeaseRecord.purgeReplay
  split_ifs <;> rfl

theorem accounted_purge (h : Accounted s) (now : ℕ) :
    Accounted { s with leases := s.leases.mapValues (fun l => l.purgeReplay now) } := by
  have hleases : ∀ {q l}, (s.leases.mapValues (fun l => l.purgeReplay now)).find? q = some l →
      ∃ l₀, s.leases.find? q = some l₀ ∧ l₀.purgeReplay now = l := by
    intro q l hl
    rw [SortedMap.find?_mapValues] at hl
    exact Option.map_eq_some_iff.mp hl
  exact { h with
    owned := by
      intro q
      rw [SortedMap.find?_mapValues,Option.isSome_map]
      exact h.owned q
    leaseLimits := by
      intro q l queue hl hq
      obtain ⟨l₀,hl₀,rfl⟩ := hleases hl
      rw [purge_limits]
      exact h.leaseLimits q l₀ queue hl₀ hq
    cached := by
      intro q l hl
      obtain ⟨l₀,hl₀,rfl⟩ := hleases hl
      rw [purge_eq_scan (h.cached q l₀ hl₀)] }

theorem accounted_cleanup (h : Accounted s) (now : ℕ) : Accounted (s.cleanupExpired now) :=
  accounted_purge (accounted_foldl (accounted_retain h _) _) now

end Cleanup

/-! ## Edits -/

section Edits
variable {s s' : Store}

/-- A change of one queue that has a lease, with the total changed alike. -/
theorem accounted_setQueue (h : Accounted s) {q : QueueId} {queue queue' : Queue} {total : ℕ}
    (hq : s.queues.queues.find? q = some queue) (hcount : queue'.bytes = contentBytes queue')
    (htotal : total+queue.bytes = s.queues.totalBytes+queue'.bytes)
    (hlimit : total ≤ s.config.maxTotalQueueBytes)
    (hlease : ∀ l, s.leases.find? q = some l →
      queue'.len ≤ l.limits.maxQueueCells ∧ queue'.bytes ≤ l.limits.maxQueueBytes) :
    Accounted (setQueue s q queue' total) := by
  have hfind := setQueue_find? s q queue' total
  exact { h with
    owned := by
      intro a
      rw [hfind]
      split_ifs with ha
      · obtain ⟨l,hl⟩ := h.lease_of_queue hq
        rw [ha]
        simp [setQueue,hl]
      · exact h.owned a
    counted := by
      intro a queue₁ ha
      rw [hfind] at ha
      split_ifs at ha
      · cases ha
        exact hcount
      · exact h.counted a queue₁ ha
    total := by
      have hsplit := h.total_split hq
      have hsum := SortedMap.sumBy_insert s.queues.queues q queue' (·.bytes)
      change total = (s.queues.queues.insert q queue').sumBy (·.bytes)
      omega
    totalLimit := hlimit
    leaseLimits := by
      intro a l queue₁ hl ha
      rw [hfind] at ha
      split_ifs at ha with haq
      · cases ha
        exact hlease l (haq ▸ hl)
      · exact h.leaseLimits a l queue₁ hl ha
    queueLimit := by
      change (s.queues.queues.insert q queue').size ≤ s.config.maxQueues
      rw [SortedMap.size_insert_of_find? hq]
      exact h.queueLimit }

theorem accounted_setLease (h : Accounted s) {q : QueueId} {l l' : LeaseRecord}
    (hl : s.leases.find? q = some l) (hu : LeaseUpdate l l') : Accounted (setLease s q l') := by
  have hfind := setLease_find? s q l'
  exact { h with
    owned := by
      intro a
      rw [hfind]
      split_ifs with ha
      · have ho := h.owned q
        rw [hl] at ho
        exact ha ▸ ho
      · exact h.owned a
    leaseLimits := by
      intro a l₁ queue ha hq
      rw [hfind] at ha
      split_ifs at ha with haq
      · cases ha
        rw [hu.limits]
        exact h.leaseLimits q l queue hl (haq ▸ hq)
      · exact h.leaseLimits a l₁ queue ha hq
    cached := by
      intro a l₁ ha
      rw [hfind] at ha
      split_ifs at ha
      · cases ha
        exact hu.cached (h.cached q l hl)
      · exact h.cached a l₁ ha }

theorem accounted_setGrant (h : Accounted s) {id : GrantId} {g : GrantRecord}
    (hsize : (s.grants.insert id g).size ≤ s.config.maxGrants) : Accounted (setGrant s id g) :=
  { h with grantLimit := hsize }

/-- A new lease owns an empty queue. -/
theorem accounted_create (h : Accounted s) {q : QueueId} {l : LeaseRecord}
    (hq : s.queues.queues.find? q = none)
    (hroom : s.queues.queues.size < s.queues.maxQueues)
    (hcached : l.nextReplayExpiry = earliest l.replay) : Accounted (setLease (addQueue s q) q l) := by
  have hleases := setLease_find? (addQueue s q) q l
  have hqueues : ∀ a, (setLease (addQueue s q) q l).queues.queues.find? a =
      if a = q then some ⟨0,[],.new s.queues.nextGeneration⟩ else s.queues.queues.find? a :=
    addQueue_find? s q
  exact {
    owned := by
      intro a
      rw [hleases,hqueues]
      split_ifs
      · rfl
      · exact h.owned a
    counted := by
      intro a queue ha
      rw [hqueues] at ha
      split_ifs at ha
      · cases ha
        rfl
      · exact h.counted a queue ha
    total := by
      have hsum := SortedMap.sumBy_insert_new hq ⟨0,[],.new s.queues.nextGeneration⟩ (·.bytes)
      exact h.total.trans ((Nat.zero_add _).symm.trans hsum.symm)
    totalLimit := h.totalLimit
    leaseLimits := by
      intro a l₁ queue ha hb
      rw [hleases] at ha
      rw [hqueues] at hb
      split_ifs at ha hb
      · cases hb
        exact ⟨Nat.zero_le _,Nat.zero_le _⟩
      · exact h.leaseLimits a l₁ queue ha hb
    grantLimit := h.grantLimit
    queueLimit := by
      have hsize := s.queues.queues.size_insert_le q ⟨0,[],.new s.queues.nextGeneration⟩
      rw [h.maxQueues] at hroom
      exact hsize.trans hroom
    maxQueues := h.maxQueues
    cached := by
      intro a l₁ ha
      rw [hleases] at ha
      split_ifs at ha
      · cases ha
        exact hcached
      · exact h.cached a l₁ ha }

theorem accounted_edit {op : List Effect} (h : Accounted s) (he : Edit s s' op) : Accounted s' := by
  cases he with
  | grant id g hnew hroom hstatus =>
      exact accounted_setGrant h ((s.grants.size_insert_le id g).trans hroom)
  | lease q l l' hl hu => exact accounted_setLease h hl hu
  | create q l id g hg hstatus hl hq hroom hcached htemp hbound =>
      refine accounted_setGrant (accounted_create h hq hroom hcached) ?_
      exact (SortedMap.size_insert_of_find? hg _).trans_le h.grantLimit
  | remove q => exact accounted_removeLease h q
  | append q l queue queue' x item hl hq happ htotal hcells hbytes =>
      have hlen := happ.contents.length_eq
      have hsum : contentBytes queue' = item.len+contentBytes queue := (happ.contents.map _).sum_nat
      have hold := h.counted q queue hq
      refine accounted_setQueue h hq ?_ ?_ htotal ?_
      · rw [happ.bytes]
        omega
      · rw [happ.bytes]
        omega
      · intro l₁ hl₁
        cases hl.symm.trans hl₁
        rw [List.length_cons,contents_length,contents_length] at hlen
        exact ⟨by omega,hbytes⟩
  | pop q queue queue' x item hq hpop =>
      have hlen := hpop.contents.length_eq
      have hsum : contentBytes queue = item.len+contentBytes queue' := (hpop.contents.map _).sum_nat
      have hold := h.counted q queue hq
      have hle := h.bytes_le_total hq
      have hlimit := h.totalLimit
      refine accounted_setQueue h hq ?_ ?_ ?_ ?_
      · rw [hpop.bytes]
        omega
      · rw [hpop.bytes]
        omega
      · omega
      · intro l hl
        have hl := h.leaseLimits q l queue hl hq
        rw [List.length_cons,contents_length,contents_length] at hlen
        rw [hpop.bytes]
        omega
  | wake q queue hq =>
      refine accounted_setQueue h hq ?_ rfl h.totalLimit ?_
      · have hc := h.counted q queue hq
        simpa only [contentBytes,contents,lane_wakeAll] using hc
      · intro l hl
        exact h.leaseLimits q l queue hl hq

theorem accounted_path {now : ℕ} {ops : List Effect} (h : Accounted s)
    (hp : Path now s s' ops) : Accounted s' := by
  induction hp with
  | refl => exact h
  | cleanup _ ih => exact accounted_cleanup ih now
  | edit _ he ih => exact accounted_edit ih he

end Edits

/-! ## Events -/

section Events
variable {P : Suite} {s s' : Store} {now : ℕ}

/-- The failure of an event is an error, after which the books still agree. -/
def Refused (e : Fault) (s' : Store) : Prop := (∃ err, e = .error err) ∧ Accounted s'

/-- In an accounted store there are no panics to tolerate. -/
theorem Accounted.tolerates {A : Fault → Store → Prop} (h : Accounted s)
    (herror : ∀ e, A (.error e) s) : Tolerates A s where
  error := herror
  orphan q l hl hq := by
    obtain ⟨queue,hqueue⟩ := h.queue_of_lease hl
    rw [hq] at hqueue
    cases hqueue
  underflow q queue x item rest hq hlane hunder := by
    have hmem : item ∈ contents queue := by
      have hx : item ∈ lane queue x := hlane ▸ List.mem_cons_self
      cases x with
      | gc1 => exact List.mem_append_left _ hx
      | gc2 traffic =>
          refine List.mem_append_right _ ?_
          cases traffic with
          | interactive => exact List.mem_append_left _ hx
          | bulk => exact List.mem_append_right _ hx
    have hitem := h.item_le_bytes hq hmem
    have htotal := h.bytes_le_total hq
    omega

theorem exec_refused (h : Accounted s) (event : Event) : Aborts Refused (exec P now event) s := by
  have hc := accounted_cleanup h now
  refine exec_aborts event (hc.tolerates (fun e => ⟨⟨e,rfl⟩,hc⟩)) (fun e => ⟨⟨e,rfl⟩,h⟩) ?_ ?_
  · intro wire draw l e _ hl
    exact ⟨⟨e,rfl⟩,accounted_setLease hc hl (slots_update l _)⟩
  · intro wire draw request s₁ _ hcharge
    obtain ⟨l,l',hl,_,_,_,hu,_,rfl⟩ := chargeAuthority_ok (cleanup_tidy s now) hcharge
    have hcharged := accounted_cleanup (accounted_setLease hc hl hu) now
    exact issueGrantWithBound_aborts (fun e => ⟨⟨e,rfl⟩,hcharged⟩)

theorem step_accounted {event : Event} {r : Except Fault Reply} (h : Accounted s)
    (hs : Step P now event s r s') : Accounted s' ∧ ∀ m, r ≠ .error (.panic m) := by
  cases r with
  | ok v => exact ⟨accounted_path h (exec_path (hs.drawn v rfl) hs.run),fun m hm => by cases hm⟩
  | error e =>
      obtain ⟨⟨err,rfl⟩,hacc⟩ := exec_refused h event e s' hs.run
      exact ⟨hacc,fun m hm => by cases hm⟩

theorem run_steps {s₀ : Store} (h₀ : Accounted s₀) {log : List Entry} (hr : Run P s₀ log s) :
    Accounted s ∧ ∀ entry ∈ log, ∀ m, entry.result ≠ .error (.panic m) := by
  induction hr with
  | start => exact ⟨h₀,fun entry he => by cases he⟩
  | step h hs ih =>
      have hstep := step_accounted ih.1 hs
      refine ⟨hstep.1,?_⟩
      intro entry he
      cases List.mem_append.mp he with
      | inl hold => exact ih.2 entry hold
      | inr hnew =>
          obtain rfl := List.mem_singleton.mp hnew
          exact hstep.2

theorem path_config {ops : List Effect} (hp : Path now s s' ops) : s'.config = s.config := by
  induction hp with
  | refl => rfl
  | cleanup _ ih => exact (cleanup_frame _ now).2.1.trans ih
  | edit _ he ih =>
      refine Eq.trans ?_ ih
      cases he <;> rfl

/-- The configuration of a store never changes. -/
theorem step_config {event : Event} {r : Except Fault Reply} (h : Accounted s)
    (hs : Step P now event s r s') : s'.config = s.config := by
  have hc := (cleanup_frame s now).2.1
  cases r with
  | ok v => exact path_config (exec_path (hs.drawn v rfl) hs.run)
  | error e =>
      refine exec_aborts (A := fun _ t => t.config = s.config) event
        ((accounted_cleanup h now).tolerates (fun _ => hc)) (fun _ => rfl) (fun _ _ _ _ _ _ => hc)
        ?_ e s' hs.run
      intro wire draw request s₁ _ hcharge
      obtain ⟨l,l',_,_,_,_,_,_,rfl⟩ := chargeAuthority_ok (cleanup_tidy s now) hcharge
      exact issueGrantWithBound_aborts (fun _ => (cleanup_frame _ now).2.1.trans hc)

theorem run_config {s₀ : Store} (h₀ : Accounted s₀) {log : List Entry} (hr : Run P s₀ log s) :
    s.config = s₀.config := by
  induction hr with
  | start => rfl
  | step h hs ih => exact (step_config (run_steps h₀ h).1 hs).trans ih

/-- Nothing that is subtracted from a counter exceeds it: neither a queue that is dropped
after any others, nor a message that is acknowledged. -/
structure Exact (s : Store) : Prop where
  removal : ∀ (ids : List QueueId) q queue, (ids.foldl Store.removeLease s).queues.queues.find? q = some queue →
    queue.bytes ≤ (ids.foldl Store.removeLease s).queues.totalBytes
  delivery : ∀ q queue item, s.queues.queues.find? q = some queue → item ∈ contents queue →
    item.len ≤ queue.bytes ∧ item.len ≤ s.queues.totalBytes

theorem Accounted.exact (h : Accounted s) : Exact s where
  removal ids _ _ hq := (accounted_foldl h ids).bytes_le_total hq
  delivery _ _ _ hq hi :=
    ⟨h.item_le_bytes hq hi,(h.item_le_bytes hq hi).trans (h.bytes_le_total hq)⟩

/-- The books of a store agree after every run from a new store and at the head of every
further event. No event has panicked, and the fast purge is the full scan. -/
theorem run_accounted {service key : Block 32} {config : StoreConfig} {s₀ : Store}
    (h₀ : Store.new service key config = .ok s₀) {log : List Entry} (hr : Run P s₀ log s) :
    Accounted s ∧ (∀ entry ∈ log, ∀ m, entry.result ≠ .error (.panic m)) ∧
      ∀ now, Accounted (s.cleanupExpired now) ∧ Exact s ∧ Exact (s.cleanupExpired now) ∧
        ∀ q l, s.leases.find? q = some l → l.purgeReplay now = { l with
          replay := l.replay.filter (fun r => r.expiry > now)
          nextReplayExpiry := earliest (l.replay.filter (fun r => r.expiry > now)) } := by
  obtain ⟨hacc,hpanic⟩ := run_steps (new_accounted h₀) hr
  refine ⟨hacc,hpanic,fun now => ?_⟩
  have hc := accounted_cleanup hacc now
  exact ⟨hc,hacc.exact,hc.exact,fun q l hl => purge_eq_scan (hacc.cached q l hl) now⟩

end Events

/-! A relay that has room for one grant, a lease created from it and one deposit. -/

def sampleConfig : StoreConfig := ⟨1,4,8,8,4096,⟨8,4096⟩,60,1000,0,4⟩

def sampleStart : Store :=
  ⟨wordBlock 32 1,wordBlock 32 2,sampleConfig,.empty,.empty,⟨4,.empty,0,0⟩⟩

def sampleRequest : GrantRequest := ⟨wordBlock 32 3,1,⟨8,4096⟩⟩

def sampleDraw : Draw := ⟨wordBlock 16 4,wordBlock 32 5⟩

def sampleGrant : AdmissionGrant :=
  ⟨wordBlock 32 1,wordBlock 16 4,wordBlock 32 5,wordBlock 32 3,1,990,1050,8,4096⟩

def sampleCapabilities : Capabilities := ⟨wordBlock 32 6,wordBlock 32 7,wordBlock 32 8⟩

def sampleCreate : LeaseCreate := ⟨wordBlock 32 3,1,1500,8,4096,sampleCapabilities,wordBlock 16 9,
  blockAt 180 (sampleGrant.encode openSuite (wordBlock 32 2)) 0⟩

def sampleMessage : NaturalCell := ⟨.msg,3,[1,2,3],by decide,by decide⟩

/-- A bulk deposit of `sampleMessage`, without its tag. -/
def sampleBody : Bytes :=
  [1]++((wordBlock 32 3).toList++(bigEndian 8 1++((wordBlock 16 10).toList++(bigEndian 8 1100++
    (bigEndian 2 9++sampleMessage.encode)))))

def sampleTag : Bytes := (openSuite.hmac (wordBlock 32 6) (ascii "GC2/RELAY-PUSH\x00"++(byte 2++
  (byte 7++((wordBlock 32 1).toList++(bigEndian 2 sampleBody.length++sampleBody)))))).toList

set_option maxRecDepth 20000 in
def sampleCell : NaturalCell := ⟨.relayPush,0,sampleBody++sampleTag,by decide,by decide +kernel⟩

set_option maxRecDepth 20000 in
def samplePush : Gc2.UnverifiedPush := ⟨sampleCell,
  ⟨.bulk,wordBlock 32 3,1,wordBlock 16 10,1100,some sampleMessage⟩,sampleBody,
  by decide +kernel,by decide +kernel⟩

def sampleEvents : List (ℕ × Event) :=
  [(990,.issueGrant sampleRequest sampleDraw),
    (990,.createLease (sampleCreate.encode openSuite (wordBlock 32 1))),
    (1000,.pushGc2 samplePush)]

set_option maxRecDepth 20000 in
theorem run_accounted_sample :
    ((perform openSuite sampleStart sampleEvents).2).queues.totalBytes = 9 ∧
      Accounted (perform openSuite sampleStart sampleEvents).2 :=
  ⟨by decide +kernel,(@run_accounted openSuite _ (wordBlock 32 1) (wordBlock 32 2) sampleConfig
    sampleStart rfl _ (perform_run sampleEvents .start (by decide +kernel))).1⟩

end Gcoms.LeaseAccounting
