import Gcoms.LeaseAccounting

/-!
# Refused operations

`Faded now s s'` says that `s'` is `s` without some of what has expired at `now`.
A refused operation leaves such a store, and repeating it later gets the answer
that it would have got without the refused attempt. The one exception is a
dynamic grant: its authority is charged a nonce and a rate slot before the grant
itself can still be refused. `Charged` is the exact condition of that.
-/
namespace Gcoms.LeaseRefusal
open ByteCodec SortedMaps Primitives Commands RelayCells RelayCodec LeaseCodec LeaseStore LeaseSteps
  LeaseEdits LeaseEvents LeaseAccounting

structure LeaseFaded (now : ℕ) (l l' : LeaseRecord) : Prop where
  same : l' = { l with
    replay := l'.replay, nextReplayExpiry := l'.nextReplayExpiry, dynamicGrants := l'.dynamicGrants }
  replay : l'.replay = l.replay ∨ l'.replay = l.replay.filter (fun r => r.expiry > now)
  cached : l'.nextReplayExpiry = earliest l'.replay
  slots : l'.dynamicGrants = l.dynamicGrants ∨
    l'.dynamicGrants = l.dynamicGrants.filter (fun issued => satAdd issued 60 > now)

structure Faded (now : ℕ) (s s' : Store) : Prop where
  frame : s'.relayServiceId = s.relayServiceId ∧ s'.admissionKey = s.admissionKey ∧
    s'.config = s.config ∧ s'.queues.maxQueues = s.queues.maxQueues ∧
    s'.queues.nextGeneration = s.queues.nextGeneration
  grants : ∀ id, s'.grants.find? id = s.grants.find? id ∨
    (s'.grants.find? id = none ∧ ∃ g, s.grants.find? id = some g ∧ g.expiry ≤ now)
  kept : ∀ q l', s'.leases.find? q = some l' → ∃ l, s.leases.find? q = some l ∧
    LeaseFaded now l l' ∧ s'.queues.queues.find? q = s.queues.queues.find? q
  dropped : ∀ q, s'.leases.find? q = none → s'.queues.queues.find? q = none ∧
    ∀ l, s.leases.find? q = some l → l.expiry ≤ now
  total : s'.queues.totalBytes = s'.queues.queues.sumBy (·.bytes)

section Fading
variable {s : Store} {now later : ℕ}

theorem LeaseFaded.refl {l : LeaseRecord} (h : l.nextReplayExpiry = earliest l.replay) (now : ℕ) :
    LeaseFaded now l l := ⟨rfl,.inl rfl,h,.inl rfl⟩

theorem faded_self (h : Accounted s) (now : ℕ) : Faded now s s where
  frame := ⟨rfl,rfl,rfl,rfl,rfl⟩
  grants _ := .inl rfl
  kept q l hl := ⟨l,hl,.refl (h.cached q l hl) now,rfl⟩
  dropped q hl := by
    have ho := h.owned q
    rw [hl] at ho
    refine ⟨Option.isNone_iff_eq_none.mp (by simpa using ho.symm),?_⟩
    intro l hl'
    rw [hl] at hl'
    cases hl'
  total := h.total

theorem purge_faded {l : LeaseRecord} (h : l.nextReplayExpiry = earliest l.replay) (now : ℕ) :
    LeaseFaded now l (l.purgeReplay now) := by
  rw [purge_eq_scan h]
  exact ⟨rfl,.inr rfl,rfl,.inl rfl⟩

/-- A lease that a cleanup keeps keeps its queue. -/
theorem cleanup_keeps_queue {q : QueueId} {l : LeaseRecord}
    (hl : (s.cleanupExpired now).leases.find? q = some l) :
    (s.cleanupExpired now).queues.queues.find? q = s.queues.queues.find? q := by
  obtain ⟨l₀,hl₀,hlive,_⟩ := (cleanup_lease_some s now).mp hl
  rw [cleanup_queues,if_neg]
  rw [mem_expiredIds]
  rintro ⟨l₁,hl₁,hexp⟩
  cases hl₀.symm.trans hl₁
  omega

theorem faded_cleanup (h : Accounted s) (now : ℕ) : Faded now s (s.cleanupExpired now) := by
  have hc := accounted_cleanup h now
  obtain ⟨hgrants,hconfig,hservice,hkey,hmax,hgen⟩ := cleanup_frame s now
  exact {
    frame := ⟨hservice,hkey,hconfig,hmax,hgen⟩
    grants := by
      intro id
      rw [hgrants,SortedMap.find?_retain]
      cases hf : s.grants.find? id with
      | none => exact .inl rfl
      | some g =>
          by_cases hg : g.expiry > now
          · exact .inl (by simp [Option.filter,hg])
          · exact .inr ⟨by simp [Option.filter,hg],g,rfl,not_lt.mp hg⟩
    kept := by
      intro q l' hl'
      obtain ⟨l,hl,_,rfl⟩ := (cleanup_lease_some s now).mp hl'
      exact ⟨l,hl,purge_faded (h.cached q l hl) now,cleanup_keeps_queue hl'⟩
    dropped := by
      intro q hq
      have hself := (faded_self hc now).dropped q hq
      refine ⟨hself.1,fun l hl => ?_⟩
      by_contra hlive
      have hkept := (cleanup_lease_some s now).mpr ⟨l,hl,not_le.mp hlive,rfl⟩
      rw [hq] at hkept
      cases hkept
    total := hc.total }

/-- Also the expired rate slots of one lease may go. -/
theorem faded_pruned (h : Accounted s) {q : QueueId} {l : LeaseRecord}
    (hl : (s.cleanupExpired now).leases.find? q = some l) :
    Faded now s (setLease (s.cleanupExpired now) q (l.pruneSlots now)) := by
  have hc := faded_cleanup h now
  exact {
    frame := hc.frame
    grants := hc.grants
    kept := by
      intro a l' hl'
      rw [setLease_find?] at hl'
      split_ifs at hl' with ha
      · cases hl'
        subst ha
        obtain ⟨l₀,hl₀,hfaded,hqueue⟩ := hc.kept a l hl
        have hslots : l.dynamicGrants = l₀.dynamicGrants := by
          obtain ⟨l₁,hl₁,_,rfl⟩ := (cleanup_lease_some s now).mp hl
          cases hl₀.symm.trans hl₁
          rw [purge_eq_scan (h.cached a l₀ hl₀)]
        refine ⟨l₀,hl₀,⟨?_,hfaded.replay,hfaded.cached,.inr ?_⟩,hqueue⟩
        · unfold LeaseRecord.pruneSlots
          conv_lhs => rw [hfaded.same]
        · rw [← hslots]
          rfl
      · exact hc.kept a l' hl'
    dropped := by
      intro a ha
      rw [setLease_find?] at ha
      split_ifs at ha
      exact hc.dropped a ha
    total := hc.total }

end Fading

/-! ## Repeating an operation -/

section Retries
variable {P : Suite} {s : Store} {now later : ℕ}

theorem purge_later {l : LeaseRecord} (h : l.nextReplayExpiry = earliest l.replay)
    (hle : now ≤ later) : (l.purgeReplay now).purgeReplay later = l.purgeReplay later := by
  have hscan := purge_eq_scan h now
  have hcached : (l.purgeReplay now).nextReplayExpiry = earliest (l.purgeReplay now).replay := by
    rw [hscan]
  have hreplay : (l.replay.filter (fun r => r.expiry > now)).filter (fun r => r.expiry > later) =
      l.replay.filter (fun r => r.expiry > later) := by
    rw [List.filter_filter]
    apply List.filter_congr
    intro r _
    simp only [gt_iff_lt,Bool.and_eq_left_iff_imp,decide_eq_true_eq]
    omega
  rw [purge_eq_scan hcached,purge_eq_scan h later,hscan]
  simp only [hreplay]

theorem cleanup_later_grants (s : Store) (hle : now ≤ later) :
    ((s.cleanupExpired now).cleanupExpired later).grants = (s.cleanupExpired later).grants := by
  rw [(cleanup_frame _ later).1,(cleanup_frame s now).1,(cleanup_frame s later).1]
  apply SortedMap.ext_find?
  intro id
  simp only [SortedMap.find?_retain]
  cases s.grants.find? id with
  | none => rfl
  | some g =>
      by_cases hl : g.expiry > later
      · have hn : g.expiry > now := by omega
        simp [Option.filter,hl,hn]
      · by_cases hn : g.expiry > now <;> simp [Option.filter,hl,hn]

theorem purge_expiry (l : LeaseRecord) (now : ℕ) : (l.purgeReplay now).expiry = l.expiry := by
  unfold LeaseRecord.purgeReplay
  split_ifs <;> rfl

theorem cleanup_later_leases (h : Accounted s) (hle : now ≤ later) (q : QueueId) :
    ((s.cleanupExpired now).cleanupExpired later).leases.find? q =
      (s.cleanupExpired later).leases.find? q := by
  rw [cleanup_leases,cleanup_leases,cleanup_leases]
  cases hf : s.leases.find? q with
  | none => rfl
  | some l =>
      have hp := purge_later (h.cached q l hf) hle
      have he := purge_expiry l now
      by_cases hl : l.expiry > later
      · have hn : l.expiry > now := by omega
        simp [Option.filter,hl,hn,he,hp]
      · by_cases hn : l.expiry > now <;> simp [Option.filter,hl,hn,he]

theorem cleanup_later_queues (h : Accounted s) (hle : now ≤ later) (q : QueueId) :
    ((s.cleanupExpired now).cleanupExpired later).queues.queues.find? q =
      (s.cleanupExpired later).queues.queues.find? q := by
  have hsame := cleanup_later_leases h hle q
  cases hf : (s.cleanupExpired later).leases.find? q with
  | none =>
      have hl := accounted_cleanup h later
      have hnl := accounted_cleanup (accounted_cleanup h now) later
      rw [((faded_self hl later).dropped q hf).1,((faded_self hnl later).dropped q (hsame.trans hf)).1]
  | some l =>
      obtain ⟨l₁,hl₁,_,_⟩ := (cleanup_lease_some _ later).mp (hsame.trans hf)
      rw [cleanup_keeps_queue (hsame.trans hf),cleanup_keeps_queue hl₁,cleanup_keeps_queue hf]

/-- Totals and limits of an accounted store are determined by the rest. -/
theorem accounted_ext {s t : Store} (hs : Accounted s) (ht : Accounted t)
    (hservice : s.relayServiceId = t.relayServiceId) (hkey : s.admissionKey = t.admissionKey)
    (hconfig : s.config = t.config) (hgen : s.queues.nextGeneration = t.queues.nextGeneration)
    (hgrants : s.grants = t.grants) (hleases : ∀ q, s.leases.find? q = t.leases.find? q)
    (hqueues : ∀ q, s.queues.queues.find? q = t.queues.queues.find? q) : s = t := by
  have hq := SortedMap.ext_find? hqueues
  have hmax : s.queues.maxQueues = t.queues.maxQueues := by rw [hs.maxQueues,ht.maxQueues,hconfig]
  have htotal : s.queues.totalBytes = t.queues.totalBytes := by rw [hs.total,ht.total,hq]
  exact Store.ext hservice hkey hconfig hgrants (SortedMap.ext_find? hleases)
    (QueueStore.ext hmax hq htotal hgen)

/-- A cleanup does not change what a later one leaves. -/
theorem cleanup_later (h : Accounted s) (hle : now ≤ later) :
    (s.cleanupExpired now).cleanupExpired later = s.cleanupExpired later := by
  obtain ⟨_,hconfig,hservice,hkey,_,hgen⟩ := cleanup_frame (s.cleanupExpired now) later
  obtain ⟨_,hconfig₁,hservice₁,hkey₁,_,hgen₁⟩ := cleanup_frame s now
  obtain ⟨_,hconfig₂,hservice₂,hkey₂,_,hgen₂⟩ := cleanup_frame s later
  exact accounted_ext (accounted_cleanup (accounted_cleanup h now) later) (accounted_cleanup h later)
    (hservice.trans (hservice₁.trans hservice₂.symm)) (hkey.trans (hkey₁.trans hkey₂.symm))
    (hconfig.trans (hconfig₁.trans hconfig₂.symm)) (hgen.trans (hgen₁.trans hgen₂.symm))
    (cleanup_later_grants s hle) (cleanup_later_leases h hle) (cleanup_later_queues h hle)

/-- After a cleanup an event gets the answer that it would get without. -/
theorem exec_after_cleanup (h : Accounted s) (hle : now ≤ later) (event : Event) :
    (exec P later event (s.cleanupExpired now)).1 = (exec P later event s).1 := by
  have hclean : ∀ {α : Type} (f : Unit → Op α),
      (cleanup later >>= f) (s.cleanupExpired now) = (cleanup later >>= f) s := by
    intro α f
    rw [cleanup_bind,cleanup_bind,cleanup_later h hle]
  have hreply : ∀ {α : Type} (g : α → Reply) (f : Unit → Op α),
      (reply g (cleanup later >>= f) (s.cleanupExpired now)).1 =
        (reply g (cleanup later >>= f) s).1 := by
    intro α g f
    rw [reply,bind_assoc_run,bind_assoc_run,hclean]
  cases event with
  | issueTemporaryGrant request expiresAt draw =>
      have hconfig := (cleanup_frame s now).2.1
      simp only [exec,reply,issueTemporaryGrant,bind_assoc_run,read_bind,id]
      refine (Agree.demand_bind (by rw [hconfig]) (fun _ => Agree.of_eq ?_)).1
      rw [issueGrantWithBound,bind_assoc_run,bind_assoc_run,hclean]
  | cleanup => rfl
  | _ => exact hreply _ _

/-! A lease's rate slots play no part in a cleanup. -/

def withSlots (l : LeaseRecord) (slots : List ℕ) : LeaseRecord := { l with dynamicGrants := slots }

theorem purge_withSlots (l : LeaseRecord) (slots : List ℕ) (now : ℕ) :
    (withSlots l slots).purgeReplay now = withSlots (l.purgeReplay now) slots := by
  unfold withSlots LeaseRecord.purgeReplay
  split_ifs <;> rfl

theorem expiredIds_withSlots {q : QueueId} {l : LeaseRecord} (hl : s.leases.find? q = some l)
    (slots : List ℕ) (now : ℕ) (a : QueueId) :
    a ∈ expiredIds (setLease s q (withSlots l slots)) now ↔ a ∈ expiredIds s now := by
  rw [mem_expiredIds,mem_expiredIds,setLease_find?]
  by_cases ha : a = q
  · subst ha
    simp [hl,withSlots]
  · simp [ha]

theorem cleanup_withSlots (h : Accounted s) {q : QueueId} {l : LeaseRecord}
    (hl : s.leases.find? q = some l) (slots : List ℕ) :
    (setLease s q (withSlots l slots)).cleanupExpired now =
      if l.expiry ≤ now then s.cleanupExpired now
      else setLease (s.cleanupExpired now) q (withSlots (l.purgeReplay now) slots) := by
  have hset := accounted_setLease h hl (slots_update l slots)
  obtain ⟨hgrants,hconfig,hservice,hkey,_,hgen⟩ :=
    cleanup_frame (setLease s q (withSlots l slots)) now
  obtain ⟨hgrants₁,hconfig₁,hservice₁,hkey₁,_,hgen₁⟩ := cleanup_frame s now
  have hqueues : ∀ a, ((setLease s q (withSlots l slots)).cleanupExpired now).queues.queues.find? a =
      (s.cleanupExpired now).queues.queues.find? a := by
    intro a
    rw [cleanup_queues,cleanup_queues,if_congr (expiredIds_withSlots hl slots now a) rfl rfl]
    rfl
  have hleases : ∀ a, ((setLease s q (withSlots l slots)).cleanupExpired now).leases.find? a =
      if a = q then (if l.expiry ≤ now then none else some (withSlots (l.purgeReplay now) slots))
      else (s.cleanupExpired now).leases.find? a := by
    intro a
    rw [cleanup_leases,cleanup_leases,setLease_find?]
    by_cases ha : a = q
    · rw [if_pos ha,if_pos ha]
      by_cases he : l.expiry ≤ now
      · rw [if_pos he]
        have hdead : ¬ (withSlots l slots).expiry > now := not_lt.mpr he
        simp [Option.filter,hdead]
      · rw [if_neg he]
        have hlive : (withSlots l slots).expiry > now := not_le.mp he
        simp [Option.filter,hlive,purge_withSlots]
    · rw [if_neg ha,if_neg ha]
  by_cases he : l.expiry ≤ now
  · rw [if_pos he]
    refine accounted_ext (accounted_cleanup hset now) (accounted_cleanup h now)
      (hservice.trans hservice₁.symm) (hkey.trans hkey₁.symm) (hconfig.trans hconfig₁.symm)
      (hgen.trans hgen₁.symm) (hgrants.trans hgrants₁.symm) (fun a => ?_) hqueues
    rw [hleases,if_pos he]
    split_ifs with ha
    · rw [ha,cleanup_leases,hl]
      simp [Option.filter,not_lt.mpr he]
    · rfl
  · rw [if_neg he]
    have hkept := (cleanup_lease_some s now).mpr ⟨l,hl,not_le.mp he,rfl⟩
    refine accounted_ext (accounted_cleanup hset now)
      (accounted_setLease (accounted_cleanup h now) hkept (slots_update _ slots))
      (hservice.trans hservice₁.symm) (hkey.trans hkey₁.symm) (hconfig.trans hconfig₁.symm)
      (hgen.trans hgen₁.symm) (hgrants.trans hgrants₁.symm) (fun a => ?_) hqueues
    rw [hleases,if_neg he,setLease_find?]

theorem pruneSlots_later (l : LeaseRecord) (hle : now ≤ later) :
    (l.pruneSlots now).pruneSlots later = l.pruneSlots later := by
  have hslots : (l.dynamicGrants.filter (fun issued => satAdd issued 60 > now)).filter
      (fun issued => satAdd issued 60 > later) =
      l.dynamicGrants.filter (fun issued => satAdd issued 60 > later) := by
    rw [List.filter_filter]
    apply List.filter_congr
    intro issued _
    simp only [gt_iff_lt,Bool.and_eq_left_iff_imp,decide_eq_true_eq]
    omega
  simp only [LeaseRecord.pruneSlots,hslots]

section Agreement
variable {α : Type} {t : Store} {f g : LeaseRecord → Op α}

theorem leaseOf_bind_some {l : LeaseRecord} {q : QueueId} (hl : s.leases.find? q = some l) :
    (leaseOf q >>= f) s = f l s := by
  rw [leaseOf,bind_assoc_run,read_bind,id,hl]
  rfl

theorem agree_leaseOf_bind {l m : LeaseRecord} {q : QueueId} (hl : s.leases.find? q = some l)
    (hm : t.leases.find? q = some m) (h : Agree (f l) s (g m) t) :
    Agree (leaseOf q >>= f) s (leaseOf q >>= g) t :=
  h.congr (leaseOf_bind_some hl) (leaseOf_bind_some hm)

theorem agree_purgedLeaseOf_bind (hs : Tidy now s) (ht : Tidy now t) {l m : LeaseRecord} {q : QueueId}
    (hl : s.leases.find? q = some l) (hm : t.leases.find? q = some m)
    (h : Agree (f l) s (g m) t) : Agree (purgedLeaseOf q now >>= f) s (purgedLeaseOf q now >>= g) t :=
  (agree_leaseOf_bind hl hm h).congr (purgedLeaseOf_bind_run hs _ _) (purgedLeaseOf_bind_run ht _ _)

theorem agree_policyOf_bind {horizon : StoreConfig → ℕ} {f g : ValidationPolicy → Op α}
    (hconfig : s.config = t.config) (h : ∀ p, Agree (f p) s (g p) t) :
    Agree (policyOf now horizon >>= f) s (policyOf now horizon >>= g) t := by
  have hp : s.policy now (horizon s.config) = t.policy now (horizon t.config) := by
    rw [Store.policy,Store.policy,hconfig]
  have ha : Agree (Cmd.attempt refuse (t.policy now (horizon t.config)) >>= f) s
      (Cmd.attempt refuse (t.policy now (horizon t.config)) >>= g) t :=
    Agree.attempt_bind (fun p _ => h p)
  refine ha.congr ?_ ?_
  · rw [policyOf,bind_assoc_run,read_bind,id,hp]
  · rw [policyOf,bind_assoc_run,read_bind,id]

theorem agree_shortQueueId_bind {wire : Bytes} {f g : QueueId → Op α}
    (h : Agree (f (blockAt 32 wire 2)) s (g (blockAt 32 wire 2)) t) :
    Agree (shortQueueId wire >>= f) s (shortQueueId wire >>= g) t := by
  have hd : Agree (Cmd.demand (34 ≤ wire.length) (refuse .unauthorized) >>=
      fun _ => f (blockAt 32 wire 2)) s (Cmd.demand (34 ≤ wire.length) (refuse .unauthorized) >>=
      fun _ => g (blockAt 32 wire 2)) t := Agree.demand_bind Iff.rfl (fun _ => h)
  refine hd.congr ?_ ?_
  · rw [shortQueueId,bind_assoc_run]
    rfl
  · rw [shortQueueId,bind_assoc_run]
    rfl

end Agreement

/-- Charging an authority reads its rate slots after it has pruned them itself. -/
theorem charge_pruned {c : Store} {wire : Bytes} {l : LeaseRecord} (hle : now ≤ later)
    (ht : Tidy later c) (ht' : Tidy later (setLease c (blockAt 32 wire 2) (l.pruneSlots now)))
    (hl : c.leases.find? (blockAt 32 wire 2) = some l) :
    Agree (chargeAuthority P wire later) (setLease c (blockAt 32 wire 2) (l.pruneSlots now))
      (chargeAuthority P wire later) c := by
  have hl' : (setLease c (blockAt 32 wire 2) (l.pruneSlots now)).leases.find? (blockAt 32 wire 2) =
      some (l.pruneSlots now) := by
    rw [setLease_find?,if_pos rfl]
  refine agree_shortQueueId_bind (agree_policyOf_bind rfl (fun policy => ?_))
  refine agree_leaseOf_bind hl' hl (Agree.demand_bind Iff.rfl (fun _ => ?_))
  refine agree_purgedLeaseOf_bind ht' ht hl' hl (Agree.attempt_bind (fun request _ => ?_))
  refine Agree.demand_bind Iff.rfl (fun _ => Agree.of_eq ?_)
  rw [pruneSlots_later l hle,putLease_bind,putLease_bind,setLease_setLease]
  rfl

theorem purge_slots (l : LeaseRecord) (now : ℕ) :
    (l.purgeReplay now).dynamicGrants = l.dynamicGrants := by
  unfold LeaseRecord.purgeReplay
  split_ifs <;> rfl

/-- A request whose authority lost its expired rate slots gets the answer that it would get
without. -/
theorem exec_after_pruned (h : Accounted s) (hle : now ≤ later) {wire : Bytes} {draw : Draw}
    {l : LeaseRecord} (hl : (s.cleanupExpired now).leases.find? (blockAt 32 wire 2) = some l) :
    (exec P later (.issueDynamicGrant wire draw)
      (setLease (s.cleanupExpired now) (blockAt 32 wire 2) (l.pruneSlots now))).1 =
    (exec P later (.issueDynamicGrant wire draw) s).1 := by
  have hc := accounted_cleanup h now
  have hpruned := @cleanup_withSlots _ later hc _ _ hl (l.pruneSlots now).dynamicGrants
  rw [cleanup_later h hle] at hpruned
  change (setLease (s.cleanupExpired now) (blockAt 32 wire 2) (l.pruneSlots now)).cleanupExpired later =
    _ at hpruned
  simp only [exec,reply,issueDynamicGrant,bind_assoc_run,cleanup_bind]
  by_cases he : l.expiry ≤ later
  · rw [if_pos he] at hpruned
    rw [hpruned]
  · rw [if_neg he] at hpruned
    have hsame : withSlots (l.purgeReplay later) (l.pruneSlots now).dynamicGrants =
        (l.purgeReplay later).pruneSlots now := by
      simp only [withSlots,LeaseRecord.pruneSlots,purge_slots]
    have hl' : (s.cleanupExpired later).leases.find? (blockAt 32 wire 2) =
        some (l.purgeReplay later) := by
      rw [← cleanup_later h hle]
      exact (cleanup_lease_some _ later).mpr ⟨l,hl,not_le.mp he,rfl⟩
    have htidy := cleanup_tidy (setLease (s.cleanupExpired now) (blockAt 32 wire 2) (l.pruneSlots now)) later
    rw [hpruned,hsame] at htidy
    rw [hpruned,hsame]
    exact (Agree.bind (charge_pruned hle (cleanup_tidy s later) htidy hl')
      (fun _ _ _ => Agree.of_eq rfl)).1

end Retries

/-! ## The grant that a charged authority does not get -/

section Charges
variable {P : Suite} {s s' : Store} {now : ℕ}

/-- The event is an authentic and fresh request for a dynamic grant, the authority has a free
rate slot and a free replay slot, but there is no room for a grant or the limits are too high. -/
def Charged (P : Suite) (now : ℕ) (s : Store) : Event → Prop
  | .issueDynamicGrant wire _ =>
      let c := s.cleanupExpired now
      ∃ l policy request, c.leases.find? (blockAt 32 wire 2) = some l ∧
        l.temporaryExpiry = none ∧ c.policy now c.config.grantLifetimeSecs = .ok policy ∧
        DynamicGrantRequest.decodeAndVerify P wire l.capabilities.admin c.relayServiceId l.queueId
          l.epoch policy = .ok request ∧
        l.hasReplay l.epoch .grant request.nonce = false ∧
        l.replayCount .grant < c.config.maxReplayNoncesPerLease ∧
        (l.dynamicGrants.filter (fun issued => satAdd issued 60 > now)).length <
          c.config.dynamicGrantsPerMinute ∧
        (c.config.maxGrants ≤ c.grants.size ∨
          c.config.relayLimits.maxQueueCells < request.limits.maxQueueCells ∨
          c.config.relayLimits.maxQueueBytes < request.limits.maxQueueBytes)
  | _ => False

theorem policy_ok {horizon : ℕ} {p : ValidationPolicy} (h : s.policy now horizon = .ok p) :
    now+horizon < 2^64 ∧ s.config.clockSkewSecs ≤ maxClockSkewSecs ∧
      p = ⟨now,s.config.clockSkewSecs,now+horizon⟩ := by
  unfold Store.policy at h
  cases hc : checkedAdd now horizon with
  | none =>
      rw [hc] at h
      cases h
  | some expiry =>
      obtain ⟨hlt,rfl⟩ := checkedAdd_eq_some.mp hc
      simp only [hc,Fallible.renamed_eq_ok,ValidationPolicy.new,Fallible.sequence_eq_ok,
        Fallible.require_eq_ok,Fallible.done_eq_ok] at h
      obtain ⟨_,hskew,rfl⟩ := h
      exact ⟨hlt,hskew,rfl⟩

theorem eq_pad_of_zero {n : ℕ} {b : Block n} (h : ∀ x ∈ b.toList, x = 0) : b = pad n [] := by
  apply List.Vector.eq
  have hb : b.toList = List.replicate n 0 := List.eq_replicate_iff.mpr ⟨b.toList_length,h⟩
  rw [hb]
  simp [pad,List.Vector.toList]

theorem request_valid {wire : Bytes} {cap service : Block 32} {q : QueueId} {epoch : ℕ}
    {p : ValidationPolicy} {v : DynamicGrantRequest}
    (h : DynamicGrantRequest.decodeAndVerify P wire cap service q epoch p = .ok v) :
    (¬ ∀ b ∈ v.queueId.toList, b = 0) ∧ v.epoch ≠ 0 ∧ v.limits.maxQueueCells ≠ 0 ∧
      v.limits.maxQueueBytes ≠ 0 := by
  simp only [DynamicGrantRequest.decodeAndVerify,DynamicGrantRequest.validate,requireRandom,
    Fallible.sequence_eq_ok,Fallible.done_eq_ok,Fallible.require_eq_ok] at h
  obtain ⟨_,_,_,_,_,_,_,_,_,⟨_,_,_,hq,_,_,_,he,_,_,hl⟩,_,_,rfl⟩ := h
  exact ⟨hq,he.2,hl.1,hl.2⟩

/-- Only the two capacity checks can still refuse a grant to a charged authority. -/
theorem issueGrant_total {wire : Bytes} {draw : Draw} {cap service : Block 32} {q : QueueId}
    {epoch : ℕ} {p policy : ValidationPolicy} {request : DynamicGrantRequest}
    (hpositive : 0 < s.config.grantLifetimeSecs)
    (hdraw : draw.Accepted (s.cleanupExpired now) request.queueId)
    (hrequest : DynamicGrantRequest.decodeAndVerify P wire cap service q epoch p = .ok request)
    (hpolicy : s.policy now s.config.grantLifetimeSecs = .ok policy)
    (hroom : (s.cleanupExpired now).grants.size < s.config.maxGrants)
    (hcells : request.limits.maxQueueCells ≤ s.config.relayLimits.maxQueueCells)
    (hbytes : request.limits.maxQueueBytes ≤ s.config.relayLimits.maxQueueBytes) :
    ∃ v s', issueGrant P ⟨request.queueId,request.epoch,request.limits⟩ draw now s = (.ok v,s') := by
  obtain ⟨hqueue,hepoch,hcells₀,hbytes₀⟩ := request_valid hrequest
  obtain ⟨hlt,hskew,rfl⟩ := policy_ok hpolicy
  obtain ⟨hid,_,hcap,_,_⟩ := hdraw
  have hconfig := (cleanup_frame s now).2.1
  have hpolicy' : (s.cleanupExpired now).policy now (s.cleanupExpired now).config.grantLifetimeSecs =
      .ok ⟨now,s.config.clockSkewSecs,now+s.config.grantLifetimeSecs⟩ := by
    rw [← hpolicy,Store.policy,Store.policy,hconfig]
  simp only [issueGrant,issueGrantWithBound,cleanup_bind,read_bind,demand_bind_ok,obtain_bind_ok,
    policyOf_bind_ok,attempt_bind_ok,putGrant_bind,pure_ok,id]
  refine ⟨_,_,?_,now+s.config.grantLifetimeSecs,?_,_,hpolicy',(),?_,rfl,rfl⟩
  · rw [hconfig]
    simp only [not_or,not_le,not_lt,ge_iff_le,gt_iff_lt]
    exact ⟨hroom,hcells,hbytes,hcells₀,hbytes₀⟩
  · rw [hconfig]
    exact checkedAdd_eq_some.mpr ⟨hlt,rfl⟩
  · simp only [AdmissionGrant.validate,validatePolicy,requireRandom,ValidationPolicy.validateExpiry,
      Fallible.sequence_eq_ok,Fallible.require_eq_ok,satAdd]
    refine ⟨(),hskew,(),fun hz => hid (eq_pad_of_zero hz),(),fun hz => hcap (eq_pad_of_zero hz),
      (),hqueue,(),hepoch,(),?_,(),?_,(),?_,le_rfl⟩
    · omega
    · exact Fallible.require_eq_ok.mpr (by omega)
    · exact Fallible.require_eq_ok.mpr (by omega)

theorem charge_iff (ht : Tidy now s) {wire : Bytes} {request : DynamicGrantRequest} :
    chargeAuthority P wire now s = (.ok request,s') ↔ ∃ policy l l₁, 34 ≤ wire.length ∧
      s.policy now s.config.grantLifetimeSecs = .ok policy ∧
      s.leases.find? (blockAt 32 wire 2) = some l ∧ l.temporaryExpiry = none ∧
      DynamicGrantRequest.decodeAndVerify P wire l.capabilities.admin s.relayServiceId l.queueId
        l.epoch policy = .ok request ∧
      l.hasReplay l.epoch .grant request.nonce = false ∧
      (l.pruneSlots now).dynamicGrants.length < s.config.dynamicGrantsPerMinute ∧
      (l.pruneSlots now).recordReplay ⟨l.epoch,.grant,request.nonce,request.expiry,none⟩
        s.config.maxReplayNoncesPerLease = .ok l₁ ∧
      s' = setLease s (blockAt 32 wire 2) (l₁.addSlot now) := by
  simp only [chargeAuthority,shortQueueId_bind_ok,read_bind,policyOf_bind_ok,leaseOf_bind_ok,
    purgedLeaseOf_bind_ok ht,demand_bind_ok,attempt_bind_ok,putLease_bind,pure_ok,id]
  constructor
  · rintro ⟨hlen,policy,hp,l₀,hl₀,htemp,l,hl,r,hr,hfresh,hslots,l₁,hrec,rfl,rfl⟩
    cases hl₀.symm.trans hl
    exact ⟨policy,l₀,l₁,hlen,hp,hl,htemp,hr,hfresh,hslots,hrec,setLease_setLease _ _ _ _⟩
  · rintro ⟨policy,l,l₁,hlen,hp,hl,htemp,hr,hfresh,hslots,hrec,rfl⟩
    exact ⟨hlen,policy,hp,l,hl,htemp,l,hl,request,hr,hfresh,hslots,l₁,hrec,rfl,
      setLease_setLease _ _ _ _⟩

theorem issueGrant_granted (hpositive : 0 < s.config.grantLifetimeSecs)
    {wire : Bytes} {draw : Draw} (hd : (Event.issueDynamicGrant wire draw).Drawn now s)
    (hn : ¬ Charged P now s (.issueDynamicGrant wire draw)) {request : DynamicGrantRequest}
    {s₁ : Store} (hcharge : chargeAuthority P wire now (s.cleanupExpired now) = (.ok request,s₁)) :
    ∃ v s', issueGrant P ⟨request.queueId,request.epoch,request.limits⟩ draw now s₁ = (.ok v,s') := by
  have hconfig := (cleanup_frame s now).2.1
  obtain ⟨policy,l,l₁,_,hp,hl,htemp,hr,hfresh,hslots,hrec,rfl⟩ :=
    (charge_iff (cleanup_tidy s now)).mp hcharge
  have hcount := (recordReplay_ok hrec).1
  have hgrants : ((setLease (s.cleanupExpired now) (blockAt 32 wire 2) (l₁.addSlot now)).cleanupExpired
      now).grants = (s.cleanupExpired now).grants := by
    rw [(cleanup_frame _ now).1]
    change (s.cleanupExpired now).grants.retain (fun _ g => g.expiry > now) = _
    rw [← (cleanup_frame (s.cleanupExpired now) now).1,cleanup_later_grants s le_rfl]
  obtain ⟨hbody,_⟩ := request_decoded hr
  have hroom : ¬ ((s.cleanupExpired now).config.maxGrants ≤ (s.cleanupExpired now).grants.size ∨
      (s.cleanupExpired now).config.relayLimits.maxQueueCells < request.limits.maxQueueCells ∨
      (s.cleanupExpired now).config.relayLimits.maxQueueBytes < request.limits.maxQueueBytes) :=
    fun hfull => hn ⟨l,policy,request,hl,htemp,hp,hr,hfresh,hcount,hslots,hfull⟩
  simp only [not_or,not_le,not_lt] at hroom
  refine issueGrant_total (s := setLease (s.cleanupExpired now) (blockAt 32 wire 2) (l₁.addSlot now))
    ?_ ?_ hr hp ?_ hroom.2.1 hroom.2.2
  · change 0 < (s.cleanupExpired now).config.grantLifetimeSecs
    rw [hconfig]
    exact hpositive
  · unfold Draw.Accepted
    rw [hgrants,hbody]
    exact hd
  · rw [hgrants]
    exact hroom.1

/-- A charged authority has one more rate slot in use. -/
theorem charged_slot {c : Store} {wire : Bytes} {request : DynamicGrantRequest} {s₁ : Store}
    (ht : Tidy now c) (hcharge : chargeAuthority P wire now c = (.ok request,s₁)) :
    ∃ l l', c.leases.find? (blockAt 32 wire 2) = some l ∧
      s₁ = setLease c (blockAt 32 wire 2) l' ∧ l'.expiry = l.expiry ∧
      l'.dynamicGrants = (l.pruneSlots now).dynamicGrants++[now] := by
  obtain ⟨policy,l,l₁,_,_,hl,_,_,_,_,hrec,rfl⟩ := (charge_iff ht).mp hcharge
  obtain ⟨_,rfl⟩ := recordReplay_ok hrec
  exact ⟨l,_,hl,rfl,rfl,rfl⟩

theorem slots_grow (slots : List ℕ) (h : now < 2^64-1) :
    slots.filter (fun issued => satAdd issued 60 > now)++[now] ≠ slots ∧
      slots.filter (fun issued => satAdd issued 60 > now)++[now] ≠
        slots.filter (fun issued => satAdd issued 60 > now) := by
  have hnow : decide (satAdd now 60 > now) = true := by
    rw [decide_eq_true_eq,satAdd]
    omega
  constructor
  · intro heq
    have hf := congrArg (List.filter (fun issued => decide (satAdd issued 60 > now))) heq
    have hlen := congrArg List.length hf
    simp [hnow] at hlen
  · intro heq
    have hlen := congrArg List.length heq
    simp at hlen

theorem charged_charge {wire : Bytes} {draw : Draw}
    (hc : Charged P now s (.issueDynamicGrant wire draw)) :
    ∃ request s₁, chargeAuthority P wire now (s.cleanupExpired now) = (.ok request,s₁) ∧
      now+s.config.grantLifetimeSecs < 2^64 := by
  obtain ⟨l,policy,request,hl,htemp,hp,hr,hfresh,hcount,hslots,_⟩ := hc
  have hlen : 34 ≤ wire.length := by
    simp only [DynamicGrantRequest.decodeAndVerify,requireLen,Fallible.sequence_eq_ok,
      Fallible.require_eq_ok] at hr
    obtain ⟨_,hlen,_⟩ := hr
    rw [hlen]
    decide
  have hrec : ∃ l₁, (l.pruneSlots now).recordReplay ⟨l.epoch,.grant,request.nonce,request.expiry,none⟩
      (s.cleanupExpired now).config.maxReplayNoncesPerLease = .ok l₁ :=
    ⟨_,if_neg (not_le.mpr hcount)⟩
  obtain ⟨l₁,hrec⟩ := hrec
  refine ⟨request,_,(charge_iff (cleanup_tidy s now)).mpr
    ⟨policy,l,l₁,hlen,hp,hl,htemp,hr,hfresh,hslots,hrec,rfl⟩,?_⟩
  have hlt := (policy_ok hp).1
  rwa [(cleanup_frame s now).2.1] at hlt

/-- What a charged authority lost is still missing after the refusal. -/
theorem charged_not_faded (hpositive : 0 < s.config.grantLifetimeSecs) {wire : Bytes} {draw : Draw}
    (hc : Charged P now s (.issueDynamicGrant wire draw)) {e : Fault}
    (h : exec P now (.issueDynamicGrant wire draw) s = (.error e,s')) : ¬ Faded now s s' := by
  intro hfaded
  obtain ⟨request,s₁,hcharge,hlt⟩ := charged_charge hc
  obtain ⟨l,l',hl,rfl,hexp,hslots⟩ := charged_slot (cleanup_tidy s now) hcharge
  have hrefused := reply_error h
  rw [issueDynamicGrant,cleanup_bind,bind_run,hcharge] at hrefused
  have hs' := issueGrantWithBound_aborts (A := fun _ t => t = Store.cleanupExpired _ now)
    (fun _ => rfl) e s' hrefused
  obtain ⟨l₀,hl₀,hlive,rfl⟩ := (cleanup_lease_some s now).mp hl
  have hafter : s'.leases.find? (blockAt 32 wire 2) = some (l'.purgeReplay now) := by
    rw [hs']
    refine (cleanup_lease_some _ now).mpr ⟨l',by rw [setLease_find?,if_pos rfl],?_,rfl⟩
    rw [hexp,purge_expiry]
    exact hlive
  obtain ⟨l₁,hl₁,hlease,_⟩ := hfaded.kept _ _ hafter
  cases hl₀.symm.trans hl₁
  have hgrow := @slots_grow now l₀.dynamicGrants (by omega)
  have hnew : (l'.purgeReplay now).dynamicGrants =
      l₀.dynamicGrants.filter (fun issued => satAdd issued 60 > now)++[now] := by
    rw [purge_slots,hslots,LeaseRecord.pruneSlots,purge_slots]
  cases hlease.slots with
  | inl hsame => exact hgrow.1 (hnew.symm.trans hsame)
  | inr hpruned => exact hgrow.2 (hnew.symm.trans hpruned)

end Charges

/-- A refused operation leaves the store as it was apart from what had expired, and gets the
same answers as if it had not been tried before, except where it has charged an authority. -/
theorem refused_without_trace {P : Suite} {service key : Block 32} {config : StoreConfig}
    {s₀ s s' : Store} (h₀ : Store.new service key config = .ok s₀) {log : List Entry}
    (hr : Run P s₀ log s) {now : ℕ} {event : Event} (hd : event.Drawn now s) {err : StoreError}
    (h : exec P now event s = (.error (.error err),s')) :
    (Faded now s s' ∧
      ∀ later, now ≤ later → (exec P later event s').1 = (exec P later event s).1) ↔
    ¬ Charged P now s event := by
  have hacc := (run_steps (new_accounted h₀) hr).1
  have hpositive : 0 < s.config.grantLifetimeSecs := by
    rw [run_config (new_accounted h₀) hr]
    unfold Store.new at h₀
    split_ifs at h₀ with hzero
    split at h₀
    · cases h₀
    · cases h₀
      simp only [not_or] at hzero
      exact Nat.pos_of_ne_zero hzero.2.2.2.2.2.2.2.1
  constructor
  · intro hgood hc
    cases event with
    | issueDynamicGrant wire draw => exact charged_not_faded hpositive hc h hgood.1
    | _ => exact hc
  · intro hn
    refine exec_aborts (A := fun _ t => Faded now s t ∧
      ∀ later, now ≤ later → (exec P later event t).1 = (exec P later event s).1) event
      ((accounted_cleanup hacc now).tolerates (fun _ => ?_)) (fun _ => ?_) ?_ ?_ _ s' h
    · exact ⟨faded_cleanup hacc now,fun later hle => exec_after_cleanup hacc hle event⟩
    · exact ⟨faded_self hacc now,fun later _ => rfl⟩
    · rintro wire draw l e rfl hl
      exact ⟨faded_pruned hacc hl,fun later hle => exec_after_pruned hacc hle hl⟩
    · rintro wire draw request s₁ rfl hcharge e t hgrant
      obtain ⟨v,t',hok⟩ := issueGrant_granted hpositive hd hn hcharge
      rw [hok] at hgrant
      cases hgrant

/-! The sample relay has room for one grant, which is in use until time 1050. -/

def sampleIssued : Store := (perform openSuite sampleStart (sampleEvents.take 2)).2

def sampleNextDraw : Draw := ⟨wordBlock 16 22,wordBlock 32 23⟩

def sampleDynamic : Event :=
  .issueDynamicGrant (DynamicGrantRequest.encode openSuite ⟨wordBlock 32 3,1,wordBlock 32 20,1,
    ⟨4,1024⟩,wordBlock 16 21,1060⟩ (wordBlock 32 8) (wordBlock 32 1)) sampleNextDraw

set_option maxRecDepth 20000 in
theorem sampleIssued_reached :
    Run openSuite sampleStart (perform openSuite sampleStart (sampleEvents.take 2)).1 sampleIssued :=
  perform_run (sampleEvents.take 2) .start (by decide +kernel)

set_option maxRecDepth 20000 in
theorem refused_without_trace_sample :
    (exec openSuite 1000 (.issueGrant sampleRequest sampleNextDraw) sampleIssued).1 =
        .error (.error .capacity) ∧
      Faded 1000 sampleIssued
        (exec openSuite 1000 (.issueGrant sampleRequest sampleNextDraw) sampleIssued).2 :=
  ⟨by decide +kernel,((@refused_without_trace openSuite (wordBlock 32 1) (wordBlock 32 2) sampleConfig
    sampleStart sampleIssued _ rfl _ sampleIssued_reached 1000
    (.issueGrant sampleRequest sampleNextDraw) (by decide +kernel) .capacity
    (Prod.ext (by decide +kernel) rfl)).mpr id).1⟩

def sampleRefused : Store := (exec openSuite 1000 sampleDynamic sampleIssued).2

set_option maxRecDepth 20000 in
/-- A request refused at time 1000 for want of room is a replay at time 1055, when there is
room. Presented for the first time then it gets its grant. -/
theorem refused_grant_uses_nonce :
    (∃ log, Run openSuite sampleStart log sampleIssued) ∧
      (exec openSuite 1000 sampleDynamic sampleIssued).1 = .error (.error .capacity) ∧
      (sampleRefused.leases.find? (wordBlock 32 3)).map (·.dynamicGrants) = some [1000] ∧
      (sampleIssued.leases.find? (wordBlock 32 3)).map (·.dynamicGrants) = some [] ∧
      (exec openSuite 1055 sampleDynamic sampleRefused).1 = .error (.error .replay) ∧
      ((exec openSuite 1055 sampleDynamic sampleIssued).1).isOk = true :=
  ⟨⟨_,sampleIssued_reached⟩,by decide +kernel⟩

end Gcoms.LeaseRefusal
