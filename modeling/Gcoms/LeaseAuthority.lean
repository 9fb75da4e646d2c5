import Gcoms.LeaseDelivery

/-!
# Authority over a lease

What a grant, an epoch or a subscription handle once lost does not come back,
whatever the clock reads. Grant ids that are drawn twice are excluded by
hypothesis: the code only draws again when the id is in the table at that time.
The effects of a run say which grant was issued with which deadline and which
incarnation was created from which grant.
-/
namespace Gcoms.LeaseAuthority
open ByteCodec SortedMaps Primitives Commands RelayCells RelayCodec LeaseCodec LeaseStore LeaseSteps
  LeaseEdits LeaseEvents LeaseAccounting LeaseDelivery

/-! ## Grants -/

def grantedBy : Effect → Option GrantId
  | .grant id _ => some id
  | _ => none

def createdBy : Effect → Option GrantId
  | .create id _ => some id
  | _ => none

def grantIds (ops : List Effect) : List GrantId := ops.filterMap grantedBy

def createdIds (ops : List Effect) : List GrantId := ops.filterMap createdBy

theorem mem_grantIds {ops : List Effect} {id : GrantId} :
    id ∈ grantIds ops ↔ ∃ t, .grant id t ∈ ops := by
  rw [grantIds,List.mem_filterMap]
  constructor
  · rintro ⟨op,hop,hid⟩
    cases op with
    | grant id' t =>
        cases hid
        exact ⟨t,hop⟩
    | _ => cases hid
  · rintro ⟨t,ht⟩
    exact ⟨_,ht,rfl⟩

theorem mem_createdIds {ops : List Effect} {id : GrantId} :
    id ∈ createdIds ops ↔ ∃ g, .create id g ∈ ops := by
  rw [createdIds,List.mem_filterMap]
  constructor
  · rintro ⟨op,hop,hid⟩
    cases op with
    | create id' g =>
        cases hid
        exact ⟨g,hop⟩
    | _ => cases hid
  · rintro ⟨g,hg⟩
    exact ⟨_,hg,rfl⟩

/-- Distinct ids have one deadline each. -/
theorem deadline_unique {ops : List Effect} (hn : (grantIds ops).Nodup) {id : GrantId}
    {t u : Option ℕ} (ht : .grant id t ∈ ops) (hu : .grant id u ∈ ops) : t = u := by
  induction ops with
  | nil => cases ht
  | cons op ops ih =>
      have htail : (grantIds ops).Nodup := hn.sublist ((List.sublist_cons_self op ops).filterMap _)
      have hhead : ∀ {v w}, op = .grant id v → .grant id w ∉ ops := by
        rintro v w rfl hw
        have hc := (List.nodup_cons.mp hn).1
        exact hc (mem_grantIds.mpr ⟨w,hw⟩)
      cases List.mem_cons.mp ht with
      | inl het =>
          cases List.mem_cons.mp hu with
          | inl heu => exact (Effect.grant.inj (het.trans heu.symm)).2
          | inr hin => exact absurd hin (hhead het.symm)
      | inr hin =>
          cases List.mem_cons.mp hu with
          | inl heu => exact absurd hin (hhead heu.symm)
          | inr hin' => exact ih htail hin hin'

/-- The lease came from a grant with this deadline and keeps to it. -/
def Bounded (t : Option ℕ) (l : LeaseRecord) : Prop :=
  l.temporaryExpiry = t ∧ withinBound t l.expiry = true

theorem Bounded.purge {t : Option ℕ} {now : ℕ} (l : LeaseRecord) (h : Bounded t l) :
    Bounded t (l.purgeReplay now) := by
  unfold LeaseRecord.purgeReplay
  split_ifs
  · exact h
  · exact h

theorem Bounded.update {t : Option ℕ} (l l' : LeaseRecord) (hu : LeaseUpdate l l')
    (h : Bounded t l) : Bounded t l' := by
  obtain ⟨rfl,hb⟩ := h
  have hb' := hu.bound hb
  rw [hu.temporaryExpiry] at hb'
  exact ⟨hu.temporaryExpiry,hb'⟩

structure Granted (ops : List Effect) (s : Store) : Prop where
  known : ∀ id g, s.grants.find? id = some g → .grant id g.temporaryExpiry ∈ ops
  used : ∀ id, id ∈ createdIds ops → id ∈ grantIds ops ∧
    ∀ g, s.grants.find? id = some g → g.status = .consumed
  once : (createdIds ops).Nodup
  bound : ∀ id g, .create id g ∈ ops → ∃ t, .grant id t ∈ ops ∧ ForIncarnation g (Bounded t) s

section Grants
variable {s s' : Store} {ops : List Effect}

theorem granted_new {service key : Block 32} {config : StoreConfig}
    (h : Store.new service key config = .ok s) : Granted [] s := by
  unfold Store.new at h
  split_ifs at h
  split at h
  · cases h
  · cases h
    exact {
      known := fun id g hg => by cases hg
      used := fun id hid => (List.not_mem_nil hid).elim
      once := List.nodup_nil
      bound := fun id g hg => (List.not_mem_nil hg).elim }

/-- A step that adds no grant and creates nothing. -/
theorem granted_keep {op : List Effect} (h : Granted ops s)
    (hop : grantIds op = [] ∧ createdIds op = [])
    (hsub : ∀ id g, s'.grants.find? id = some g → s.grants.find? id = some g)
    (hfor : ∀ g t, ForIncarnation g (Bounded t) s → ForIncarnation g (Bounded t) s') :
    Granted (ops++op) s' := by
  have hgrants : grantIds (ops++op) = grantIds ops := by
    rw [grantIds,List.filterMap_append]
    exact (congrArg _ hop.1).trans (List.append_nil _)
  have hcreated : createdIds (ops++op) = createdIds ops := by
    rw [createdIds,List.filterMap_append]
    exact (congrArg _ hop.2).trans (List.append_nil _)
  exact {
    known := fun id g hg => List.mem_append_left _ (h.known id g (hsub id g hg))
    used := by
      intro id hid
      rw [hcreated] at hid
      rw [hgrants]
      exact ⟨(h.used id hid).1,fun g hg => (h.used id hid).2 g (hsub id g hg)⟩
    once := hcreated ▸ h.once
    bound := by
      intro id g hg
      have hold : .create id g ∈ ops := by
        cases List.mem_append.mp hg with
        | inl hin => exact hin
        | inr hin =>
            have hid := mem_createdIds.mpr ⟨g,hin⟩
            rw [hop.2] at hid
            exact (List.not_mem_nil hid).elim
      obtain ⟨t,ht,hb⟩ := h.bound id g hold
      exact ⟨t,List.mem_append_left _ ht,hfor g t hb⟩ }

theorem granted_cleanup (h : Granted ops s) (now : ℕ) : Granted ops (s.cleanupExpired now) := by
  have hsub : ∀ id g, (s.cleanupExpired now).grants.find? id = some g →
      s.grants.find? id = some g := by
    intro id g hg
    rw [(cleanup_frame s now).1,SortedMap.find?_retain] at hg
    exact (Option.filter_eq_some_iff.mp hg).1
  have hk : Granted (ops++[]) (s.cleanupExpired now) := granted_keep h ⟨rfl,rfl⟩ hsub
    (fun g t => forIncarnation_cleanup (fun _ => Bounded.purge _))
  rwa [List.append_nil] at hk

/-- A new grant has a new id. -/
theorem granted_grant {id : GrantId} {g : GrantRecord} (h : Granted ops s)
    (hn : (grantIds (ops++[.grant id g.temporaryExpiry])).Nodup) :
    Granted (ops++[.grant id g.temporaryExpiry]) (setGrant s id g) := by
  have hnew : id ∉ grantIds ops := by
    rw [grantIds,List.filterMap_append] at hn
    intro hid
    exact (List.nodup_append.mp hn).2.2 id hid id List.mem_cons_self rfl
  have hcreated : createdIds (ops++[.grant id g.temporaryExpiry]) = createdIds ops := by
    rw [createdIds,List.filterMap_append]
    exact List.append_nil _
  exact {
    known := by
      intro a ga ha
      rw [setGrant_find?] at ha
      split_ifs at ha with haid
      · cases ha
        subst haid
        exact List.mem_append_right _ List.mem_cons_self
      · exact List.mem_append_left _ (h.known a ga ha)
    used := by
      intro a ha
      rw [hcreated] at ha
      obtain ⟨hissued,hconsumed⟩ := h.used a ha
      obtain ⟨t,ht⟩ := mem_grantIds.mp hissued
      refine ⟨mem_grantIds.mpr ⟨t,List.mem_append_left _ ht⟩,fun ga hga => ?_⟩
      rw [setGrant_find?] at hga
      split_ifs at hga with haid
      · exact absurd (haid ▸ hissued) hnew
      · exact hconsumed ga hga
    once := hcreated ▸ h.once
    bound := by
      intro a ga hga
      have hold : .create a ga ∈ ops := by
        cases List.mem_append.mp hga with
        | inl hin => exact hin
        | inr hin => cases List.mem_singleton.mp hin
      obtain ⟨t,ht,hb⟩ := h.bound a ga hold
      exact ⟨t,List.mem_append_left _ ht,hb⟩ }

/-- A creation consumes a grant that no creation has used. -/
theorem granted_create {q : QueueId} {l : LeaseRecord} {id : GrantId} {g : GrantRecord}
    (hd : Delivered ops s) (h : Granted ops s) (hg : s.grants.find? id = some g)
    (hstatus : g.status = .unconsumed) (htemp : l.temporaryExpiry = g.temporaryExpiry)
    (hbound : withinBound l.temporaryExpiry l.expiry = true)
    (he : Edit s (setGrant (setLease (addQueue s q) q l) id { g with status := .consumed })
      [.create id s.queues.nextGeneration]) :
    Granted (ops++[.create id s.queues.nextGeneration])
      (setGrant (setLease (addQueue s q) q l) id { g with status := .consumed }) := by
  have hgrants : grantIds (ops++[.create id s.queues.nextGeneration]) = grantIds ops := by
    rw [grantIds,List.filterMap_append]
    exact List.append_nil _
  have hcreated : createdIds (ops++[.create id s.queues.nextGeneration]) = createdIds ops++[id] := by
    rw [createdIds,List.filterMap_append]
    rfl
  have hunused : id ∉ createdIds ops := by
    intro hid
    have hconsumed := (h.used id hid).2 g hg
    rw [hstatus] at hconsumed
    cases hconsumed
  have hfind := setGrant_find? (setLease (addQueue s q) q l) id { g with status := .consumed }
  have hknown := h.known id g hg
  exact {
    known := by
      intro a ga ha
      rw [hfind] at ha
      split_ifs at ha with haid
      · cases ha
        subst haid
        exact List.mem_append_left _ hknown
      · exact List.mem_append_left _ (h.known a ga ha)
    used := by
      intro a ha
      rw [hgrants]
      rw [hcreated] at ha
      cases List.mem_append.mp ha with
      | inl hin =>
          refine ⟨(h.used a hin).1,fun ga hga => ?_⟩
          rw [hfind] at hga
          split_ifs at hga
          · cases hga
            rfl
          · exact (h.used a hin).2 ga hga
      | inr hin =>
          obtain rfl := List.mem_singleton.mp hin
          refine ⟨mem_grantIds.mpr ⟨_,hknown⟩,fun ga hga => ?_⟩
          rw [hfind,if_pos rfl] at hga
          cases hga
          rfl
    once := by
      rw [hcreated]
      exact List.nodup_append.mpr ⟨h.once,List.nodup_singleton _,fun a ha b hb hab => by
        obtain rfl := List.mem_singleton.mp hb
        exact hunused (hab ▸ ha)⟩
    bound := by
      intro a ga hga
      cases List.mem_append.mp hga with
      | inl hin =>
          obtain ⟨t,ht,hb⟩ := h.bound a ga hin
          exact ⟨t,List.mem_append_left _ ht,forIncarnation_edit Bounded.update hb he⟩
      | inr hin =>
          cases List.mem_singleton.mp hin
          refine ⟨g.temporaryExpiry,List.mem_append_left _ hknown,?_⟩
          have hq : (setGrant (setLease (addQueue s q) q l) id { g with status := .consumed }
              ).queues.queues.find? q = some ⟨0,[],.new s.queues.nextGeneration⟩ := by
            change (addQueue s q).queues.queues.find? q = _
            rw [addQueue_find?,if_pos rfl]
          have hl : (setGrant (setLease (addQueue s q) q l) id { g with status := .consumed }
              ).leases.find? q = some l := by
            change (setLease (addQueue s q) q l).leases.find? q = _
            rw [setLease_find?,if_pos rfl]
          exact forIncarnation_of_find? (delivered_edit hd he) hq hl ⟨htemp,htemp ▸ hbound⟩ }

theorem granted_edit {op : List Effect} (hd : Delivered ops s) (h : Granted ops s)
    (hn : (grantIds (ops++op)).Nodup) (he : Edit s s' op) : Granted (ops++op) s' := by
  have hfor : ∀ g t, ForIncarnation g (Bounded t) s → ForIncarnation g (Bounded t) s' :=
    fun g t hb => forIncarnation_edit Bounded.update hb he
  cases he with
  | grant id g hnew hroom hstatus => exact granted_grant h hn
  | create q l id g hg hstatus hl hq hroom hcached htemp hbound =>
      exact granted_create hd h hg hstatus htemp hbound
        (.create q l id g hg hstatus hl hq hroom hcached htemp hbound)
  | lease => exact granted_keep h ⟨rfl,rfl⟩ (fun _ _ hg => hg) hfor
  | remove => exact granted_keep h ⟨rfl,rfl⟩ (fun _ _ hg => hg) hfor
  | append => exact granted_keep h ⟨rfl,rfl⟩ (fun _ _ hg => hg) hfor
  | pop => exact granted_keep h ⟨rfl,rfl⟩ (fun _ _ hg => hg) hfor
  | wake => exact granted_keep h ⟨rfl,rfl⟩ (fun _ _ hg => hg) hfor

theorem granted_path {now : ℕ} {op : List Effect} (hd : Delivered ops s) (h : Granted ops s)
    (hn : (grantIds (ops++op)).Nodup) (hp : Path now s s' op) : Granted (ops++op) s' := by
  induction hp with
  | refl => simpa using h
  | cleanup _ ih => exact granted_cleanup (ih hn) now
  | edit hpath he ih =>
      rw [← List.append_assoc] at hn ⊢
      have hn' : (grantIds (ops++_)).Nodup := hn.sublist ((List.sublist_append_left _ _).filterMap _)
      exact granted_edit (delivered_path hd hpath) (ih hn') hn he

theorem run_granted {P : Suite} {s₀ : Store} (h₀ : Accounted s₀) (hd : Delivered [] s₀)
    (hg : Granted [] s₀) {log : List Entry} (hr : Run P s₀ log s)
    (hn : (grantIds (history P log)).Nodup) : Granted (history P log) s := by
  induction hr with
  | start => exact hg
  | step h hs ih =>
      rw [history,List.flatMap_append,List.flatMap_singleton] at hn ⊢
      have hn' := hn.sublist ((List.sublist_append_left _ _).filterMap grantedBy)
      exact granted_path (run_delivered h₀ hd h) (ih hn') hn (step_path (run_steps h₀ h).1 hs)

end Grants

/-! ## Epochs -/

/-- The lease of incarnation `g` is at epoch `n`. -/
def EpochIn (s : Store) (g n : ℕ) : Prop :=
  ∃ q queue l, s.queues.queues.find? q = some queue ∧ queue.classes.generation = g ∧
    s.leases.find? q = some l ∧ l.epoch = n

/-- The queue and the epoch that the tag or the handle of a request stands for. -/
def authenticated : Event → Option (QueueId × ℕ)
  | .issueDynamicGrant wire _ => some (blockAt 32 wire 2,wordAt 8 wire 34)
  | .renew wire => some (blockAt 32 wire 2,wordAt 8 wire 34)
  | .rotate wire => some (blockAt 32 wire 2,wordAt 8 wire 34)
  | .revoke wire => some (blockAt 32 wire 2,wordAt 8 wire 34)
  | .subscribe cell => some (blockAt 32 cell.payload 2,wordAt 8 cell.payload 34)
  | .subscribeGc2 cell => some (blockAt 32 cell.payload 1,
      wordAt 8 (cell.payload.take (cell.payload.length-Gc2.tagLen)) 33)
  | .push p => some (p.parts.queueId,p.parts.epoch)
  | .pushGc2 p => some (p.push.queueId,p.push.epoch)
  | .peekGc2 handle => some (handle.subscription.queueId,handle.subscription.epoch)
  | .acknowledgeGc2 handle _ => some (handle.subscription.queueId,handle.subscription.epoch)
  | _ => none

/-- The entry accepts a request of epoch `n` in incarnation `g`. -/
structure AcceptedIn (entry : Entry) (g n : ℕ) : Prop where
  accepted : ∃ v, entry.result = .ok v
  request : ∃ q queue, authenticated entry.event = some (q,n) ∧
    (entry.before.cleanupExpired entry.now).queues.queues.find? q = some queue ∧
    queue.classes.generation = g

/-- The entry rotates the lease of incarnation `g` to epoch `e`. -/
structure RotatesTo (entry : Entry) (g e : ℕ) : Prop where
  rotation : ∃ wire v queue, entry.event = .rotate wire ∧ entry.result = .ok (.view v) ∧
    v.epoch = e ∧
    (entry.before.cleanupExpired entry.now).queues.queues.find? (blockAt 32 wire 2) = some queue ∧
    queue.classes.generation = g

section Epochs
variable {P : Suite} {s s' : Store} {now : ℕ} {event : Event} {r : Except Fault Reply}

theorem EpochIn.forIncarnation {ops : List Effect} {g n : ℕ} (hd : Delivered ops s)
    (h : EpochIn s g n) : ForIncarnation g (fun l => n ≤ l.epoch) s := by
  obtain ⟨q,queue,l,hq,rfl,hl,rfl⟩ := h
  exact forIncarnation_of_find? hd hq hl le_rfl

/-- Epochs never fall within an incarnation. -/
theorem epoch_path {g n : ℕ} {op : List Effect} (h : ForIncarnation g (fun l => n ≤ l.epoch) s)
    (hp : Path now s s' op) : ForIncarnation g (fun l => n ≤ l.epoch) s' := by
  refine forIncarnation_path ?_ ?_ h hp
  · intro l hl
    rw [purge_epoch]
    exact hl
  · intro l l' hu hl
    cases hu.epoch with
    | inl hsame => exact hsame.1 ▸ hl
    | inr hlt => exact hl.trans hlt.le

theorem deposited_epoch {c : Store} {e : Envelope} {outcome : PushOutcome}
    (h : Deposited c e outcome s') : ∃ l, c.leases.find? e.queueId = some l ∧ l.epoch = e.epoch := by
  cases h with
  | duplicate l hl he hr => exact ⟨l,hl,he⟩
  | cover l l' hl he hr n hrec hitem => exact ⟨l,hl,he⟩
  | enqueued l l' queue queue' item hl he hr n hrec hq hitem happ htotal hcells hbytes =>
      exact ⟨l,hl,he⟩

/-- An accepted request carries the current epoch of its lease. -/
theorem accepted_epoch {v : Reply} {q : QueueId} {n : ℕ} (h : exec P now event s = (.ok v,s'))
    (ha : authenticated event = some (q,n)) :
    ∃ l, (s.cleanupExpired now).leases.find? q = some l ∧ l.epoch = n := by
  cases event with
  | issueDynamicGrant wire draw =>
      obtain ⟨v,hv,rfl⟩ := reply_ok h
      cases ha
      simp only [issueDynamicGrant,cleanup_bind,bind_ok] at hv
      obtain ⟨request,s₁,hcharge,_⟩ := hv
      obtain ⟨l,_,hl,_,he,_⟩ := chargeAuthority_ok (cleanup_tidy s now) hcharge
      exact ⟨l,hl,he⟩
  | renew wire =>
      obtain ⟨v,hv,rfl⟩ := reply_ok h
      cases ha
      obtain ⟨l,_,hl,he,_⟩ := renew_ok hv
      exact ⟨l,hl,he⟩
  | rotate wire =>
      obtain ⟨v,hv,rfl⟩ := reply_ok h
      cases ha
      obtain ⟨l,_,_,hl,he,_⟩ := rotate_ok hv
      exact ⟨l,hl,he⟩
  | revoke wire =>
      obtain ⟨v,hv,rfl⟩ := reply_ok h
      cases ha
      obtain ⟨l,hl,he,_⟩ := revoke_ok hv
      exact ⟨l,hl,he⟩
  | subscribe cell =>
      obtain ⟨v,hv,rfl⟩ := reply_ok h
      cases ha
      obtain ⟨l,_,hl,he,_⟩ := authenticateSub_ok hv
      exact ⟨l,hl,he⟩
  | subscribeGc2 cell =>
      obtain ⟨v,hv,rfl⟩ := reply_ok h
      cases ha
      obtain ⟨l,_,_,hl,he,_⟩ := authenticateSubGc2_ok hv
      exact ⟨l,hl,he⟩
  | push p =>
      obtain ⟨v,hv,rfl⟩ := reply_ok h
      cases ha
      exact deposited_epoch (authenticatePush_ok hv).2
  | pushGc2 p =>
      obtain ⟨v,hv,rfl⟩ := reply_ok h
      cases ha
      exact deposited_epoch (authenticatePushGc2_ok hv).2
  | peekGc2 handle =>
      obtain ⟨v,hv,rfl⟩ := reply_ok h
      cases ha
      obtain ⟨rfl,l,_,hl,he,_⟩ := peekGc2_ok hv
      exact ⟨l,hl,he⟩
  | acknowledgeGc2 handle nonce =>
      obtain ⟨v,hv,rfl⟩ := reply_ok h
      cases ha
      obtain ⟨_,l,_,hl,he,_⟩ := acknowledgeGc2_ok hv
      exact ⟨l,hl,he⟩
  | _ => cases ha

/-- A rotation moves the epoch up by one. -/
theorem rotation_step {g e : ℕ} (hs : Step P now event s r s')
    (h : RotatesTo ⟨now,event,s,r,s'⟩ g e) :
    ∃ n, EpochIn (s.cleanupExpired now) g n ∧ e = n+1 ∧ EpochIn s' g e := by
  obtain ⟨wire,v,queue,hev,hres,rfl,hq,rfl⟩ := h.rotation
  have hrun := hs.run
  change event = _ at hev
  change r = _ at hres
  change (s.cleanupExpired now).queues.queues.find? (blockAt 32 wire 2) = some queue at hq
  rw [hev,hres] at hrun
  obtain ⟨v',hv,hr⟩ := reply_ok hrun
  cases hr
  obtain ⟨l,l',queue₁,hl,_,hnext,_,hq₁,rfl,rfl⟩ := rotate_ok hv
  cases hq.symm.trans hq₁
  refine ⟨l.epoch,⟨_,queue,l,hq,rfl,hl,rfl⟩,hnext,blockAt 32 wire 2,
    { queue with classes := queue.classes.wakeAll },l',?_,rfl,?_,rfl⟩
  · rw [setQueue_find?,if_pos rfl]
  · change (setLease _ _ _).leases.find? _ = _
    rw [setLease_find?,if_pos rfl]

section Runs
variable {s₀ : Store} (h₀ : Accounted s₀) (hd : Delivered [] s₀) {log : List Entry}
include h₀ hd

theorem run_epochs (hr : Run P s₀ log s) :
    log.Pairwise (fun a b => ∀ g n m, EpochIn a.after g n → EpochIn b.after g m → n ≤ m) := by
  have hsince : ∀ {log s}, Run P s₀ log s → ∀ a ∈ log, ∀ g n, EpochIn a.after g n →
      ForIncarnation g (fun l => n ≤ l.epoch) s := by
    intro log s hr
    refine Run.since (Q := fun a t => ∀ g n, EpochIn a.after g n →
      ForIncarnation g (fun l => n ≤ l.epoch) t) ?_ ?_ hr
    · intro log s now event r s' h hs g n he
      exact he.forIncarnation (delivered_path (run_delivered h₀ hd h) (step_path (run_steps h₀ h).1 hs))
    · intro log s now event r s' h hs a _ ha g n he
      exact epoch_path (ha g n he) (step_path (run_steps h₀ h).1 hs)
  refine Run.pairs ?_ hr
  intro log s now event r s' h hs a ha g n m hn hm
  have hafter := epoch_path (hsince h a ha g n hn) (step_path (run_steps h₀ h).1 hs)
  obtain ⟨q,queue,l,hq,hg,hl,rfl⟩ := hm
  exact hafter.2 q queue l hq hg hl

theorem run_outdated (hr : Run P s₀ log s) :
    log.Pairwise (fun a b => ∀ g e n, RotatesTo a g e → AcceptedIn b g n → e ≤ n) := by
  have hsince : ∀ {log s}, Run P s₀ log s → ∀ a ∈ log, ∀ g e, RotatesTo a g e →
      ForIncarnation g (fun l => e ≤ l.epoch) s := by
    intro log s hr
    refine Run.since (Q := fun a t => ∀ g e, RotatesTo a g e →
      ForIncarnation g (fun l => e ≤ l.epoch) t) ?_ ?_ hr
    · intro log s now event r s' h hs g e he
      obtain ⟨_,_,_,hafter⟩ := rotation_step hs he
      exact hafter.forIncarnation
        (delivered_path (run_delivered h₀ hd h) (step_path (run_steps h₀ h).1 hs))
    · intro log s now event r s' h hs a _ ha g e he
      exact epoch_path (ha g e he) (step_path (run_steps h₀ h).1 hs)
  refine Run.pairs ?_ hr
  intro log s now event r s' h hs a ha g e n hrot hacc
  obtain ⟨v,hv⟩ := hacc.accepted
  obtain ⟨q,queue,hauth,hq,hg⟩ := hacc.request
  change r = _ at hv
  have hrun := hs.run
  rw [hv] at hrun
  obtain ⟨l,hl,rfl⟩ := accepted_epoch hrun hauth
  exact (epoch_path (hsince h a ha g e hrot) (.cleanup .refl)).2 q queue l hq hg hl

end Runs

end Epochs

/-! ## Subscription handles -/

/-- The handle names the current incarnation and epoch of its queue. -/
def HandleFits (handle : AuthenticatedSubscription) (c : Store) : Prop :=
  ∃ l queue, c.leases.find? handle.subscription.queueId = some l ∧
    l.epoch = handle.subscription.epoch ∧
    c.queues.queues.find? handle.subscription.queueId = some queue ∧
    queue.classes.generation = handle.generation

/-- The event peeks or acknowledges through the handle. -/
def Uses (event : Event) (handle : AuthenticatedSubscription) : Prop :=
  event = .peekGc2 handle ∨ ∃ nonce, event = .acknowledgeGc2 handle nonce

section Handles
variable {P : Suite} {s s' : Store} {now : ℕ} {event : Event}

theorem subGc2_queueId {cell : NaturalCell} {cap service : Block 32} {now : ℕ}
    {v : Gc2.Subscription} (h : Gc2.Subscription.decode P cell cap service now = .ok v) :
    v.queueId = blockAt 32 cell.payload 1 := by
  simp only [Gc2.Subscription.decode,Fallible.sequence_eq_ok,Fallible.done_eq_ok,
    Fallible.require_eq_ok] at h
  obtain ⟨bytes,hb,_,hlen,_,_,_,_,rfl⟩ := h
  have hbytes := body_ok (authenticate_ok hb)
  change blockAt 32 bytes 1 = _
  have hk : 33 ≤ cell.payload.length-Gc2.tagLen := by
    have hlen' := congrArg List.length hbytes
    rw [hlen,List.length_take] at hlen'
    simp only [Gc2.subFixed] at hlen'
    omega
  have hslice : slice bytes 1 (1+32) = slice cell.payload 1 (1+32) := by
    rw [hbytes,slice,slice,List.drop_take,List.take_take]
    congr 1
    omega
  rw [blockAt,blockAt,hslice]

/-- A handle is issued for the incarnation and the epoch of its time. -/
theorem issued_fits {handle : AuthenticatedSubscription}
    (h : exec P now event s = (.ok (.handle handle),s')) :
    HandleFits handle (s.cleanupExpired now) := by
  cases event with
  | subscribeGc2 cell =>
      obtain ⟨v,hv,hr⟩ := reply_ok h
      cases hr
      simp only [authenticateSubGc2,cleanup_bind,demand_bind_ok,read_bind,leaseOf_bind_ok,
        attempt_bind_ok,putLease_bind,queueOf_bind_ok,pure_ok,id] at hv
      obtain ⟨_,l,hl,sub,hsub,_,hb,_,_,l',_,queue,hq,rfl,_⟩ := hv
      have hid := subGc2_queueId hsub
      refine ⟨l,queue,?_,(requireBinding_ok hb).2,?_,rfl⟩
      · change (s.cleanupExpired now).leases.find? sub.queueId = some l
        rw [hid]
        exact hl
      · change (s.cleanupExpired now).queues.queues.find? sub.queueId = some queue
        rw [hid]
        exact hq
  | _ =>
      obtain ⟨v,_,hr⟩ := reply_ok h
      cases hr

theorem used_fits {handle : AuthenticatedSubscription} {v : Reply} (hu : Uses event handle)
    (h : exec P now event s = (.ok v,s')) : HandleFits handle (s.cleanupExpired now) := by
  cases hu with
  | inl hpeek =>
      subst hpeek
      obtain ⟨v,hv,_⟩ := reply_ok h
      obtain ⟨rfl,l,queue,hl,he,hq,hg⟩ := peekGc2_ok hv
      exact ⟨l,queue,hl,he,hq,hg⟩
  | inr hack =>
      obtain ⟨nonce,rfl⟩ := hack
      obtain ⟨v,hv,_⟩ := reply_ok h
      obtain ⟨_,l,queue,hl,he,hq,hg⟩ := acknowledgeGc2_ok hv
      exact ⟨l,queue,hl,he,hq,hg⟩

end Handles

/-! ## Creations -/

/-- A creation leaves every lease and every queue that is there. -/
theorem create_step {P : Suite} {s s' : Store} {now : ℕ} {wire : Bytes} {r : Except Fault Reply}
    (h : exec P now (.createLease wire) s = (r,s')) {q : QueueId} {l : LeaseRecord}
    (hl : (s.cleanupExpired now).leases.find? q = some l) :
    s'.leases.find? q = some l ∧
      s'.queues.queues.find? q = (s.cleanupExpired now).queues.queues.find? q := by
  cases r with
  | error e =>
      have hs' := createLease_aborts (A := fun _ t => t = s.cleanupExpired now) (fun _ => rfl) e s'
        (reply_error h)
      subst hs'
      exact ⟨hl,rfl⟩
  | ok v =>
      obtain ⟨v,hv,_⟩ := reply_ok h
      cases createLease_ok hv with
      | inl hs =>
          obtain ⟨rfl,_⟩ := hs
          exact ⟨hl,rfl⟩
      | inr hn =>
          obtain ⟨g,_,_,hnone,_,_,_,rfl⟩ := createNew_ok hn
          have hne : q ≠ (LeaseCreate.decodeBody wire).queueId := by
            rintro rfl
            rw [hl] at hnone
            cases hnone
          constructor
          · change (setLease _ _ _).leases.find? q = some l
            rw [setLease_find?,if_neg hne]
            exact hl
          · change (addQueue _ _).queues.queues.find? q = _
            rw [addQueue_find?,if_neg hne]

/-- What the run says about authority, over all clock readings. -/
structure Settled (P : Suite) (log : List Entry) (s : Store) : Prop where
  created_once : (createdIds (history P log)).Nodup
  replayed_create : ∀ entry ∈ log, ∀ wire, entry.event = .createLease wire → ∀ q l,
    (entry.before.cleanupExpired entry.now).leases.find? q = some l →
    entry.after.leases.find? q = some l ∧ entry.after.queues.queues.find? q =
      (entry.before.cleanupExpired entry.now).queues.queues.find? q
  epochs : log.Pairwise (fun a b => ∀ g n m, EpochIn a.after g n → EpochIn b.after g m → n ≤ m)
  rotations : ∀ entry ∈ log, ∀ g e, RotatesTo entry g e →
    ∃ n, EpochIn (entry.before.cleanupExpired entry.now) g n ∧ e = n+1 ∧ EpochIn entry.after g e
  outdated : log.Pairwise (fun a b => ∀ g e n, RotatesTo a g e → AcceptedIn b g n → e ≤ n)
  issued : ∀ entry ∈ log, ∀ handle, entry.result = .ok (.handle handle) →
    HandleFits handle (entry.before.cleanupExpired entry.now)
  used : ∀ entry ∈ log, ∀ handle v, Uses entry.event handle → entry.result = .ok v →
    HandleFits handle (entry.before.cleanupExpired entry.now)
  deadline : ∀ id D g, .grant id (some D) ∈ history P log → .create id g ∈ history P log →
    ForIncarnation g (fun l => l.temporaryExpiry = some D ∧ l.expiry ≤ D) s
  no_grants : ∀ id D g, .grant id (some D) ∈ history P log → .create id g ∈ history P log →
    ∀ now wire draw queue v s',
      (s.cleanupExpired now).queues.queues.find? (blockAt 32 wire 2) = some queue →
      queue.classes.generation = g → exec P now (.issueDynamicGrant wire draw) s ≠ (.ok v,s')

section Runs
variable {P : Suite} {s : Store}

theorem granted_deadline {log : List Entry} (hg : Granted (history P log) s)
    (hn : (grantIds (history P log)).Nodup) {id : GrantId} {D g : ℕ}
    (hgrant : .grant id (some D) ∈ history P log) (hcreate : .create id g ∈ history P log) :
    ForIncarnation g (Bounded (some D)) s := by
  obtain ⟨t,ht,hb⟩ := hg.bound id g hcreate
  cases deadline_unique hn hgrant ht
  exact hb

/-- In every run in which no grant id is drawn twice, lost authority does not return. -/
theorem authority_never_returns {service key : Block 32} {config : StoreConfig} {s₀ : Store}
    (h₀ : Store.new service key config = .ok s₀) {log : List Entry} (hr : Run P s₀ log s)
    (hids : (grantIds (history P log)).Nodup) : Settled P log s := by
  have hacc := new_accounted h₀
  have hd := delivered_new h₀
  have hg := run_granted hacc hd (granted_new h₀) hr hids
  exact {
    created_once := hg.once
    replayed_create := by
      refine Run.since (Q := fun entry _ => ∀ wire, entry.event = .createLease wire → ∀ q l,
        (entry.before.cleanupExpired entry.now).leases.find? q = some l →
        entry.after.leases.find? q = some l ∧ entry.after.queues.queues.find? q =
          (entry.before.cleanupExpired entry.now).queues.queues.find? q)
        ?_ (fun _ _ _ _ _ _ _ _ _ _ h => h) hr
      intro log s now event r s' _ hs wire hev q l hl
      change event = _ at hev
      subst hev
      exact create_step hs.run hl
    epochs := run_epochs hacc hd hr
    rotations := by
      refine Run.since (Q := fun entry _ => ∀ g e, RotatesTo entry g e →
        ∃ n, EpochIn (entry.before.cleanupExpired entry.now) g n ∧ e = n+1 ∧
          EpochIn entry.after g e) ?_ (fun _ _ _ _ _ _ _ _ _ _ h => h) hr
      intro log s now event r s' _ hs g e he
      exact rotation_step hs he
    outdated := run_outdated hacc hd hr
    issued := by
      refine Run.since (Q := fun entry _ => ∀ handle, entry.result = .ok (.handle handle) →
        HandleFits handle (entry.before.cleanupExpired entry.now))
        ?_ (fun _ _ _ _ _ _ _ _ _ _ h => h) hr
      intro log s now event r s' _ hs handle hres
      change r = _ at hres
      exact issued_fits (hres ▸ hs.run)
    used := by
      refine Run.since (Q := fun entry _ => ∀ handle v, Uses entry.event handle →
        entry.result = .ok v → HandleFits handle (entry.before.cleanupExpired entry.now))
        ?_ (fun _ _ _ _ _ _ _ _ _ _ h => h) hr
      intro log s now event r s' _ hs handle v hu hres
      change r = _ at hres
      exact used_fits hu (hres ▸ hs.run)
    deadline := by
      intro id D g hgrant hcreate
      refine (granted_deadline hg hids hgrant hcreate).mono (fun l hl => ⟨hl.1,?_⟩)
      simpa [withinBound] using hl.2
    no_grants := by
      intro id D g hgrant hcreate now wire draw queue v s' hq hgen hrun
      have hb : ForIncarnation g (Bounded (some D)) (s.cleanupExpired now) :=
        forIncarnation_cleanup (fun _ => Bounded.purge _) (granted_deadline hg hids hgrant hcreate)
      obtain ⟨_,hv,_⟩ := reply_ok hrun
      simp only [issueDynamicGrant,cleanup_bind,bind_ok] at hv
      obtain ⟨request,s₁,hcharge,_⟩ := hv
      obtain ⟨l,_,hl,hnone,_⟩ := chargeAuthority_ok (cleanup_tidy s now) hcharge
      have hbound := (hb.2 _ queue l hq hgen hl).1
      rw [hnone] at hbound
      cases hbound }

end Runs

/-! The sample relay with a temporary grant, a lease created from it twice and a deposit. -/

def sampleTemporary : List (ℕ × Event) :=
  [(990,.issueTemporaryGrant sampleRequest 1500 sampleDraw),
    (990,.createLease (sampleCreate.encode openSuite (wordBlock 32 1))),
    (995,.createLease (sampleCreate.encode openSuite (wordBlock 32 1))),
    (1000,.pushGc2 samplePush)]

set_option maxRecDepth 20000 in
theorem authority_never_returns_sample :
    Effect.grant (wordBlock 16 4) (some 1500) ∈
        history openSuite (perform openSuite sampleStart sampleTemporary).1 ∧
      createdIds (history openSuite (perform openSuite sampleStart sampleTemporary).1) =
        [wordBlock 16 4] ∧
      Settled openSuite (perform openSuite sampleStart sampleTemporary).1
        (perform openSuite sampleStart sampleTemporary).2 :=
  ⟨by decide +kernel,by decide +kernel,@authority_never_returns openSuite _ (wordBlock 32 1)
    (wordBlock 32 2) sampleConfig sampleStart rfl _
    (perform_run sampleTemporary .start (by decide +kernel)) (by decide +kernel)⟩

end Gcoms.LeaseAuthority
