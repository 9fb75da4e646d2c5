import Gcoms.LeaseRefusal

/-!
# Delivery by the relay queues

An incarnation of a queue is known by its generation, and each has three lanes.
The lane operations of a run are read off its log. For a live incarnation, what
was appended to a lane is what was popped followed by what the lane holds; when
the incarnation ends, what was popped stays an initial segment of what was
appended. A fresh deposit leaves a replay record, which stays in the lease until
it expires or the epoch moves on, so its nonce is not fresh again before.
-/
namespace Gcoms.LeaseDelivery
open ByteCodec SortedMaps Primitives Commands RelayCells RelayCodec LeaseCodec LeaseStore LeaseSteps
  LeaseEdits LeaseEvents LeaseAccounting LeaseRefusal

/-! ## Lane operations -/

def appendedBy (g : ℕ) (x : Lane) : Effect → Option Item
  | .append g' x' item => if g' = g ∧ x' = x then some item else none
  | _ => none

def poppedBy (g : ℕ) (x : Lane) : Effect → Option Item
  | .pop g' x' item => if g' = g ∧ x' = x then some item else none
  | _ => none

/-- What the operations append to one lane of one incarnation. -/
def appended (g : ℕ) (x : Lane) (ops : List Effect) : List Item := ops.filterMap (appendedBy g x)

/-- What the operations pop from one lane of one incarnation. -/
def popped (g : ℕ) (x : Lane) (ops : List Effect) : List Item := ops.filterMap (poppedBy g x)

def entryEffects (P : Suite) (entry : Entry) : List Effect :=
  match entry.result with
  | .ok v => effectsOf P (entry.before.cleanupExpired entry.now) entry.event v
  | .error _ => []

def history (P : Suite) (log : List Entry) : List Effect := log.flatMap (entryEffects P)

theorem appended_append (g : ℕ) (x : Lane) (ops ops' : List Effect) :
    appended g x (ops++ops') = appended g x ops++appended g x ops' :=
  List.filterMap_append ..

theorem popped_append (g : ℕ) (x : Lane) (ops ops' : List Effect) :
    popped g x (ops++ops') = popped g x ops++popped g x ops' :=
  List.filterMap_append ..

/-! ## First in, first out -/

structure Delivered (ops : List Effect) (s : Store) : Prop where
  born : ∀ q queue, s.queues.queues.find? q = some queue →
    queue.classes.generation < s.queues.nextGeneration
  distinct : ∀ q q' queue queue', s.queues.queues.find? q = some queue →
    s.queues.queues.find? q' = some queue' →
    queue.classes.generation = queue'.classes.generation → q = q'
  unborn : ∀ g x, s.queues.nextGeneration ≤ g → appended g x ops = [] ∧ popped g x ops = []
  live : ∀ q queue, s.queues.queues.find? q = some queue → ∀ x,
    appended queue.classes.generation x ops =
      popped queue.classes.generation x ops++lane queue x
  settled : ∀ g x, popped g x ops <+: appended g x ops

theorem delivered_new {service key : Block 32} {config : StoreConfig} {s : Store}
    (h : Store.new service key config = .ok s) : Delivered [] s := by
  unfold Store.new at h
  split_ifs at h
  split at h
  · cases h
  · cases h
    exact {
      born := fun q queue hq => by cases hq
      distinct := fun q q' queue queue' hq => by cases hq
      unborn := fun g x _ => ⟨rfl,rfl⟩
      live := fun q queue hq => by cases hq
      settled := fun g x => List.prefix_refl _ }

section Edits
variable {s s' : Store} {ops : List Effect}

/-- Dropping queues ends their incarnations. -/
theorem delivered_sub (h : Delivered ops s)
    (hsub : ∀ q queue, s'.queues.queues.find? q = some queue → s.queues.queues.find? q = some queue)
    (hnext : s'.queues.nextGeneration = s.queues.nextGeneration) : Delivered ops s' where
  born q queue hq := hnext ▸ h.born q queue (hsub q queue hq)
  distinct q q' queue queue' hq hq' := h.distinct q q' queue queue' (hsub _ _ hq) (hsub _ _ hq')
  unborn g x hg := h.unborn g x (hnext ▸ hg)
  live q queue hq := h.live q queue (hsub q queue hq)
  settled := h.settled

theorem delivered_silent {op : List Effect} (h : Delivered ops s)
    (hop : ∀ g x, appended g x op = [] ∧ popped g x op = []) : Delivered (ops++op) s := by
  have happ : ∀ g x, appended g x (ops++op) = appended g x ops := by
    intro g x
    rw [appended_append,(hop g x).1,List.append_nil]
  have hpop : ∀ g x, popped g x (ops++op) = popped g x ops := by
    intro g x
    rw [popped_append,(hop g x).2,List.append_nil]
  exact { h with
    unborn := fun g x hg => by rw [happ,hpop]; exact h.unborn g x hg
    live := fun q queue hq x => by rw [happ,hpop]; exact h.live q queue hq x
    settled := fun g x => by rw [happ,hpop]; exact h.settled g x }

theorem cleanup_sub (s : Store) (now : ℕ) (q : QueueId) (queue : Queue)
    (hq : (s.cleanupExpired now).queues.queues.find? q = some queue) :
    s.queues.queues.find? q = some queue := by
  rw [cleanup_queues] at hq
  split_ifs at hq
  exact hq

theorem delivered_cleanup (h : Delivered ops s) (now : ℕ) : Delivered ops (s.cleanupExpired now) :=
  delivered_sub h (cleanup_sub s now) (cleanup_frame s now).2.2.2.2.2

/-- A change of one queue within its incarnation. -/
theorem delivered_setQueue (h : Delivered ops s) {q : QueueId} {queue queue' : Queue} {total : ℕ}
    {op : List Effect} (hq : s.queues.queues.find? q = some queue)
    (hgen : queue'.classes.generation = queue.classes.generation)
    (hother : ∀ g x, g ≠ queue.classes.generation → appended g x op = [] ∧ popped g x op = [])
    (hsame : ∀ x, lane queue x++appended queue.classes.generation x op =
      popped queue.classes.generation x op++lane queue' x) :
    Delivered (ops++op) (setQueue s q queue' total) := by
  have hfind := setQueue_find? s q queue' total
  have hlive : ∀ x, appended queue.classes.generation x (ops++op) =
      popped queue.classes.generation x (ops++op)++lane queue' x := by
    intro x
    rw [appended_append,popped_append,h.live q queue hq x,List.append_assoc,hsame,List.append_assoc]
  exact {
    born := by
      intro a queue₁ ha
      rw [hfind] at ha
      split_ifs at ha
      · cases ha
        exact hgen ▸ h.born q queue hq
      · exact h.born a queue₁ ha
    distinct := by
      intro a b queue₁ queue₂ ha hb he
      rw [hfind] at ha hb
      split_ifs at ha hb with haq hbq hbq
      · exact haq.trans hbq.symm
      · cases ha
        exact haq.trans (h.distinct q b queue queue₂ hq hb (hgen.symm.trans he))
      · cases hb
        exact (h.distinct a q queue₁ queue ha hq (he.trans hgen)).trans hbq.symm
      · exact h.distinct a b queue₁ queue₂ ha hb he
    unborn := by
      intro g x hg
      have hold := h.unborn g x hg
      have hne : g ≠ queue.classes.generation := by
        have hborn := h.born q queue hq
        intro heq
        change s.queues.nextGeneration ≤ g at hg
        omega
      rw [appended_append,popped_append,hold.1,hold.2,(hother g x hne).1,(hother g x hne).2]
      exact ⟨rfl,rfl⟩
    live := by
      intro a queue₁ ha x
      rw [hfind] at ha
      split_ifs at ha with haq
      · cases ha
        rw [hgen]
        exact hlive x
      · have hne : queue₁.classes.generation ≠ queue.classes.generation :=
          fun he => haq (h.distinct a q queue₁ queue ha hq he)
        rw [appended_append,popped_append,(hother _ x hne).1,(hother _ x hne).2,List.append_nil,
          List.append_nil]
        exact h.live a queue₁ ha x
    settled := by
      intro g x
      by_cases hg : g = queue.classes.generation
      · rw [hg,hlive]
        exact List.prefix_append _ _
      · rw [appended_append,popped_append,(hother g x hg).1,(hother g x hg).2,List.append_nil,
          List.append_nil]
        exact h.settled g x }

/-- A new queue starts a new incarnation. -/
theorem delivered_addQueue (h : Delivered ops s) (q : QueueId) : Delivered ops (addQueue s q) := by
  have hfind := addQueue_find? s q
  exact {
    born := by
      intro a queue ha
      rw [hfind] at ha
      split_ifs at ha
      · cases ha
        exact Nat.lt_succ_self _
      · exact Nat.lt_succ_of_lt (h.born a queue ha)
    distinct := by
      intro a b queue queue' ha hb he
      rw [hfind] at ha hb
      split_ifs at ha hb with haq hbq hbq
      · exact haq.trans hbq.symm
      · cases ha
        exact absurd he.symm (h.born b queue' hb).ne
      · cases hb
        exact absurd he (h.born a queue ha).ne
      · exact h.distinct a b queue queue' ha hb he
    unborn := fun g x hg => h.unborn g x ((Nat.le_succ _).trans hg)
    live := by
      intro a queue ha x
      rw [hfind] at ha
      split_ifs at ha
      · cases ha
        have hnone := h.unborn s.queues.nextGeneration x le_rfl
        change appended s.queues.nextGeneration x ops = popped s.queues.nextGeneration x ops++_
        rw [hnone.1,hnone.2]
        cases x with
        | gc1 => rfl
        | gc2 traffic => cases traffic <;> rfl
      · exact h.live a queue ha x
    settled := h.settled }

theorem delivered_edit {op : List Effect} (h : Delivered ops s) (he : Edit s s' op) :
    Delivered (ops++op) s' := by
  cases he with
  | grant id g hnew hroom hstatus =>
      exact delivered_silent (delivered_sub h (fun _ _ hq => hq) rfl) (fun _ _ => ⟨rfl,rfl⟩)
  | lease q l l' hl hu =>
      rw [List.append_nil]
      exact delivered_sub h (fun _ _ hq => hq) rfl
  | create q l id g hg hstatus hl hq hroom hcached htemp hbound =>
      exact delivered_silent (delivered_sub (delivered_addQueue h q) (fun _ _ hq => hq) rfl)
        (fun _ _ => ⟨rfl,rfl⟩)
  | remove q =>
      have hsub : ∀ a queue, (s.removeLease q).queues.queues.find? a = some queue →
          s.queues.queues.find? a = some queue := by
        intro a queue ha
        rw [Store.removeLease,remove_find?] at ha
        split_ifs at ha
        exact ha
      exact delivered_silent (delivered_sub h hsub (remove_frame s.queues q).2)
        (fun _ _ => ⟨rfl,rfl⟩)
  | append q l queue queue' x item hl hq happ htotal hcells hbytes =>
      refine delivered_setQueue h hq happ.generation ?_ ?_
      · intro g y hg
        simp [appended,popped,appendedBy,poppedBy,Ne.symm hg]
      · intro y
        by_cases hy : y = x
        · subst hy
          simp [appended,popped,appendedBy,poppedBy,happ.same]
        · simp [appended,popped,appendedBy,poppedBy,Ne.symm hy,happ.other y hy]
  | pop q queue queue' x item hq hpop =>
      refine delivered_setQueue h hq hpop.generation ?_ ?_
      · intro g y hg
        simp [appended,popped,appendedBy,poppedBy,Ne.symm hg]
      · intro y
        by_cases hy : y = x
        · subst hy
          simp [appended,popped,appendedBy,poppedBy,hpop.same]
        · simp [appended,popped,appendedBy,poppedBy,Ne.symm hy,hpop.other y hy]
  | wake q queue hq =>
      refine delivered_setQueue h hq rfl (fun _ _ _ => ⟨rfl,rfl⟩) (fun x => ?_)
      rw [lane_wakeAll]
      exact List.append_nil _

theorem delivered_path {now : ℕ} {op : List Effect} (h : Delivered ops s)
    (hp : Path now s s' op) : Delivered (ops++op) s' := by
  induction hp with
  | refl => simpa using h
  | cleanup _ ih => exact delivered_cleanup ih now
  | edit _ he ih =>
      rw [← List.append_assoc]
      exact delivered_edit ih he

end Edits

/-! ## Steps -/

section Steps
variable {P : Suite} {s s' : Store} {now : ℕ} {event : Event} {r : Except Fault Reply}

/-- Every event, refused or not, is a sequence of cleanups and edits. -/
theorem step_path (h : Accounted s) (hs : Step P now event s r s') :
    Path now s s' (entryEffects P ⟨now,event,s,r,s'⟩) := by
  have hc : Path now s (s.cleanupExpired now) [] := .cleanup .refl
  cases r with
  | ok v => exact exec_path (hs.drawn v rfl) hs.run
  | error e =>
      refine exec_aborts (A := fun _ t => Path now s t []) event
        ((accounted_cleanup h now).tolerates (fun _ => hc)) (fun _ => .refl) ?_ ?_ e s' hs.run
      · intro wire draw l e _ hl
        exact hc.edit (.lease _ l _ hl (slots_update l _))
      · intro wire draw request s₁ _ hcharge
        obtain ⟨l,l',hl,_,_,_,hu,_,rfl⟩ := chargeAuthority_ok (cleanup_tidy s now) hcharge
        exact issueGrantWithBound_aborts (fun _ => (hc.edit (.lease _ l l' hl hu)).cleanup)

theorem run_delivered {s₀ : Store} (h₀ : Accounted s₀) (hd : Delivered [] s₀) {log : List Entry}
    (hr : Run P s₀ log s) : Delivered (history P log) s := by
  induction hr with
  | start => exact hd
  | step h hs ih =>
      have hp := delivered_path ih (step_path (run_steps h₀ h).1 hs)
      rw [history,List.flatMap_append,List.flatMap_singleton]
      exact hp

end Steps

/-! ## The lease of an incarnation -/

/-- The lease of incarnation `g`, as long as there is one, satisfies `K`. -/
def ForIncarnation (g : ℕ) (K : LeaseRecord → Prop) (s : Store) : Prop :=
  g < s.queues.nextGeneration ∧ ∀ q queue l, s.queues.queues.find? q = some queue →
    queue.classes.generation = g → s.leases.find? q = some l → K l

section Incarnations
variable {g now : ℕ} {K : LeaseRecord → Prop} {s s' : Store}

theorem ForIncarnation.mono (h : ForIncarnation g K s) {K' : LeaseRecord → Prop}
    (hK : ∀ l, K l → K' l) : ForIncarnation g K' s :=
  ⟨h.1,fun q queue l hq hg hl => hK l (h.2 q queue l hq hg hl)⟩

theorem forIncarnation_of_find? {ops : List Effect} (hd : Delivered ops s) {q : QueueId}
    {queue : Queue} {l : LeaseRecord} (hq : s.queues.queues.find? q = some queue)
    (hl : s.leases.find? q = some l) (hK : K l) :
    ForIncarnation queue.classes.generation K s := by
  refine ⟨hd.born q queue hq,fun a queue' l' ha hg hl' => ?_⟩
  obtain rfl := hd.distinct a q queue' queue ha hq hg
  cases hl.symm.trans hl'
  exact hK

theorem forIncarnation_cleanup (hpurge : ∀ l, K l → K (l.purgeReplay now))
    (h : ForIncarnation g K s) : ForIncarnation g K (s.cleanupExpired now) := by
  refine ⟨(cleanup_frame s now).2.2.2.2.2 ▸ h.1,fun q queue l hq hg hl => ?_⟩
  obtain ⟨l₀,hl₀,_,rfl⟩ := (cleanup_lease_some s now).mp hl
  exact hpurge l₀ (h.2 q queue l₀ (cleanup_sub s now q queue hq) hg hl₀)

theorem forIncarnation_setQueue (h : ForIncarnation g K s) {q : QueueId} {queue queue' : Queue}
    {total : ℕ} (hq : s.queues.queues.find? q = some queue)
    (hgen : queue'.classes.generation = queue.classes.generation) :
    ForIncarnation g K (setQueue s q queue' total) := by
  refine ⟨h.1,fun a queue₁ l ha hg hl => ?_⟩
  rw [setQueue_find?] at ha
  split_ifs at ha with haq
  · cases ha
    subst haq
    exact h.2 a queue l hq (hgen.symm.trans hg) hl
  · exact h.2 a queue₁ l ha hg hl

theorem forIncarnation_edit {op : List Effect} (hupdate : ∀ l l', LeaseUpdate l l' → K l → K l')
    (h : ForIncarnation g K s) (he : Edit s s' op) : ForIncarnation g K s' := by
  cases he with
  | grant id gr hnew hroom hstatus => exact h
  | lease q l l' hl hu =>
      refine ⟨h.1,fun a queue l₁ ha hg hl₁ => ?_⟩
      rw [setLease_find?] at hl₁
      split_ifs at hl₁ with haq
      · cases hl₁
        subst haq
        exact hupdate l _ hu (h.2 a queue l ha hg hl)
      · exact h.2 a queue l₁ ha hg hl₁
  | create q l id gr hgr hstatus hl hq hroom hcached htemp hbound =>
      refine ⟨Nat.lt_succ_of_lt h.1,fun a queue l₁ ha hg hl₁ => ?_⟩
      change (addQueue s q).queues.queues.find? a = some queue at ha
      change (setLease (addQueue s q) q l).leases.find? a = some l₁ at hl₁
      rw [addQueue_find?] at ha
      rw [setLease_find?] at hl₁
      split_ifs at ha hl₁
      · cases ha
        exact absurd hg h.1.ne'
      · exact h.2 a queue l₁ ha hg hl₁
  | remove q =>
      refine ⟨(remove_frame s.queues q).2 ▸ h.1,fun a queue l₁ ha hg hl₁ => ?_⟩
      rw [removeLease_leases] at hl₁
      rw [Store.removeLease,remove_find?] at ha
      split_ifs at ha hl₁
      exact h.2 a queue l₁ ha hg hl₁
  | append q l queue queue' x item hl hq happ htotal hcells hbytes =>
      exact forIncarnation_setQueue h hq happ.generation
  | pop q queue queue' x item hq hpop => exact forIncarnation_setQueue h hq hpop.generation
  | wake q queue hq => exact forIncarnation_setQueue h hq rfl

theorem forIncarnation_path {op : List Effect} (hpurge : ∀ l, K l → K (l.purgeReplay now))
    (hupdate : ∀ l l', LeaseUpdate l l' → K l → K l') (h : ForIncarnation g K s)
    (hp : Path now s s' op) : ForIncarnation g K s' := by
  induction hp with
  | refl => exact h
  | cleanup _ ih => exact forIncarnation_cleanup hpurge ih
  | edit _ he ih => exact forIncarnation_edit hupdate ih he

end Incarnations

/-! ## Replay records -/

/-- The lease has a later epoch, or still has the record, or the record has expired. -/
def Remembers (r : ReplayRecord) (now : ℕ) (l : LeaseRecord) : Prop :=
  r.epoch < l.epoch ∨ (l.epoch = r.epoch ∧ (r ∈ l.replay ∨ r.expiry ≤ now))

section Records
variable {r : ReplayRecord} {now : ℕ}

theorem Remembers.mono {l : LeaseRecord} (h : Remembers r now l) {later : ℕ} (hle : now ≤ later) :
    Remembers r later l := by
  cases h with
  | inl hlt => exact .inl hlt
  | inr hsame =>
      refine .inr ⟨hsame.1,?_⟩
      cases hsame.2 with
      | inl hmem => exact .inl hmem
      | inr hexp => exact .inr (hexp.trans hle)

theorem purge_epoch (l : LeaseRecord) (now : ℕ) : (l.purgeReplay now).epoch = l.epoch := by
  unfold LeaseRecord.purgeReplay
  split_ifs <;> rfl

theorem mem_purge {l : LeaseRecord} (h : r ∈ l.replay) (now : ℕ) :
    r ∈ (l.purgeReplay now).replay ∨ r.expiry ≤ now := by
  by_cases hexp : r.expiry ≤ now
  · exact .inr hexp
  · left
    unfold LeaseRecord.purgeReplay
    split_ifs
    · exact h
    · exact List.mem_filter.mpr ⟨h,by simpa using hexp⟩

theorem Remembers.purge {l : LeaseRecord} (h : Remembers r now l) :
    Remembers r now (l.purgeReplay now) := by
  unfold Remembers
  rw [purge_epoch]
  cases h with
  | inl hlt => exact .inl hlt
  | inr hsame =>
      refine .inr ⟨hsame.1,?_⟩
      cases hsame.2 with
      | inl hmem => exact mem_purge hmem now
      | inr hexp => exact .inr hexp

theorem Remembers.update {l l' : LeaseRecord} (hu : LeaseUpdate l l') (h : Remembers r now l) :
    Remembers r now l' := by
  unfold Remembers
  cases hu.epoch with
  | inl hsame =>
      rw [hsame.1]
      cases h with
      | inl hlt => exact .inl hlt
      | inr hold =>
          refine .inr ⟨hold.1,?_⟩
          cases hold.2 with
          | inl hmem => exact .inl (hsame.2.subset hmem)
          | inr hexp => exact .inr hexp
  | inr hlt =>
      cases h with
      | inl hlt' => exact .inl (hlt'.trans hlt)
      | inr hold => exact .inl (hold.1 ▸ hlt)

end Records

/-! ## Fresh deposits -/

def depositOf (P : Suite) : Event → Option Envelope
  | .push p => some (envelope p)
  | .pushGc2 p => some (envelopeGc2 P p)
  | _ => none

/-- The entry accepts a deposit or a cover that is no retry, into incarnation `g`. -/
structure Fresh (P : Suite) (entry : Entry) (e : Envelope) (g : ℕ) : Prop where
  deposit : depositOf P entry.event = some e
  accepted : entry.result = .ok (.pushed .enqueued) ∨ entry.result = .ok (.pushed .cover)
  incarnation : ∃ queue, (entry.before.cleanupExpired entry.now).queues.queues.find? e.queueId =
    some queue ∧ queue.classes.generation = g

section Deposits
variable {P : Suite} {s s' : Store} {now : ℕ} {event : Event} {r : Except Fault Reply}

theorem deposit_step {e : Envelope} {outcome : PushOutcome} (hdep : depositOf P event = some e)
    (h : exec P now event s = (.ok (.pushed outcome),s')) :
    Deposited (s.cleanupExpired now) e outcome s' := by
  cases event with
  | push p =>
      obtain ⟨v,hv,hr⟩ := reply_ok h
      cases hr
      cases hdep
      exact (authenticatePush_ok hv).2
  | pushGc2 p =>
      obtain ⟨v,hv,hr⟩ := reply_ok h
      cases hr
      cases hdep
      exact (authenticatePushGc2_ok hv).2
  | _ => cases hdep

theorem record_kept {e : Envelope} {l l' : LeaseRecord} {n : ℕ} (he : l.epoch = e.epoch)
    (h : l.recordReplay e.record n = .ok l') : l'.epoch = e.epoch ∧ e.record ∈ l'.replay := by
  obtain ⟨_,rfl⟩ := recordReplay_ok h
  exact ⟨he,List.mem_append_right _ (List.mem_singleton_self _)⟩

/-- A fresh deposit found no record of its nonce and leaves its own. -/
theorem fresh_step {e : Envelope} {g : ℕ} (hs : Step P now event s r s')
    (hf : Fresh P ⟨now,event,s,r,s'⟩ e g) :
    (∃ l, (s.cleanupExpired now).leases.find? e.queueId = some l ∧ l.epoch = e.epoch ∧
      l.hasReplay e.epoch .push e.nonce = false) ∧
    (∃ l', s'.leases.find? e.queueId = some l' ∧ l'.epoch = e.epoch ∧ e.record ∈ l'.replay) ∧
    ∃ queue', s'.queues.queues.find? e.queueId = some queue' ∧ queue'.classes.generation = g := by
  obtain ⟨queue₀,hq₀,hg⟩ := hf.incarnation
  change (s.cleanupExpired now).queues.queues.find? e.queueId = some queue₀ at hq₀
  have hrun := hs.run
  cases hf.accepted with
  | inl hok =>
      change r = _ at hok
      rw [hok] at hrun
      cases deposit_step hf.deposit hrun with
      | enqueued l l' queue queue' item hl he hr n hrecord hq hitem happ htotal hcells hbytes =>
          cases hq₀.symm.trans hq
          refine ⟨⟨l,hl,he,hr⟩,⟨l',?_,record_kept he hrecord⟩,queue',?_,happ.generation.trans hg⟩
          · rw [setLease_find?,if_pos rfl]
          · change (setQueue _ _ _ _).queues.queues.find? _ = _
            rw [setQueue_find?,if_pos rfl]
  | inr hok =>
      change r = _ at hok
      rw [hok] at hrun
      cases deposit_step hf.deposit hrun with
      | cover l l' hl he hr n hrecord hitem =>
          refine ⟨⟨l,hl,he,hr⟩,⟨l',?_,record_kept he hrecord⟩,queue₀,hq₀,hg⟩
          rw [setLease_find?,if_pos rfl]

theorem fresh_remembered {e : Envelope} {g : ℕ} {ops : List Effect} (hd : Delivered ops s')
    (hs : Step P now event s r s') (hf : Fresh P ⟨now,event,s,r,s'⟩ e g) :
    ForIncarnation g (Remembers e.record now) s' := by
  obtain ⟨_,⟨l',hl',he,hmem⟩,queue',hq',rfl⟩ := fresh_step hs hf
  exact forIncarnation_of_find? hd hq' hl' (.inr ⟨he,.inl hmem⟩)

/-- While its record is live, a nonce is not fresh. -/
theorem remembered_not_fresh {e e' : Envelope} {g : ℕ}
    (hm : ForIncarnation g (Remembers e.record now) s)
    (hlive : now < e.expiry) (hepoch : e'.epoch = e.epoch) (hnonce : e'.nonce = e.nonce)
    (hs : Step P now event s r s') : ¬ Fresh P ⟨now,event,s,r,s'⟩ e' g := by
  intro hf
  obtain ⟨⟨l,hl,he,hr⟩,_⟩ := fresh_step hs hf
  obtain ⟨queue,hq,hg⟩ := hf.incarnation
  cases (forIncarnation_cleanup (fun _ => Remembers.purge) hm).2 _ queue l hq hg hl with
  | inl hlt =>
      change e.epoch < l.epoch at hlt
      omega
  | inr hsame =>
      cases hsame.2 with
      | inl hmem =>
          have hany : l.hasReplay e'.epoch .push e'.nonce = true := by
            rw [LeaseRecord.hasReplay,List.any_eq_true]
            exact ⟨e.record,hmem,by simp [LeaseRecord.sameNonce,Envelope.record,hepoch,hnonce]⟩
          rw [hr] at hany
          cases hany
      | inr hexp => exact absurd hlive (not_lt.mpr hexp)

theorem run_remembered {s₀ : Store} (h₀ : Accounted s₀) (hd : Delivered [] s₀) {log : List Entry}
    (hr : Run P s₀ log s) (hclock : log.Pairwise (fun a b => a.now ≤ b.now)) :
    (∀ now, (∀ a ∈ log, a.now ≤ now) → ∀ a ∈ log, ∀ e g, Fresh P a e g →
      ForIncarnation g (Remembers e.record now) s) ∧
    log.Pairwise (fun a b => ∀ e e' g, Fresh P a e g → e'.epoch = e.epoch → e'.nonce = e.nonce →
      b.now < e.expiry → ¬ Fresh P b e' g) := by
  induction hr with
  | start => exact ⟨fun _ _ _ ha => (List.not_mem_nil ha).elim,List.Pairwise.nil⟩
  | @step log s s' now event r h hs ih =>
      obtain ⟨hold,_,hnew⟩ := List.pairwise_append.mp hclock
      have hpast : ∀ a ∈ log, a.now ≤ now := fun a ha => hnew a ha _ List.mem_cons_self
      obtain ⟨hmem,hpair⟩ := ih hold
      have hpath := step_path (run_steps h₀ h).1 hs
      constructor
      · intro later hlater a ha e g hf
        have hle : now ≤ later := hlater _ (List.mem_append_right _ List.mem_cons_self)
        refine ForIncarnation.mono ?_ (fun _ hl => Remembers.mono hl hle)
        cases List.mem_append.mp ha with
        | inl hin =>
            exact forIncarnation_path (fun _ => Remembers.purge) (fun _ _ => Remembers.update)
              (hmem now hpast a hin e g hf) hpath
        | inr hin =>
            obtain rfl := List.mem_singleton.mp hin
            exact fresh_remembered (delivered_path (run_delivered h₀ hd h) hpath) hs hf
      · refine List.pairwise_append.mpr ⟨hpair,List.pairwise_singleton _ _,?_⟩
        intro a ha b hb e e' g hf hepoch hnonce hlive
        obtain rfl := List.mem_singleton.mp hb
        exact remembered_not_fresh (hmem now hpast a ha e g hf) hlive hepoch hnonce hs

end Deposits

/-! ## Other events -/

section Survival
variable {P : Suite} {s s' : Store} {now : ℕ} {q : QueueId} {queue : Queue}

theorem edit_survives {op : List Effect} (he : Edit s s' op) (hop : .remove q ∉ op)
    (hq : s.queues.queues.find? q = some queue) : ∃ queue',
      s'.queues.queues.find? q = some queue' ∧
      queue'.classes.generation = queue.classes.generation := by
  have hset : ∀ {a : QueueId} {queue₁ queue₂ : Queue} {total : ℕ},
      s.queues.queues.find? a = some queue₁ →
      queue₂.classes.generation = queue₁.classes.generation → ∃ queue',
        (setQueue s a queue₂ total).queues.queues.find? q = some queue' ∧
        queue'.classes.generation = queue.classes.generation := by
    intro a queue₁ queue₂ total ha hgen
    rw [setQueue_find?]
    split_ifs with hqa
    · subst hqa
      cases hq.symm.trans ha
      exact ⟨queue₂,rfl,hgen⟩
    · exact ⟨queue,hq,rfl⟩
  cases he with
  | grant => exact ⟨queue,hq,rfl⟩
  | lease => exact ⟨queue,hq,rfl⟩
  | create a l id g hg hstatus hl hnone hroom hcached htemp hbound =>
      refine ⟨queue,?_,rfl⟩
      have hne : q ≠ a := by
        rintro rfl
        rw [hq] at hnone
        cases hnone
      change (addQueue s a).queues.queues.find? q = _
      rw [addQueue_find?,if_neg hne]
      exact hq
  | remove a =>
      refine ⟨queue,?_,rfl⟩
      have hne : q ≠ a := by
        rintro rfl
        exact hop List.mem_cons_self
      rw [Store.removeLease,remove_find?,if_neg hne]
      exact hq
  | append a l queue₁ queue₂ x item hl ha happ htotal hcells hbytes => exact hset ha happ.generation
  | pop a queue₁ queue₂ x item ha hpop => exact hset ha hpop.generation
  | wake a queue₁ ha => exact hset ha rfl

theorem edits_survive {ops : List Effect} (he : Edits s s' ops) (hops : .remove q ∉ ops)
    (hq : s.queues.queues.find? q = some queue) : ∃ queue',
      s'.queues.queues.find? q = some queue' ∧
      queue'.classes.generation = queue.classes.generation := by
  induction he with
  | refl => exact ⟨queue,hq,rfl⟩
  | tail _ hedit ih =>
      rw [List.mem_append,not_or] at hops
      obtain ⟨queue₁,hq₁,hg₁⟩ := ih hops.1
      obtain ⟨queue₂,hq₂,hg₂⟩ := edit_survives hedit hops.2 hq₁
      exact ⟨queue₂,hq₂,hg₂.trans hg₁⟩

/-- A live lease and its queue outlast a cleanup. -/
theorem cleanup_survives {l : LeaseRecord} (hl : s.leases.find? q = some l) (hlive : now < l.expiry) :
    (s.cleanupExpired now).leases.find? q = some (l.purgeReplay now) ∧
      (s.cleanupExpired now).queues.queues.find? q = s.queues.queues.find? q := by
  have hkept := (cleanup_lease_some s now).mpr ⟨l,hl,hlive,rfl⟩
  exact ⟨hkept,cleanup_keeps_queue hkept⟩

/-- A charged authority's lease outlasts the second cleanup. -/
theorem charged_survives {wire : Bytes} {request : DynamicGrantRequest} {s₁ : Store}
    (hcharge : chargeAuthority P wire now (s.cleanupExpired now) = (.ok request,s₁)) {l : LeaseRecord}
    (hl : s.leases.find? q = some l) (hlive : now < l.expiry) :
    (s₁.cleanupExpired now).queues.queues.find? q = s.queues.queues.find? q := by
  obtain ⟨m,m',hm,rfl,hexp,_⟩ := charged_slot (cleanup_tidy s now) hcharge
  obtain ⟨hkept,hqueue⟩ := cleanup_survives hl hlive
  have hstill : ∃ l₁, (setLease (s.cleanupExpired now) (blockAt 32 wire 2) m').leases.find? q =
      some l₁ ∧ now < l₁.expiry := by
    rw [setLease_find?]
    split_ifs with hqw
    · subst hqw
      cases hkept.symm.trans hm
      refine ⟨m',rfl,?_⟩
      rw [hexp,purge_expiry]
      exact hlive
    · refine ⟨_,hkept,?_⟩
      rw [purge_expiry]
      exact hlive
  obtain ⟨l₁,hl₁,hlive₁⟩ := hstill
  exact (cleanup_survives hl₁ hlive₁).2.trans hqueue

/-- Only a revocation ends the incarnation of a queue whose lease is live. -/
theorem step_survives {event : Event} {r : Except Fault Reply} (h : Accounted s)
    (hs : Step P now event s r s') (hops : .remove q ∉ entryEffects P ⟨now,event,s,r,s'⟩) {l : LeaseRecord}
    (hl : s.leases.find? q = some l) (hlive : now < l.expiry)
    (hq : s.queues.queues.find? q = some queue) : ∃ queue',
      s'.queues.queues.find? q = some queue' ∧
      queue'.classes.generation = queue.classes.generation := by
  have hc := (cleanup_survives hl hlive).2.trans hq
  cases r with
  | ok v =>
      by_cases hdyn : ∃ wire draw, event = .issueDynamicGrant wire draw
      · obtain ⟨wire,draw,rfl⟩ := hdyn
        obtain ⟨v,hv,rfl⟩ := reply_ok hs.run
        simp only [issueDynamicGrant,cleanup_bind,bind_ok] at hv
        obtain ⟨request,s₁,hcharge,hgrant⟩ := hv
        obtain ⟨expiry,_,rfl⟩ := issueGrantWithBound_ok hgrant
        exact ⟨queue,(charged_survives hcharge hl hlive).trans hq,rfl⟩
      · push Not at hdyn
        exact edits_survive (exec_edits (hs.drawn v rfl) hdyn hs.run) hops hc
  | error e =>
      have hgoal : s'.queues.queues.find? q = some queue := by
        refine exec_aborts (A := fun _ t => t.queues.queues.find? q = some queue) event
          ((accounted_cleanup h now).tolerates (fun _ => hc)) (fun _ => hq) (fun _ _ _ _ _ _ => hc)
          ?_ e s' hs.run
        intro wire draw request s₁ _ hcharge
        exact issueGrantWithBound_aborts (fun _ => (charged_survives hcharge hl hlive).trans hq)
      exact ⟨queue,hgoal,rfl⟩

end Survival

/-- What an event does to the queue of a live lease that it does not revoke: nothing, apart
from the message that it appends to or pops from a lane. -/
def Undisturbed (P : Suite) (entry : Entry) : Prop :=
  ∀ q l queue, entry.before.leases.find? q = some l →
    entry.before.queues.queues.find? q = some queue → entry.now < l.expiry →
    .remove q ∉ entryEffects P entry →
    ∃ queue', entry.after.queues.queues.find? q = some queue' ∧
      queue'.classes.generation = queue.classes.generation ∧
      ∀ x, popped queue.classes.generation x (entryEffects P entry)++lane queue' x =
        lane queue x++appended queue.classes.generation x (entryEffects P entry)

section Delivery
variable {P : Suite} {s : Store}

theorem run_undisturbed {s₀ : Store} (h₀ : Accounted s₀) (hd : Delivered [] s₀) {log : List Entry}
    (hr : Run P s₀ log s) : ∀ entry ∈ log, Undisturbed P entry := by
  refine Run.since (Q := fun entry _ => Undisturbed P entry) ?_ (fun _ _ _ _ _ _ _ _ _ _ h => h) hr
  intro log s now event r s' h hs q l queue hl hq hlive hops
  have hacc := (run_steps h₀ h).1
  have hbefore := run_delivered h₀ hd h
  have hafter := delivered_path hbefore (step_path hacc hs)
  obtain ⟨queue',hq',hg⟩ := step_survives hacc hs hops hl hlive hq
  refine ⟨queue',hq',hg,fun x => ?_⟩
  have hlive' := hafter.live q queue' hq' x
  rw [hg,appended_append,popped_append,hbefore.live q queue hq x,List.append_assoc,
    List.append_assoc] at hlive'
  exact (List.append_cancel_left hlive').symm

/-- In a run with a nondecreasing clock, what is popped from a lane of an incarnation is an
initial segment of what was appended to it; no nonce is fresh again in an incarnation before
its record expires, under either wire version; and no event disturbs a queue except for its own
deposit or acknowledgement. -/
theorem relay_delivers {service key : Block 32} {config : StoreConfig} {s₀ : Store}
    (h₀ : Store.new service key config = .ok s₀) {log : List Entry} (hr : Run P s₀ log s)
    (hclock : log.Pairwise (fun a b => a.now ≤ b.now)) :
    (∀ g x, popped g x (history P log) <+: appended g x (history P log)) ∧
      log.Pairwise (fun a b => ∀ e e' g, Fresh P a e g → e'.epoch = e.epoch → e'.nonce = e.nonce →
        b.now < e.expiry → ¬ Fresh P b e' g) ∧
      ∀ entry ∈ log, Undisturbed P entry := by
  have hacc := new_accounted h₀
  have hd := delivered_new h₀
  exact ⟨(run_delivered hacc hd hr).settled,(run_remembered hacc hd hr hclock).2,
    run_undisturbed hacc hd hr⟩

end Delivery

/-! The sample relay's deposit is presented twice and acknowledged. -/

def sampleHandle : AuthenticatedSubscription :=
  ⟨⟨.bulk,wordBlock 32 3,1,1100,wordBlock 16 11⟩,0⟩

def sampleDelivery : List (ℕ × Event) :=
  sampleEvents++[(1001,.pushGc2 samplePush),(1002,.acknowledgeGc2 sampleHandle (wordBlock 16 10)),
    (1003,.pushGc2 samplePush)]

set_option maxRecDepth 20000 in
theorem relay_delivers_sample :
    appended 0 (.gc2 .bulk) (history openSuite (perform openSuite sampleStart sampleDelivery).1) =
        [.gc2 ⟨wordBlock 16 10,sampleMessage⟩] ∧
      popped 0 (.gc2 .bulk) (history openSuite (perform openSuite sampleStart sampleDelivery).1) <+:
        appended 0 (.gc2 .bulk)
          (history openSuite (perform openSuite sampleStart sampleDelivery).1) :=
  ⟨by decide +kernel,(@relay_delivers openSuite _ (wordBlock 32 1) (wordBlock 32 2) sampleConfig
    sampleStart rfl _ (perform_run sampleDelivery .start (by decide +kernel))
    (by decide +kernel)).1 0 (.gc2 .bulk)⟩

end Gcoms.LeaseDelivery
