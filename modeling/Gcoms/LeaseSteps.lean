import Gcoms.LeaseStore

/-!
# Leases, lanes and cleanup

`cleanupExpired` is described by what it leaves under each key. After it, every
lease is purged, so the second purge at the head of an operation does nothing.
The three FIFO lanes of a queue are read through one function, and the changes
that the operations make to a lease or to a lane are stated as relations.
-/
namespace Gcoms.LeaseSteps
open ByteCodec SortedMaps Primitives Commands RelayCells RelayCodec LeaseCodec LeaseStore

/-! ## Replay records -/

theorem earliest_snoc (rs : List ReplayRecord) (r : ReplayRecord) :
    earliest (rs++[r]) = some (match earliest rs with
      | none => r.expiry
      | some old => min old r.expiry) := by
  cases rs with
  | nil => rfl
  | cons b rs =>
      simp only [earliest,List.cons_append,List.map_cons,List.map_append,List.map_nil,
        List.min?_cons',List.foldl_append,List.foldl_cons,List.foldl_nil]

theorem earliest_le {rs : List ReplayRecord} {e : ℕ} (h : earliest rs = some e) {r : ReplayRecord}
    (hr : r ∈ rs) : e ≤ r.expiry :=
  (List.min?_eq_some_iff.mp h).2 r.expiry (List.mem_map_of_mem hr)

theorem earliest_filter (rs : List ReplayRecord) (now : ℕ) :
    (earliest (rs.filter (fun r => r.expiry > now))).all (fun e => e > now) = true := by
  cases h : earliest (rs.filter (fun r => r.expiry > now)) with
  | none => rfl
  | some e =>
      have he := (List.min?_eq_some_iff.mp h).1
      obtain ⟨r,hr,rfl⟩ := List.mem_map.mp he
      exact (List.mem_filter.mp hr).2

theorem purge_purge (l : LeaseRecord) (now : ℕ) :
    (l.purgeReplay now).purgeReplay now = l.purgeReplay now := by
  by_cases h : l.nextReplayExpiry.all (fun expiry => expiry > now) = true
  · have hp : l.purgeReplay now = l := by rw [LeaseRecord.purgeReplay,if_pos h]
    rw [hp,hp]
  · have hp : l.purgeReplay now = { l with
        replay := l.replay.filter (fun r => r.expiry > now)
        nextReplayExpiry := earliest (l.replay.filter (fun r => r.expiry > now)) } := by
      rw [LeaseRecord.purgeReplay,if_neg h]
    rw [hp,LeaseRecord.purgeReplay,if_pos (earliest_filter l.replay now)]

/-- With a correct cache the fast purge is the full scan. -/
theorem purge_eq_scan {l : LeaseRecord} (h : l.nextReplayExpiry = earliest l.replay) (now : ℕ) :
    l.purgeReplay now = { l with
      replay := l.replay.filter (fun r => r.expiry > now)
      nextReplayExpiry := earliest (l.replay.filter (fun r => r.expiry > now)) } := by
  rw [LeaseRecord.purgeReplay]
  split_ifs with hnext
  · have hkeep : l.replay.filter (fun r => r.expiry > now) = l.replay := by
      rw [List.filter_eq_self]
      intro r hr
      cases he : earliest l.replay with
      | none =>
          rw [earliest,List.min?_eq_none_iff,List.map_eq_nil_iff] at he
          simp [he] at hr
      | some e =>
          rw [h,he] at hnext
          have hlt : now < e := by simpa using hnext
          simpa using hlt.trans_le (earliest_le he hr)
    rw [hkeep,← h]
  · rfl

/-! ## Updates of a lease -/

structure LeaseUpdate (l l' : LeaseRecord) : Prop where
  limits : l'.limits = l.limits
  temporaryExpiry : l'.temporaryExpiry = l.temporaryExpiry
  bound : withinBound l.temporaryExpiry l.expiry = true →
    withinBound l'.temporaryExpiry l'.expiry = true
  cached : l.nextReplayExpiry = earliest l.replay → l'.nextReplayExpiry = earliest l'.replay
  epoch : (l'.epoch = l.epoch ∧ l.replay <+: l'.replay) ∨ l.epoch < l'.epoch

theorem recordReplay_ok {l l' : LeaseRecord} {r : ReplayRecord} {n : ℕ}
    (h : l.recordReplay r n = .ok l') : l.replayCount r.operation < n ∧
      l' = { l with
        replay := l.replay++[r]
        nextReplayExpiry := some (match l.nextReplayExpiry with
          | none => r.expiry
          | some old => min old r.expiry) } := by
  unfold LeaseRecord.recordReplay at h
  split_ifs at h with hc
  cases h
  exact ⟨not_le.mp hc,rfl⟩

theorem recordReplay_update {l l' : LeaseRecord} {r : ReplayRecord} {n : ℕ}
    (h : l.recordReplay r n = .ok l') : LeaseUpdate l l' := by
  obtain ⟨_,rfl⟩ := recordReplay_ok h
  exact {
    limits := rfl
    temporaryExpiry := rfl
    bound := id
    cached := by
      intro hc
      rw [hc,earliest_snoc]
    epoch := .inl ⟨rfl,List.prefix_append _ _⟩ }

theorem recordReplay_epoch {l l' : LeaseRecord} {r : ReplayRecord} {n : ℕ}
    (h : l.recordReplay r n = .ok l') : l'.epoch = l.epoch := by
  obtain ⟨_,rfl⟩ := recordReplay_ok h
  rfl

/-- An update that touches the rate-limit slots only. -/
theorem slots_update (l : LeaseRecord) (slots : List ℕ) :
    LeaseUpdate l { l with dynamicGrants := slots } :=
  ⟨rfl,rfl,id,id,.inl ⟨rfl,List.prefix_refl _⟩⟩

theorem LeaseUpdate.trans {l l' l'' : LeaseRecord} (h : LeaseUpdate l l') (h' : LeaseUpdate l' l'') :
    LeaseUpdate l l'' where
  limits := h'.limits.trans h.limits
  temporaryExpiry := h'.temporaryExpiry.trans h.temporaryExpiry
  bound := fun hb => h'.bound (h.bound hb)
  cached := fun hc => h'.cached (h.cached hc)
  epoch := by
    cases h.epoch with
    | inl hs =>
        cases h'.epoch with
        | inl hs' => exact .inl ⟨hs'.1.trans hs.1,hs.2.trans hs'.2⟩
        | inr hlt => exact .inr (hs.1 ▸ hlt)
    | inr hlt =>
        cases h'.epoch with
        | inl hs' => exact .inr (hs'.1 ▸ hlt)
        | inr hlt' => exact .inr (hlt.trans hlt')

theorem LeaseUpdate.setExpiry {l l' : LeaseRecord} (h : LeaseUpdate l l') {expiry : ℕ}
    (hb : withinBound l.temporaryExpiry expiry = true) :
    LeaseUpdate l { l' with expiry := expiry } :=
  ⟨h.limits,h.temporaryExpiry,fun _ => h.temporaryExpiry ▸ hb,h.cached,h.epoch⟩

theorem requireBinding_ok {l : LeaseRecord} {q : QueueId} {epoch : ℕ} {u : Unit}
    (h : l.requireBinding q epoch = .ok u) : l.queueId = q ∧ l.epoch = epoch := by
  unfold LeaseRecord.requireBinding at h
  split_ifs at h with hc
  simp only [ne_eq,not_or,not_not] at hc
  exact hc

/-! ## Lanes -/

inductive Lane where
  | gc1
  | gc2 (traffic : TrafficClass)
  deriving DecidableEq

inductive Item where
  | gc1 (message : Queued Cell)
  | gc2 (message : Queued NaturalCell)
  deriving DecidableEq

def Item.len : Item → ℕ
  | .gc1 m => m.cell.naturalLen
  | .gc2 m => m.cell.encodedLen

def lane (q : Queue) : Lane → List Item
  | .gc1 => q.messages.map .gc1
  | .gc2 traffic => (q.classes.ofClass traffic).messages.map .gc2

/-- The summed length of everything a queue holds. -/
def contents (q : Queue) : List Item :=
  lane q .gc1++(lane q (.gc2 .interactive)++lane q (.gc2 .bulk))

def contentBytes (q : Queue) : ℕ := ((contents q).map Item.len).sum

theorem contents_length (q : Queue) : (contents q).length = q.len := by
  simp [contents,lane,Queue.len,ClassQueues.len,ClassQueues.ofClass]

/-- `q'` is `q` with `item` at the end of a lane. -/
structure Appended (q q' : Queue) (x : Lane) (item : Item) : Prop where
  same : lane q' x = lane q x++[item]
  other : ∀ y, y ≠ x → lane q' y = lane q y
  bytes : q'.bytes = q.bytes+item.len
  generation : q'.classes.generation = q.classes.generation

/-- `q'` is `q` without the head `item` of a lane. -/
structure Popped (q q' : Queue) (x : Lane) (item : Item) : Prop where
  same : lane q x = item::lane q' x
  other : ∀ y, y ≠ x → lane q' y = lane q y
  bytes : q'.bytes = q.bytes-item.len
  generation : q'.classes.generation = q.classes.generation

theorem contents_perm {q q' : Queue} {x : Lane} {item : Item}
    (hx : (lane q' x).Perm (item::lane q x)) (hy : ∀ y, y ≠ x → lane q' y = lane q y) :
    (contents q').Perm (item::contents q) := by
  unfold contents
  cases x with
  | gc1 =>
      rw [hy (.gc2 .interactive) (by simp),hy (.gc2 .bulk) (by simp)]
      exact hx.append_right _
  | gc2 traffic =>
      rw [hy .gc1 (by simp)]
      cases traffic with
      | interactive =>
          rw [hy (.gc2 .bulk) (by simp)]
          exact ((hx.append_right _).append_left _).trans List.perm_middle
      | bulk =>
          rw [hy (.gc2 .interactive) (by simp)]
          refine ((hx.append_left _).append_left _).trans ?_
          rw [← List.append_assoc,← List.append_assoc]
          exact List.perm_middle

theorem Appended.contents {q q' : Queue} {x : Lane} {item : Item} (h : Appended q q' x item) :
    (contents q').Perm (item::LeaseSteps.contents q) :=
  contents_perm (h.same ▸ List.perm_append_singleton item _) h.other

theorem Popped.contents {q q' : Queue} {x : Lane} {item : Item} (h : Popped q q' x item) :
    (LeaseSteps.contents q).Perm (item::LeaseSteps.contents q') :=
  contents_perm (h.same ▸ List.Perm.refl _) (fun y hy => (h.other y hy).symm)

theorem appended_gc1 (q : Queue) (m : Queued Cell) :
    Appended q { q with bytes := q.bytes+m.cell.naturalLen, messages := q.messages++[m] } .gc1
      (.gc1 m) where
  same := by simp [lane]
  other y hy := by
    cases y with
    | gc1 => exact absurd rfl hy
    | gc2 => rfl
  bytes := rfl
  generation := rfl

theorem ofClass_setClass (c : ClassQueues) (x : ClassQueue) (t u : TrafficClass) :
    (c.setClass x t).ofClass u = if u = t then x else c.ofClass u := by
  cases t <;> cases u <;> rfl

theorem setClass_generation (c : ClassQueues) (x : ClassQueue) (t : TrafficClass) :
    (c.setClass x t).generation = c.generation := by
  cases t <;> rfl

theorem appended_gc2 (q : Queue) (t : TrafficClass) (m : Queued NaturalCell) (changed : ℕ) :
    Appended q { q with
      bytes := q.bytes+m.cell.encodedLen
      classes := q.classes.setClass ⟨(q.classes.ofClass t).messages++[m],changed⟩ t } (.gc2 t)
      (.gc2 m) where
  same := by simp [lane,ofClass_setClass]
  other y hy := by
    cases y with
    | gc1 => rfl
    | gc2 u =>
        have hu : u ≠ t := fun h => hy (by rw [h])
        simp [lane,ofClass_setClass,hu]
  bytes := rfl
  generation := setClass_generation _ _ _

theorem popped_gc1 {q : Queue} {m : Queued Cell} {rest : List (Queued Cell)}
    (h : q.messages = m::rest) :
    Popped q { q with bytes := q.bytes-m.cell.naturalLen, messages := rest } .gc1 (.gc1 m) where
  same := by simp [lane,h]
  other y hy := by
    cases y with
    | gc1 => exact absurd rfl hy
    | gc2 => rfl
  bytes := rfl
  generation := rfl

theorem popped_gc2 {q : Queue} {t : TrafficClass} {m : Queued NaturalCell}
    {rest : List (Queued NaturalCell)} (h : (q.classes.ofClass t).messages = m::rest)
    (changed : ℕ) :
    Popped q { q with
      bytes := q.bytes-m.cell.encodedLen
      classes := q.classes.setClass ⟨rest,changed⟩ t } (.gc2 t) (.gc2 m) where
  same := by simp [lane,h,ofClass_setClass]
  other y hy := by
    cases y with
    | gc1 => rfl
    | gc2 u =>
        have hu : u ≠ t := fun h => hy (by rw [h])
        simp [lane,ofClass_setClass,hu]
  bytes := rfl
  generation := setClass_generation _ _ _

theorem lane_wakeAll (q : Queue) (x : Lane) :
    lane { q with classes := q.classes.wakeAll } x = lane q x := by
  cases x with
  | gc1 => rfl
  | gc2 t => cases t <;> rfl

/-! ## Cleaning up -/

section Cleanup
variable (s : Store) (now : ℕ)

theorem remove_find? (s : QueueStore) (a q : QueueId) :
    (s.remove a).queues.find? q = if q = a then none else s.queues.find? q := by
  unfold QueueStore.remove
  cases hf : s.queues.find? a with
  | none =>
      by_cases hq : q = a
      · subst hq
        simp [hf]
      · simp [hq]
  | some queue =>
      by_cases hq : q = a
      · subst hq
        simp
      · simp [hq,SortedMap.find?_erase_of_ne _ hq]

theorem remove_frame (s : QueueStore) (a : QueueId) :
    (s.remove a).maxQueues = s.maxQueues ∧ (s.remove a).nextGeneration = s.nextGeneration := by
  unfold QueueStore.remove
  split <;> exact ⟨rfl,rfl⟩

theorem removeLease_leases (a q : QueueId) :
    (s.removeLease a).leases.find? q = if q = a then none else s.leases.find? q := by
  by_cases hq : q = a
  · subst hq
    simp [Store.removeLease]
  · simp [Store.removeLease,hq,SortedMap.find?_erase_of_ne _ hq]

/-- What is under a key after the listed leases have been removed. -/
theorem foldl_removeLease (ids : List QueueId) (q : QueueId) :
    (ids.foldl Store.removeLease s).leases.find? q =
        (if q ∈ ids then none else s.leases.find? q) ∧
      (ids.foldl Store.removeLease s).queues.queues.find? q =
        (if q ∈ ids then none else s.queues.queues.find? q) := by
  induction ids generalizing s with
  | nil => simp
  | cons a ids ih =>
      have h := ih (s.removeLease a)
      rw [List.foldl_cons,h.1,h.2,removeLease_leases,Store.removeLease,remove_find?]
      by_cases hq : q = a
      · simp [hq]
      · simp [hq]

/-- Nothing else of the store changes. -/
theorem foldl_removeLease_frame (ids : List QueueId) :
    (ids.foldl Store.removeLease s).grants = s.grants ∧
      (ids.foldl Store.removeLease s).config = s.config ∧
      (ids.foldl Store.removeLease s).relayServiceId = s.relayServiceId ∧
      (ids.foldl Store.removeLease s).admissionKey = s.admissionKey ∧
      (ids.foldl Store.removeLease s).queues.maxQueues = s.queues.maxQueues ∧
      (ids.foldl Store.removeLease s).queues.nextGeneration = s.queues.nextGeneration := by
  induction ids generalizing s with
  | nil => exact ⟨rfl,rfl,rfl,rfl,rfl,rfl⟩
  | cons a ids ih =>
      obtain ⟨h₁,h₂,h₃,h₄,h₅,h₆⟩ := ih (s.removeLease a)
      have hf := remove_frame s.queues a
      exact ⟨h₁,h₂,h₃,h₄,h₅.trans hf.1,h₆.trans hf.2⟩

/-- The leases that have expired. -/
def expiredIds : List QueueId :=
  (s.leases.entries.filter (fun e => e.2.expiry ≤ now)).map Prod.fst

theorem mem_expiredIds {q : QueueId} :
    q ∈ expiredIds s now ↔ ∃ l, s.leases.find? q = some l ∧ l.expiry ≤ now := by
  simp only [expiredIds,List.mem_map,List.mem_filter,decide_eq_true_eq]
  constructor
  · rintro ⟨⟨a,l⟩,⟨hm,hl⟩,rfl⟩
    exact ⟨l,SortedMap.mem_iff_find?.mp hm,hl⟩
  · rintro ⟨l,hf,hl⟩
    exact ⟨(q,l),⟨SortedMap.mem_iff_find?.mpr hf,hl⟩,rfl⟩

theorem cleanup_leases (q : QueueId) : (s.cleanupExpired now).leases.find? q =
    ((s.leases.find? q).filter (fun l => l.expiry > now)).map (fun l => l.purgeReplay now) := by
  have h := (foldl_removeLease { s with grants := s.grants.retain (fun _ g => g.expiry > now) }
    (expiredIds s now) q).1
  change (SortedMap.mapValues _ _).find? q = _
  rw [SortedMap.find?_mapValues]
  refine congrArg _ (h.trans ?_)
  cases hf : s.leases.find? q with
  | none => simp
  | some l =>
      have hm : q ∈ expiredIds s now ↔ l.expiry ≤ now := by
        rw [mem_expiredIds]
        simp [hf]
      by_cases hl : l.expiry ≤ now
      · simp [hm.mpr hl,Option.filter,not_lt.mpr hl]
      · have hq : q ∉ expiredIds s now := fun h => hl (hm.mp h)
        simp [hq,Option.filter,not_le.mp hl]

theorem cleanup_queues (q : QueueId) : (s.cleanupExpired now).queues.queues.find? q =
    if q ∈ expiredIds s now then none else s.queues.queues.find? q :=
  (foldl_removeLease { s with grants := s.grants.retain (fun _ g => g.expiry > now) }
    (expiredIds s now) q).2

theorem cleanup_frame : (s.cleanupExpired now).grants = s.grants.retain (fun _ g => g.expiry > now) ∧
    (s.cleanupExpired now).config = s.config ∧
    (s.cleanupExpired now).relayServiceId = s.relayServiceId ∧
    (s.cleanupExpired now).admissionKey = s.admissionKey ∧
    (s.cleanupExpired now).queues.maxQueues = s.queues.maxQueues ∧
    (s.cleanupExpired now).queues.nextGeneration = s.queues.nextGeneration :=
  foldl_removeLease_frame { s with grants := s.grants.retain (fun _ g => g.expiry > now) }
    (expiredIds s now)

/-- A lease that a cleanup leaves is live and purged. -/
theorem cleanup_lease_some {q : QueueId} {l : LeaseRecord} :
    (s.cleanupExpired now).leases.find? q = some l ↔
      ∃ l₀, s.leases.find? q = some l₀ ∧ now < l₀.expiry ∧ l₀.purgeReplay now = l := by
  rw [cleanup_leases,Option.map_eq_some_iff]
  constructor
  · rintro ⟨l₀,hf,rfl⟩
    obtain ⟨hf,hl⟩ := Option.filter_eq_some_iff.mp hf
    exact ⟨l₀,hf,by simpa using hl,rfl⟩
  · rintro ⟨l₀,hf,hl,rfl⟩
    exact ⟨l₀,Option.filter_eq_some_iff.mpr ⟨hf,by simpa using hl⟩,rfl⟩

end Cleanup

/-- Every lease is purged at this clock. -/
def Tidy (now : ℕ) (s : Store) : Prop :=
  ∀ q l, s.leases.find? q = some l → l.purgeReplay now = l

theorem cleanup_tidy (s : Store) (now : ℕ) : Tidy now (s.cleanupExpired now) := by
  intro q l hl
  obtain ⟨l₀,_,_,rfl⟩ := (cleanup_lease_some s now).mp hl
  exact purge_purge l₀ now

end Gcoms.LeaseSteps
