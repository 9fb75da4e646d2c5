import Gcoms.ReceiptStorage

/-!
# Histories of the receipt ledger

A history is a sequence of stages, checks, rollbacks of the latest stage and
restarts through the archive, under clock values that may go back. Beside the
ledger it keeps which records have been staged and are still expected to be
known. A rollback takes the latest stage out of that list again, and a credit
takes out the records whose own acknowledgement it settles.

A listed record is guarded: its receipt is still there, or the clock floor has
reached its horizon. Either way it cannot be taken for a new one. The second
invariant, `Sound`, is the one that makes every reachable ledger storable.
-/
namespace Gcoms.ReceiptHistory
open ByteCodec SortedMaps Primitives FlowWindow ReceiptLedger ReceiptStorage

structure Record where
  peer : Bytes
  id : Block 16
  hash : Block 32
  horizon : U64
  deriving DecidableEq

def Record.key (P : Suite) (r : Record) : Key := keyOf P r.peer r.id

/-- The record whose effect a stage makes durable. -/
def record : Stage → Option Record
  | .data peer id hash horizon _ => some ⟨peer,id,hash,horizon⟩
  | .deferredAck peer id (some (hash,horizon)) _ => some ⟨peer,id,hash,horizon⟩
  | .deferredAck _ _ none _ => none
  | .credit _ _ => none
  | .preparedAck _ _ => none

/-- The stage removes the receipt of `r` because the counter of the receipt's
own acknowledgement is credited on the session of that acknowledgement. -/
def settles (P : Suite) (l : Ledger) (now : U64) (r : Record) : Stage → Bool
  | .credit peer window => ((l.expire now).2.entries.find? (r.key P)).any
      (fun receipt => Receipt.facts receipt = (r.hash,r.horizon) &&
        Ledger.settled (peerKey P peer) window (r.key P) receipt)
  | _ => false

inductive Event
  | check (r : Record) (now : U64)
  | stage (s : Stage) (now : U64)
  | rollback
  | restart

structure History where
  ledger : Ledger
  undo : Option Undo
  staged : List Record
  earlier : List Record

namespace History

def start : History := ⟨.empty,none,[],[]⟩

/-- A restart loads the archive of the ledger; where the archive does not load,
no such restart takes place. -/
def step (P : Suite) (h : History) : Event → History
  | .check _ _ => h
  | .stage s now =>
      match h.ledger.stage P now s with
      | (.error _,l) => { h with ledger := l }
      | (.ok u,l) =>
          { ledger := l
            undo := some u
            staged := (record s).toList++h.staged.filter (fun r => !settles P h.ledger now r s)
            earlier := h.staged }
  | .rollback =>
      match h.undo with
      | none => h
      | some u => ⟨h.ledger.rollback u,none,h.earlier,[]⟩
  | .restart =>
      match decode (encode h.ledger) with
      | .error _ => h
      | .ok l => ⟨l,none,h.staged,[]⟩

def run (P : Suite) (events : List Event) : History := events.foldl (step P) start

end History

/-! ## What the operations do to one receipt -/

theorem check_ok {P : Suite} {l : Ledger} {peer : Bytes} {id : Block 16} {hash : Block 32}
    {horizon now : U64} {known : Bool} (h : l.check P peer id hash horizon now = .ok known) :
    l.now now < horizon ∧
      (∀ r, l.entries.find? (keyOf P peer id) = some r → Receipt.facts r = (hash,horizon)) ∧
      (l.entries.find? (keyOf P peer id) = none →
        (l.expire now).2.entries.size < maxReceipts ∧
          (ofPeer (peerKey P peer) (l.expire now).2.entries.entries).length < maxPerPeer) := by
  simp only [Ledger.check] at h
  split at h
  · cases h
  next hlt =>
    refine ⟨not_le.mp hlt,?_,?_⟩
    · intro r hr
      simp only [hr] at h
      split at h
      · cases h
      next hne =>
        simp only [not_or,ne_eq,not_not] at hne
        exact Prod.ext hne.1 hne.2
    · intro hn
      simp only [hn] at h
      split at h
      · cases h
      next hroom =>
        simp only [not_or,not_le] at hroom
        exact hroom

theorem checkDeferred_ok {P : Suite} {l : Ledger} {peer : Bytes} {id : Block 16}
    {application : Option (Block 32 × U64)} {now : U64} {u : Unit}
    (h : l.checkDeferred P peer id application now = .ok u) :
    l.checkApplication P peer id application now = .ok () ∧
    (application = none → ∀ r, l.entries.find? (keyOf P peer id) = some r → r.horizon ≤ now) ∧
    (application ≠ none → ∀ a, l.pending.find? (keyOf P peer id) = some a → now < a.expires →
      ∃ r, l.entries.find? (keyOf P peer id) = some r) ∧
    ((∃ a, l.pending.find? (keyOf P peer id) = some a ∧ now < a.expires) ∨
      ((l.pending.entries.filter (fun e => e.2.expires > now)).length < maxPendingAcks ∧
        (ofPeer (peerKey P peer) (l.pending.entries.filter (fun e => e.2.expires > now))).length <
          maxPerPeer)) := by
  simp only [Ledger.checkDeferred] at h
  split at h
  · cases h
  next happ =>
    split at h
    · cases h
    next hconflict =>
      split at h
      · cases h
      next hroom =>
        refine ⟨happ,?_,?_,?_⟩
        · rintro rfl r hr
          simpa [hr] using hconflict
        · intro hne a ha hlive
          obtain ⟨b,rfl⟩ := Option.ne_none_iff_exists'.mp hne
          cases hr : l.entries.find? (keyOf P peer id) with
          | none => simp [ha,hr,hlive] at hconflict
          | some r => exact ⟨r,rfl⟩
        · cases hp : (l.pending.find? (keyOf P peer id)).filter (fun a => a.expires > now) with
          | none =>
              right
              simp only [hp] at hroom
              simpa [keyOf] using hroom
          | some a =>
              obtain ⟨ha,hlive⟩ := Option.filter_eq_some_iff.mp hp
              exact .inl ⟨a,ha,by simpa using hlive⟩

theorem now_now (l : Ledger) (now : U64) : l.now (l.now now) = l.now now := by
  simp [Ledger.now]

theorem find?_expire {l : Ledger} {now : U64} {k : Key} {r : Receipt} :
    (l.expire now).2.entries.find? k = some r ↔
      l.entries.find? k = some r ∧ l.now now < r.horizon := by
  simp only [Ledger.expire,SortedMap.find?_retain,Option.filter_eq_some_iff,decide_eq_true_eq,
    gt_iff_lt]

theorem pending_expire {l : Ledger} {now : U64} {k : Key} {a : PendingAck} :
    (l.expire now).2.pending.find? k = some a ↔
      l.pending.find? k = some a ∧ l.now now < a.expires := by
  simp only [Ledger.expire,SortedMap.find?_retain,Option.filter_eq_some_iff,decide_eq_true_eq,
    gt_iff_lt]

theorem stageData_ok {P : Suite} {l l' : Ledger} {peer : Bytes} {id : Block 16} {hash : Block 32}
    {horizon now : U64} {ack : Barrier} {u : Undo}
    (h : l.stageData P peer id hash horizon ack now = (.ok u,l')) :
    (∃ known, l.check P peer id hash horizon now = .ok known) ∧
      l' = { (l.expire now).2 with
        entries := (l.expire now).2.entries.insert (keyOf P peer id) ⟨hash,horizon,some ack⟩
        pending := (l.expire now).2.pending.erase (keyOf P peer id) } := by
  simp only [Ledger.stageData] at h
  split at h
  · cases h
  next known hc =>
    cases h
    exact ⟨⟨known,hc⟩,rfl⟩

/-- The receipt of a record whose acknowledgement is deferred. -/
def withApplication (entries : SortedMap Key Receipt) (key : Key) :
    Option (Block 32 × U64) → SortedMap Key Receipt
  | none => entries
  | some (hash,horizon) => entries.insert key ⟨hash,horizon,none⟩

theorem stageDeferredAck_ok {P : Suite} {l l' : Ledger} {peer : Bytes} {id : Block 16}
    {application : Option (Block 32 × U64)} {sharePresence : Bool} {now : U64} {u : Undo}
    (h : l.stageDeferredAck P peer id application sharePresence now = (.ok u,l')) :
    l.checkDeferred P peer id application (l.now now) = .ok () ∧
      l' = { (l.expire (l.now now)).2 with
        entries := withApplication (l.expire (l.now now)).2.entries (keyOf P peer id) application
        pending := (l.expire (l.now now)).2.pending.insert (keyOf P peer id)
          ⟨Ledger.deferredExpiry (l.expire (l.now now)).2.pending (keyOf P peer id) application
            (l.now now),sharePresence⟩ } := by
  simp only [Ledger.stageDeferredAck] at h
  split at h
  · cases h
  next hc =>
    cases application with
    | none =>
        cases h
        exact ⟨hc,rfl⟩
    | some application =>
        cases h
        exact ⟨hc,rfl⟩

theorem stagePreparedAck_cases (l : Ledger) (key : Key) (ack : Barrier) (now : U64) :
    (l.stagePreparedAck key ack now).2 = (l.expire now).2 ∨
    ((l.expire now).2.entries.find? key = none ∧ (l.stagePreparedAck key ack now).2 =
      { (l.expire now).2 with pending := (l.expire now).2.pending.erase key }) ∨
    (∃ r, (l.expire now).2.entries.find? key = some r ∧ (l.stagePreparedAck key ack now).2 =
      { (l.expire now).2 with
        entries := (l.expire now).2.entries.insert key { r with ack := some ack }
        pending := (l.expire now).2.pending.erase key }) := by
  simp only [Ledger.stagePreparedAck]
  split
  · exact .inl rfl
  · split
    next hn => exact .inr (.inl ⟨hn,rfl⟩)
    next r hr => exact .inr (.inr ⟨r,hr,rfl⟩)

/-! ## Room in a table -/

section Room
variable {V : Type}

/-- The key is there already, or one more entry of its peer fits. -/
def HasRoom (m : SortedMap Key V) (limit : ℕ) (k : Key) : Prop :=
  (∃ v, m.find? k = some v) ∨
    (m.size < limit ∧ (ofPeer (ofLex k).1 m.entries).length < maxPerPeer)

structure Fits (m : SortedMap Key V) (limit : ℕ) : Prop where
  size : m.size ≤ limit
  peer : ∀ peer, (ofPeer peer m.entries).length ≤ maxPerPeer

theorem size_eq_countP (m : SortedMap Key V) : m.size = m.entries.countP (fun _ => true) := by
  simp [SortedMap.size]

theorem ofPeer_length (peer : Block 32) (m : SortedMap Key V) :
    (ofPeer peer m.entries).length = m.entries.countP (fun e => (ofLex e.1).1 = peer) := by
  rw [ofPeer,List.countP_eq_length_filter]

theorem Fits.retain {m : SortedMap Key V} {limit : ℕ} (h : Fits m limit) (p : Key → V → Bool) :
    Fits (m.retain p) limit where
  size := (List.length_filter_le _ _).trans h.size
  peer peer := by
    rw [ofPeer_length]
    exact (m.countP_retain_le p _).trans (ofPeer_length peer m ▸ h.peer peer)

theorem Fits.erase {m : SortedMap Key V} {limit : ℕ} (h : Fits m limit) (k : Key) :
    Fits (m.erase k) limit := by
  unfold SortedMap.erase
  exact h.retain _

theorem Fits.insert {m : SortedMap Key V} {limit : ℕ} {k : Key} (h : Fits m limit)
    (hr : HasRoom m limit k) (v : V) : Fits (m.insert k v) limit := by
  cases hr with
  | inl hex =>
      obtain ⟨w,hw⟩ := hex
      refine ⟨?_,fun peer => ?_⟩
      · rw [size_eq_countP,SortedMap.countP_insert_of_find? hw v (fun _ => true),← size_eq_countP]
        exact h.size
      · rw [ofPeer_length,SortedMap.countP_insert_of_find? hw v (fun a => (ofLex a).1 = peer),
          ← ofPeer_length]
        exact h.peer peer
  | inr hlt =>
      refine ⟨?_,fun peer => ?_⟩
      · exact (m.size_insert_le k v).trans hlt.1
      · have hle := m.countP_insert_le k v (fun a => (ofLex a).1 = peer)
        rw [ofPeer_length]
        refine hle.trans ?_
        rw [← ofPeer_length]
        by_cases hp : (ofLex k).1 = peer
        · subst hp
          simpa using hlt.2
        · simpa [hp] using h.peer peer

theorem fits_mapValues {W : Type} {m : SortedMap Key V} {limit : ℕ} {f : V → W} :
    Fits (m.mapValues f) limit ↔ Fits m limit := by
  have hsize : (m.mapValues f).size = m.size := by simp [SortedMap.size,SortedMap.mapValues]
  have hpeer : ∀ peer, (ofPeer peer (m.mapValues f).entries).length =
      (ofPeer peer m.entries).length := by
    intro peer
    rw [ofPeer_length,ofPeer_length]
    simp only [SortedMap.mapValues,List.countP_map]
    rfl
  constructor
  · exact fun h => ⟨hsize ▸ h.size,fun peer => hpeer peer ▸ h.peer peer⟩
  · exact fun h => ⟨hsize.symm ▸ h.size,fun peer => (hpeer peer).symm ▸ h.peer peer⟩

end Room

theorem expire_fits {l : Ledger} (h : Fits l.entries maxReceipts) (now : U64) :
    Fits (l.expire now).2.entries maxReceipts :=
  h.retain (fun _ r => r.horizon > l.now now)

/-- What a successful check leaves to do for the table of receipts. -/
theorem check_room {P : Suite} {l : Ledger} {peer : Bytes} {id : Block 16} {hash : Block 32}
    {horizon now : U64} {known : Bool} (h : l.check P peer id hash horizon now = .ok known) :
    HasRoom (l.expire now).2.entries maxReceipts (keyOf P peer id) ∧
      ∀ r, (l.expire now).2.entries.find? (keyOf P peer id) = some r →
        Receipt.facts r = (hash,horizon) := by
  obtain ⟨hlt,hfacts,hroom⟩ := check_ok h
  refine ⟨?_,fun r hr => hfacts r (find?_expire.mp hr).1⟩
  cases hf : l.entries.find? (keyOf P peer id) with
  | none => exact .inr (hroom hf)
  | some r =>
      have hr : r.horizon = horizon := congrArg Prod.snd (hfacts r hf)
      exact .inl ⟨r,find?_expire.mpr ⟨hf,hr ▸ hlt⟩⟩

theorem checkApplication_some {P : Suite} {l : Ledger} {peer : Bytes} {id : Block 16}
    {hash : Block 32} {horizon now : U64}
    (h : l.checkApplication P peer id (some (hash,horizon)) now = .ok ()) :
    ∃ known, l.check P peer id hash horizon now = .ok known := by
  simp only [Ledger.checkApplication] at h
  cases hc : l.check P peer id hash horizon now with
  | error e => simp [hc,Except.map] at h
  | ok known => exact ⟨known,rfl⟩

/-! ## At most one effect -/

/-- The receipt is still there, or its horizon has passed for good. -/
def Guarded (l : Ledger) (k : Key) (facts : Block 32 × U64) : Prop :=
  (∃ r, l.entries.find? k = some r ∧ Receipt.facts r = facts) ∨ facts.2 ≤ l.clockFloor

theorem Guarded.check_ne {P : Suite} {l : Ledger} {r : Record}
    (h : Guarded l (r.key P) (r.hash,r.horizon)) (now : U64) :
    l.check P r.peer r.id r.hash r.horizon now ≠ .ok false := by
  intro hc
  obtain ⟨hlt,hfacts,_⟩ := check_ok hc
  cases h with
  | inr hpast =>
      have hle : l.clockFloor ≤ l.now now := le_max_right _ _
      exact absurd (hpast.trans hle) (not_le.mpr hlt)
  | inl hex =>
      obtain ⟨receipt,hf,heq⟩ := hex
      have hne : ¬ (receipt.hash ≠ r.hash ∨ receipt.horizon ≠ r.horizon) := by
        simpa [Receipt.facts] using heq
      have hkey : l.entries.find? (keyOf P r.peer r.id) = some receipt := hf
      simp only [Ledger.check,not_le.mpr hlt,if_false,hkey,hne] at hc
      cases hc

theorem Guarded.expire {l : Ledger} {k : Key} {facts : Block 32 × U64} (h : Guarded l k facts)
    (now : U64) : Guarded (l.expire now).2 k facts := by
  have hclock : (l.expire now).2.clockFloor = l.now now := rfl
  cases h with
  | inr hpast =>
      right
      rw [hclock]
      exact hpast.trans (le_max_right _ _)
  | inl hex =>
      obtain ⟨r,hf,rfl⟩ := hex
      by_cases hlive : l.now now < r.horizon
      · exact .inl ⟨r,find?_expire.mpr ⟨hf,hlive⟩,rfl⟩
      · right
        rw [hclock]
        exact not_lt.mp hlive

/-- A receipt may be overwritten by one with the same facts. -/
theorem Guarded.insert {l : Ledger} {k a : Key} {facts : Block 32 × U64} (h : Guarded l k facts)
    {r : Receipt} (hsame : ∀ old, l.entries.find? a = some old → Receipt.facts old = Receipt.facts r)
    (pending : SortedMap Key PendingAck) :
    Guarded { l with entries := l.entries.insert a r, pending := pending } k facts := by
  cases h with
  | inr hpast => exact .inr hpast
  | inl hex =>
      obtain ⟨old,hf,rfl⟩ := hex
      left
      by_cases hk : k = a
      · subst hk
        exact ⟨r,SortedMap.find?_insert_self _ _ _,(hsame old hf).symm⟩
      · exact ⟨old,(SortedMap.find?_insert_of_ne _ r hk).trans hf,rfl⟩

theorem Guarded.inserted {l : Ledger} {k : Key} {r : Receipt} (pending : SortedMap Key PendingAck) :
    Guarded { l with entries := l.entries.insert k r, pending := pending } k (Receipt.facts r) :=
  .inl ⟨r,SortedMap.find?_insert_self _ _ _,rfl⟩

/-- A restart keeps every guard. -/
theorem Guarded.restart {l l' : Ledger} {k : Key} {facts : Block 32 × U64} (h : Guarded l k facts)
    (hsize : l.entries.size ≤ maxReceipts) (hd : decode (encode l) = .ok l') :
    Guarded l' k facts := by
  obtain ⟨hclock,_,hfacts⟩ := decode_encode_facts hsize hd
  cases h with
  | inr hpast =>
      right
      rw [hclock]
      exact hpast
  | inl hex =>
      obtain ⟨r,hf,rfl⟩ := hex
      have hm := congrArg (fun m => m.find? k) hfacts
      simp only [SortedMap.find?_mapValues,hf,Option.map_some,Option.map_eq_some_iff] at hm
      exact .inl hm

/-- A stage keeps every guard, apart from those which a credit settles. -/
theorem Guarded.stage {P : Suite} {l l' : Ledger} {now : U64} {s : Stage} {u : Undo} {r : Record}
    (hs : l.stage P now s = (.ok u,l')) (hn : settles P l now r s = false)
    (h : Guarded l (r.key P) (r.hash,r.horizon)) : Guarded l' (r.key P) (r.hash,r.horizon) := by
  cases s with
  | data peer id hash horizon ack =>
      obtain ⟨⟨known,hc⟩,rfl⟩ := stageData_ok hs
      exact (h.expire now).insert (check_room hc).2 _
  | credit peer window =>
      cases hs
      cases h.expire now with
      | inr hpast => exact .inr hpast
      | inl hex =>
          obtain ⟨receipt,hf,hfacts⟩ := hex
          refine .inl ⟨receipt,?_,hfacts⟩
          simp only [settles,hf,hfacts,Option.any_some,decide_true,Bool.true_and] at hn
          simp only [Ledger.stageCredit,SortedMap.find?_retain,hf]
          simp [hn]
  | deferredAck peer id application sharePresence =>
      obtain ⟨hc,rfl⟩ := stageDeferredAck_ok hs
      have he := h.expire (l.now now)
      cases application with
      | none => exact he
      | some application =>
          obtain ⟨known,hk⟩ := checkApplication_some (checkDeferred_ok hc).1
          exact he.insert (check_room hk).2 _
  | preparedAck key ack =>
      cases hs
      have he := h.expire now
      obtain hl | ⟨_,hl⟩ | ⟨receipt,hf,hl⟩ := stagePreparedAck_cases l key ack now
      · rw [hl]
        exact he
      · rw [hl]
        exact he
      · rw [hl]
        apply he.insert
        intro old hold
        cases hf.symm.trans hold
        rfl

/-- A staged record is guarded from then on. -/
theorem guarded_of_record {P : Suite} {l l' : Ledger} {now : U64} {s : Stage} {u : Undo}
    {r : Record} (hs : l.stage P now s = (.ok u,l')) (hr : record s = some r) :
    Guarded l' (r.key P) (r.hash,r.horizon) := by
  cases s with
  | data peer id hash horizon ack =>
      cases hr
      obtain ⟨_,rfl⟩ := stageData_ok hs
      exact Guarded.inserted _
  | credit => cases hr
  | deferredAck peer id application sharePresence =>
      obtain ⟨_,rfl⟩ := stageDeferredAck_ok hs
      cases application with
      | none => cases hr
      | some application =>
          cases hr
          exact Guarded.inserted _
  | preparedAck => cases hr

theorem stage_fits {P : Suite} {l l' : Ledger} {now : U64} {s : Stage} {u : Undo}
    (hs : l.stage P now s = (.ok u,l')) (h : Fits l.entries maxReceipts) :
    Fits l'.entries maxReceipts := by
  have he := expire_fits h now
  cases s with
  | data peer id hash horizon ack =>
      obtain ⟨⟨known,hc⟩,rfl⟩ := stageData_ok hs
      exact he.insert (check_room hc).1 _
  | credit peer window =>
      cases hs
      exact he.retain (fun k r => !Ledger.settled (peerKey P peer) window k r)
  | deferredAck peer id application sharePresence =>
      have he := expire_fits h (l.now now)
      obtain ⟨hc,rfl⟩ := stageDeferredAck_ok hs
      cases application with
      | none => exact he
      | some application =>
          obtain ⟨known,hk⟩ := checkApplication_some (checkDeferred_ok hc).1
          exact he.insert (check_room hk).1 _
  | preparedAck key ack =>
      cases hs
      obtain hl | ⟨_,hl⟩ | ⟨receipt,hf,hl⟩ := stagePreparedAck_cases l key ack now
      · rw [hl]
        exact he
      · rw [hl]
        exact he
      · rw [hl]
        exact he.insert (.inl ⟨receipt,hf⟩) _

/-- The ledger fits its archive and guards every listed record. -/
structure Guards (P : Suite) (l : Ledger) (records : List Record) : Prop where
  fits : Fits l.entries maxReceipts
  guarded : ∀ r ∈ records, Guarded l (r.key P) (r.hash,r.horizon)

/-- The guards hold now, and held before the stage that can still be rolled back. -/
structure Faithful (P : Suite) (h : History) : Prop where
  current : Guards P h.ledger h.staged
  undone : ∀ u, h.undo = some u → Guards P (h.ledger.rollback u) h.earlier

theorem Faithful.step {P : Suite} {h : History} (hf : Faithful P h) (e : Event) :
    Faithful P (h.step P e) := by
  cases e with
  | check => exact hf
  | stage s now =>
      cases hs : h.ledger.stage P now s with
      | mk result l =>
          cases result with
          | error e =>
              have hl := stage_error P hs
              simp only [History.step,hs,hl]
              exact hf
          | ok u =>
              simp only [History.step,hs]
              refine ⟨⟨stage_fits hs hf.current.fits,?_⟩,?_⟩
              · intro r hr
                cases List.mem_append.mp hr with
                | inl hnew => exact guarded_of_record hs (by simpa using hnew)
                | inr hold =>
                    obtain ⟨hmem,hn⟩ := List.mem_filter.mp hold
                    exact (hf.current.guarded r hmem).stage hs (by simpa using hn)
              · intro v hv
                cases hv
                rw [(stage_reverts P hs).rollback_eq]
                exact hf.current
  | rollback =>
      simp only [History.step]
      cases hu : h.undo with
      | none => exact hf
      | some u => exact ⟨hf.undone u hu,by simp⟩
  | restart =>
      simp only [History.step]
      cases hd : decode (encode h.ledger) with
      | error e => exact hf
      | ok l =>
          have hsize := hf.current.fits.size
          refine ⟨⟨?_,?_⟩,by simp⟩
          · have hfacts := (decode_encode_facts hsize hd).2.2
            rw [← fits_mapValues,hfacts,fits_mapValues]
            exact hf.current.fits
          · exact fun r hr => (hf.current.guarded r hr).restart hsize hd

theorem Faithful.run {P : Suite} {h : History} (hf : Faithful P h) (events : List Event) :
    Faithful P (events.foldl (History.step P) h) := by
  induction events generalizing h with
  | nil => exact hf
  | cons e events ih => exact ih (hf.step e)

theorem start_faithful (P : Suite) : Faithful P .start :=
  ⟨⟨⟨Nat.zero_le _,fun _ => Nat.zero_le _⟩,by simp [History.start]⟩,by simp [History.start]⟩

/-- A record that was staged, was not rolled back and has not been settled by a
credit is never reported as new, whatever the clock reads. -/
theorem staged_never_new (P : Suite) (events : List Event) {r : Record}
    (hr : r ∈ (History.run P events).staged) (now : U64) :
    (History.run P events).ledger.check P r.peer r.id r.hash r.horizon now ≠ .ok false :=
  (((start_faithful P).run events).current.guarded r hr).check_ne now

/-- A record of peer `[7]`, staged at time 5 and looked up at time 3 after a
restart, a failed stage of another record having been rolled back in between. -/
def sampleRecord : Record := ⟨[7],pad 16 [1],pad 32 [2],100⟩

def sampleEvents : List Event :=
  [.stage (.data [7] (pad 16 [1]) (pad 32 [2]) 100 (pad 16 [9],4)) 5,
    .stage (.data [8] (pad 16 [1]) (pad 32 [3]) 200 (pad 16 [9],5)) 150,
    .rollback,.restart]

set_option maxRecDepth 20000 in
theorem staged_never_new_sample :
    (History.run openSuite sampleEvents).ledger.check openSuite [7] (pad 16 [1]) (pad 32 [2]) 100 3 ≠
      .ok false :=
  staged_never_new openSuite sampleEvents (r := sampleRecord) (by decide +kernel) 3

/-! ## Every reachable ledger can be stored -/

structure Sound (l : Ledger) : Prop extends Storable l where
  unowed : ∀ k r b, l.entries.find? k = some r → r.ack = some b → l.pending.find? k = none

namespace Sound
variable {l : Ledger}

theorem fits (h : Sound l) : Fits l.entries maxReceipts := ⟨h.entries_le,h.entries_peer⟩

theorem pending_fits (h : Sound l) : Fits l.pending maxPendingAcks := ⟨h.pending_le,h.pending_peer⟩

theorem expire (h : Sound l) (now : U64) : Sound (l.expire now).2 := by
  have hf := h.fits.retain (fun _ r => r.horizon > l.now now)
  have hp := h.pending_fits.retain (fun _ a => a.expires > l.now now)
  exact {
    entries_le := hf.size
    entries_peer := hf.peer
    horizon := fun k r hr => h.horizon k r (find?_expire.mp hr).1
    ack := fun k r b hr => h.ack k r b (find?_expire.mp hr).1
    legacy_le := h.legacy_le
    legacy := h.legacy
    pending_le := hp.size
    pending_peer := hp.peer
    expires := fun k a ha => h.expires k a (pending_expire.mp ha).1
    owed := by
      intro k r hr hn
      obtain ⟨hr,hlive⟩ := find?_expire.mp hr
      obtain ⟨a,ha,hx⟩ := h.owed k r hr hn
      exact ⟨a,pending_expire.mpr ⟨ha,hx ▸ hlive⟩,hx⟩
    unowed := by
      intro k r b hr hb
      have hn := h.unowed k r b (find?_expire.mp hr).1 hb
      rw [Option.eq_none_iff_forall_ne_some]
      intro a ha
      exact absurd (pending_expire.mp ha).1 (by simp [hn]) }

/-- The acknowledgement of a record is prepared: its obligation is met. -/
theorem acknowledge (h : Sound l) {k : Key} {hash : Block 32} {horizon : U64} {b : Barrier}
    (hroom : HasRoom l.entries maxReceipts k) (hz : horizon ≠ 0)
    (hb : b.1 ≠ zeroSession ∧ b.2 ≠ 0) :
    Sound { l with
      entries := l.entries.insert k ⟨hash,horizon,some b⟩
      pending := l.pending.erase k } := by
  have hf := h.fits.insert hroom ⟨hash,horizon,some b⟩
  have hp := h.pending_fits.erase k
  exact {
    entries_le := hf.size
    entries_peer := hf.peer
    horizon := by
      intro a r hr
      rw [SortedMap.find?_insert] at hr
      split at hr
      · cases hr
        exact hz
      · exact h.horizon a r hr
    ack := by
      intro a r c hr hc
      rw [SortedMap.find?_insert] at hr
      split at hr
      · cases hr
        cases hc
        exact hb
      · exact h.ack a r c hr hc
    legacy_le := h.legacy_le
    legacy := h.legacy
    pending_le := hp.size
    pending_peer := hp.peer
    expires := by
      intro a x hx
      by_cases ha : a = k
      · subst ha
        simp at hx
      · exact h.expires a x ((SortedMap.find?_erase_of_ne _ ha) ▸ hx)
    owed := by
      intro a r hr hn
      rw [SortedMap.find?_insert] at hr
      split at hr
      · cases hr
        cases hn
      next ha =>
        rw [SortedMap.find?_erase_of_ne _ ha]
        exact h.owed a r hr hn
    unowed := by
      intro a r c hr hc
      rw [SortedMap.find?_insert] at hr
      split at hr
      next ha => rw [ha,SortedMap.find?_erase_self]
      next ha =>
        rw [SortedMap.find?_erase_of_ne _ ha]
        exact h.unowed a r c hr hc }

/-- The acknowledgement of a record is deferred until the horizon of the record. -/
theorem defer (h : Sound l) {k : Key} {hash : Block 32} {horizon : U64} (sharePresence : Bool)
    (hroom : HasRoom l.entries maxReceipts k) (hpend : HasRoom l.pending maxPendingAcks k)
    (hz : horizon ≠ 0) :
    Sound { l with
      entries := l.entries.insert k ⟨hash,horizon,none⟩
      pending := l.pending.insert k ⟨horizon,sharePresence⟩ } := by
  have hf := h.fits.insert hroom ⟨hash,horizon,none⟩
  have hp := h.pending_fits.insert hpend ⟨horizon,sharePresence⟩
  exact {
    entries_le := hf.size
    entries_peer := hf.peer
    horizon := by
      intro a r hr
      rw [SortedMap.find?_insert] at hr
      split at hr
      · cases hr
        exact hz
      · exact h.horizon a r hr
    ack := by
      intro a r c hr hc
      rw [SortedMap.find?_insert] at hr
      split at hr
      · cases hr
        cases hc
      · exact h.ack a r c hr hc
    legacy_le := h.legacy_le
    legacy := h.legacy
    pending_le := hp.size
    pending_peer := hp.peer
    expires := by
      intro a x hx
      rw [SortedMap.find?_insert] at hx
      split at hx
      · cases hx
        exact hz
      · exact h.expires a x hx
    owed := by
      intro a r hr hn
      rw [SortedMap.find?_insert] at hr ⊢
      split at hr
      next ha =>
        cases hr
        exact ⟨⟨horizon,sharePresence⟩,by simp [ha],rfl⟩
      next ha =>
        simp only [ha,if_false]
        exact h.owed a r hr hn
    unowed := by
      intro a r c hr hc
      rw [SortedMap.find?_insert] at hr ⊢
      split at hr
      · cases hr
        cases hc
      next ha =>
        simp only [ha,if_false]
        exact h.unowed a r c hr hc }

/-- An obligation of its own, without a receipt. -/
theorem oblige (h : Sound l) {k : Key} {a : PendingAck} (hn : l.entries.find? k = none)
    (hpend : HasRoom l.pending maxPendingAcks k) (hz : a.expires ≠ 0) :
    Sound { l with pending := l.pending.insert k a } := by
  have hp := h.pending_fits.insert hpend a
  have hne : ∀ c r, l.entries.find? c = some r → c ≠ k := by
    rintro c r hr rfl
    simp [hn] at hr
  exact { h with
    pending_le := hp.size
    pending_peer := hp.peer
    expires := by
      intro c x hx
      rw [SortedMap.find?_insert] at hx
      split at hx
      · cases hx
        exact hz
      · exact h.expires c x hx
    owed := by
      intro c r hr hc
      rw [SortedMap.find?_insert_of_ne _ _ (hne c r hr)]
      exact h.owed c r hr hc
    unowed := by
      intro c r b hr hb
      rw [SortedMap.find?_insert_of_ne _ _ (hne c r hr)]
      exact h.unowed c r b hr hb }

theorem forget (h : Sound l) {k : Key} (hn : l.entries.find? k = none) :
    Sound { l with pending := l.pending.erase k } := by
  have hp := h.pending_fits.erase k
  have hne : ∀ c r, l.entries.find? c = some r → c ≠ k := by
    rintro c r hr rfl
    simp [hn] at hr
  exact { h with
    pending_le := hp.size
    pending_peer := hp.peer
    expires := by
      intro c x hx
      by_cases hc : c = k
      · subst hc
        simp at hx
      · exact h.expires c x ((SortedMap.find?_erase_of_ne _ hc) ▸ hx)
    owed := by
      intro c r hr hc
      rw [SortedMap.find?_erase_of_ne _ (hne c r hr)]
      exact h.owed c r hr hc
    unowed := by
      intro c r b hr hb
      rw [SortedMap.find?_erase_of_ne _ (hne c r hr)]
      exact h.unowed c r b hr hb }

/-- Receipts and a legacy barrier are let go. -/
theorem release (h : Sound l) (p : Key → Receipt → Bool) (peer : Block 32) (window : Window) :
    Sound { l with
      entries := l.entries.retain p
      legacy := (Ledger.releaseLegacy l.legacy peer window).2 } := by
  have hf := h.fits.retain p
  have hsub : ∀ k r, (l.entries.retain p).find? k = some r → l.entries.find? k = some r := by
    intro k r hr
    rw [SortedMap.find?_retain] at hr
    exact (Option.filter_eq_some_iff.mp hr).1
  have hlegacy : (Ledger.releaseLegacy l.legacy peer window).2 = l.legacy ∨
      (Ledger.releaseLegacy l.legacy peer window).2 = l.legacy.erase peer := by
    simp only [Ledger.releaseLegacy]
    split
    · exact .inl rfl
    · split_ifs
      · exact .inr rfl
      · exact .inl rfl
  have hfind : ∀ a b, (Ledger.releaseLegacy l.legacy peer window).2.find? a = some b →
      l.legacy.find? a = some b := by
    intro a b hb
    cases hlegacy with
    | inl heq => rwa [heq] at hb
    | inr heq =>
        rw [heq,SortedMap.erase,SortedMap.find?_retain] at hb
        exact (Option.filter_eq_some_iff.mp hb).1
  have hsize : (Ledger.releaseLegacy l.legacy peer window).2.size ≤ l.legacy.size := by
    cases hlegacy with
    | inl heq => rw [heq]
    | inr heq =>
        rw [heq]
        exact List.length_filter_le _ _
  exact { h with
    entries_le := hf.size
    entries_peer := hf.peer
    horizon := fun k r hr => h.horizon k r (hsub k r hr)
    ack := fun k r b hr => h.ack k r b (hsub k r hr)
    legacy_le := hsize.trans h.legacy_le
    legacy := fun a b hb => h.legacy a b (hfind a b hb)
    owed := fun k r hr => h.owed k r (hsub k r hr)
    unowed := fun k r b hr => h.unowed k r b (hsub k r hr) }

end Sound

/-- A barrier names a session and a counter. -/
def Named (b : Barrier) : Prop := b.1 ≠ zeroSession ∧ b.2 ≠ 0

/-- The barriers of a stage name a session and a counter. -/
def NamesBarrier : Stage → Prop
  | .data _ _ _ _ ack => Named ack
  | .credit _ _ => True
  | .deferredAck _ _ _ _ => True
  | .preparedAck _ ack => Named ack

theorem ne_zero_of_lt {a b : U64} (h : a < b) : b ≠ 0 :=
  (lt_of_le_of_lt (Fin.zero_le a) h).ne'

theorem deferredExpiry_ne_zero {pending : SortedMap Key PendingAck} {key : Key} {now : U64}
    (h : ∀ a, pending.find? key = some a → a.expires ≠ 0) :
    Ledger.deferredExpiry pending key none now ≠ 0 := by
  have hten : saturatingAdd now 600 ≠ 0 := by
    intro h0
    have hv := congrArg Fin.val h0
    simp only [saturatingAdd,Fin.val_zero] at hv
    omega
  simp only [Ledger.deferredExpiry,Option.map_none,Option.getD_none]
  split
  · exact hten
  next old hold =>
    rcases min_choice (saturatingAdd now 600) old.expires with hm | hm
    · rw [hm]
      exact hten
    · rw [hm]
      exact h old hold

/-- The obligation of a record ends at the horizon of the record. -/
theorem deferredExpiry_eq {P : Suite} {l : Ledger} (h : Sound l) {peer : Bytes} {id : Block 16}
    {hash : Block 32} {horizon now : U64}
    (hc : l.checkDeferred P peer id (some (hash,horizon)) (l.now now) = .ok ()) :
    Ledger.deferredExpiry (l.expire (l.now now)).2.pending (keyOf P peer id)
      (some (hash,horizon)) (l.now now) = horizon := by
  obtain ⟨happ,_,hpair,_⟩ := checkDeferred_ok hc
  obtain ⟨known,hk⟩ := checkApplication_some happ
  simp only [Ledger.deferredExpiry,Option.map_some,Option.getD_some]
  split
  · rfl
  next old hold =>
    obtain ⟨hold,hlive⟩ := pending_expire.mp hold
    rw [now_now] at hlive
    obtain ⟨r,hr⟩ := hpair (by simp) old hold hlive
    have hfacts : r.horizon = horizon := congrArg Prod.snd ((check_ok hk).2.1 r hr)
    cases ha : r.ack with
    | some b =>
        have hn := h.unowed _ r b hr ha
        simp [hn] at hold
    | none =>
        obtain ⟨a,hp,hx⟩ := h.owed _ r hr ha
        cases hold.symm.trans hp
        rw [hx,hfacts,min_self]

theorem pending_room {P : Suite} {l : Ledger} {peer : Bytes} {id : Block 16}
    {application : Option (Block 32 × U64)} {now : U64}
    (hc : l.checkDeferred P peer id application (l.now now) = .ok ()) :
    HasRoom (l.expire (l.now now)).2.pending maxPendingAcks (keyOf P peer id) := by
  have hlive : (l.expire (l.now now)).2.pending.entries =
      l.pending.entries.filter (fun e => e.2.expires > l.now now) := by
    simp [Ledger.expire,SortedMap.retain,now_now]
  obtain ⟨_,_,_,hroom⟩ := checkDeferred_ok hc
  cases hroom with
  | inl hex =>
      obtain ⟨a,ha,hlt⟩ := hex
      exact .inl ⟨a,pending_expire.mpr ⟨ha,by rwa [now_now]⟩⟩
  | inr hlt =>
      right
      simp only [SortedMap.size,hlive]
      exact hlt

theorem Sound.stage {P : Suite} {l l' : Ledger} (h : Sound l) {now : U64} {s : Stage} {u : Undo}
    (hb : NamesBarrier s) (hs : l.stage P now s = (.ok u,l')) : Sound l' := by
  cases s with
  | data peer id hash horizon ack =>
      obtain ⟨⟨known,hc⟩,rfl⟩ := stageData_ok hs
      exact (h.expire now).acknowledge (check_room hc).1 (ne_zero_of_lt (check_ok hc).1) hb
  | credit peer window =>
      cases hs
      exact (h.expire now).release (fun k r => !Ledger.settled (peerKey P peer) window k r) _ _
  | deferredAck peer id application sharePresence =>
      have he := h.expire (l.now now)
      obtain ⟨hc,rfl⟩ := stageDeferredAck_ok hs
      have hpend := pending_room hc
      cases application with
      | none =>
          have hnone : (l.expire (l.now now)).2.entries.find? (keyOf P peer id) = none := by
            rw [Option.eq_none_iff_forall_ne_some]
            intro r hr
            obtain ⟨hr,hlive⟩ := find?_expire.mp hr
            rw [now_now] at hlive
            exact absurd ((checkDeferred_ok hc).2.1 rfl r hr) (not_le.mpr hlive)
          exact he.oblige hnone hpend (deferredExpiry_ne_zero (he.expires _))
      | some application =>
          obtain ⟨hash,horizon⟩ := application
          obtain ⟨known,hk⟩ := checkApplication_some (checkDeferred_ok hc).1
          have hx := deferredExpiry_eq h hc
          simp only [hx]
          exact he.defer sharePresence (check_room hk).1 hpend (ne_zero_of_lt (check_ok hk).1)
  | preparedAck key ack =>
      cases hs
      have he := h.expire now
      obtain hl | ⟨hn,hl⟩ | ⟨receipt,hf,hl⟩ := stagePreparedAck_cases l key ack now
      · rw [hl]
        exact he
      · rw [hl]
        exact he.forget hn
      · rw [hl]
        exact he.acknowledge (.inl ⟨receipt,hf⟩) (he.horizon key receipt hf) hb

/-- Sound now, and before the stage that can still be rolled back. -/
structure Settled (h : History) : Prop where
  current : Sound h.ledger
  undone : ∀ u, h.undo = some u → Sound (h.ledger.rollback u)

/-- The barriers that an event brings in name a session and a counter. -/
def Event.NamesBarrier : Event → Prop
  | .stage s _ => ReceiptHistory.NamesBarrier s
  | _ => True

theorem Settled.step {P : Suite} {h : History} (hf : Settled h) {e : Event}
    (he : e.NamesBarrier) : Settled (h.step P e) := by
  cases e with
  | check => exact hf
  | stage s now =>
      cases hs : h.ledger.stage P now s with
      | mk result l =>
          cases result with
          | error e =>
              have hl := stage_error P hs
              simp only [History.step,hs,hl]
              exact hf
          | ok u =>
              simp only [History.step,hs]
              refine ⟨hf.current.stage he hs,?_⟩
              intro v hv
              cases hv
              rw [(stage_reverts P hs).rollback_eq]
              exact hf.current
  | rollback =>
      simp only [History.step]
      cases hu : h.undo with
      | none => exact hf
      | some u => exact ⟨hf.undone u hu,by simp⟩
  | restart =>
      simp only [History.step,decode_encode hf.current.toStorable]
      exact ⟨hf.current,by simp⟩

theorem Settled.run {P : Suite} {h : History} (hf : Settled h) (events : List Event)
    (hb : ∀ e ∈ events, e.NamesBarrier) : Settled (events.foldl (History.step P) h) := by
  induction events generalizing h with
  | nil => exact hf
  | cons e events ih =>
      apply ih
      · exact hf.step (hb e List.mem_cons_self)
      · exact fun d hd => hb d (List.mem_cons_of_mem e hd)

theorem empty_sound : Sound .empty := by
  have he : ∀ k, Ledger.empty.entries.find? k = none := fun _ => rfl
  have hl : ∀ k, Ledger.empty.legacy.find? k = none := fun _ => rfl
  have hp : ∀ k, Ledger.empty.pending.find? k = none := fun _ => rfl
  exact {
    entries_le := Nat.zero_le _
    entries_peer := fun _ => Nat.zero_le _
    horizon := by simp [he]
    ack := by simp [he]
    legacy_le := Nat.zero_le _
    legacy := by simp [hl]
    pending_le := Nat.zero_le _
    pending_peer := fun _ => Nat.zero_le _
    expires := by simp [hp]
    owed := by simp [he]
    unowed := by simp [he] }

theorem start_settled : Settled .start := ⟨empty_sound,by simp [History.start]⟩

/-- Every ledger that a history reaches loads from its own archive unchanged and
keeps the bounds of the archive. -/
theorem reached_ledger_reloads (P : Suite) (events : List Event)
    (hb : ∀ e ∈ events, e.NamesBarrier) :
    let l := (History.run P events).ledger
    decode (encode l) = .ok l ∧
      l.entries.size ≤ maxReceipts ∧
      (∀ peer, (ofPeer peer l.entries.entries).length ≤ maxPerPeer) ∧
      l.pending.size ≤ maxPendingAcks ∧
      (∀ peer, (ofPeer peer l.pending.entries).length ≤ maxPerPeer) ∧
      (∀ k r, l.entries.find? k = some r → r.ack = none →
        ∃ a, l.pending.find? k = some a ∧ a.expires = r.horizon) ∧
      (∀ k r b, l.entries.find? k = some r → r.ack = some b → l.pending.find? k = none) ∧
      l.entries.size < 2^16 ∧ l.legacy.size < 2^16 ∧ l.pending.size < 2^16 ∧
      (encode l).length ≤ maxEncoded := by
  have h := (start_settled.run (P := P) events hb).current
  refine ⟨decode_encode h.toStorable,h.entries_le,h.entries_peer,h.pending_le,h.pending_peer,
    h.owed,h.unowed,?_,?_,?_,h.encode_length_le⟩
  · exact h.entries_le.trans_lt (by decide)
  · exact h.legacy_le.trans_lt (by decide)
  · exact h.pending_le.trans_lt (by decide)

theorem reached_ledger_reloads_sample :
    let l := (History.run openSuite sampleEvents).ledger
    decode (encode l) = .ok l :=
  (reached_ledger_reloads openSuite sampleEvents (by
    simp only [sampleEvents,List.mem_cons,List.not_mem_nil,or_false]
    rintro e (rfl | rfl | rfl | rfl)
    · exact ⟨by decide,by decide⟩
    · exact ⟨by decide,by decide⟩
    · trivial
    · trivial)).1

end Gcoms.ReceiptHistory
