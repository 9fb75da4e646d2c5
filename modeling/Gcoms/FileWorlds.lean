import Gcoms.FileRecovery

/-!
# The receiver as a whole

While the receiver runs, every transfer it knows agrees with its slot, the other
slots belong to nobody, and the reserved bytes are those of the known transfers.
What is stored after an interrupted call is weaker: every entry that a crash may
leave is sound and stands at no lower offset than before. One lemma follows each
call of the receiver through all its outcomes.
-/
namespace Gcoms.FileWorlds
open ByteCodec Primitives Fallible Commands SortedMaps Writeback FileRecords FileReceiver FileSlots
open FileTransfers FileRecovery

variable {cfg : Config} {tidy calm : Prop} {w : World} {id : TransferId}

/-! ## Slots of the receiver -/

theorem slot_insert (w : World) (slots : SortedMap TransferId Slot) (slot : Slot)
    (hs : slots = w.slots.insert id slot) (a : TransferId) :
    (slots.find? a).getD Slot.blank = if a = id then slot else w.slot a := by
  subst hs
  rw [SortedMap.find?_insert]
  split_ifs
  · rfl
  · rfl

/-- The receiver after an operation on one of its transfers. -/
def put (w : World) (id : TransferId) (d : Desk) : World :=
  {w.stow id d with transfers := w.transfers.insert id d.transfer}

theorem slot_stow (w : World) (id : TransferId) (d : Desk) (a : TransferId) :
    (w.stow id d).slot a = if a = id then d.slot else w.slot a :=
  slot_insert w _ _ rfl a

theorem slot_put (w : World) (id : TransferId) (d : Desk) (a : TransferId) :
    (put w id d).slot a = if a = id then d.slot else w.slot a :=
  slot_insert w _ _ rfl a

theorem find?_put (w : World) (id : TransferId) (d : Desk) (a : TransferId) :
    (put w id d).transfers.find? a = if a = id then some d.transfer else w.transfers.find? a := by
  have h := SortedMap.find?_insert w.transfers id a d.transfer
  by_cases ha : a = id
  · rw [if_pos ha] at h ⊢
    exact h
  · rw [if_neg ha] at h ⊢
    exact h

theorem onTransfer_leads {α : Type} {x : Op α} {t : ActiveTransfer} {Q : α → World → Prop}
    {E : ReceiverError → World → Prop} (hf : w.transfers.find? id = some t)
    (h : Leads x (w.desk id t) (fun a d => Q a (put w id d)) (fun e d => E e (put w id d))) :
    Leads (onTransfer id x) w Q E := by
  unfold Leads onTransfer at *
  rw [hf]
  dsimp only
  cases hx : x (w.desk id t) with
  | mk r d =>
      rw [hx] at h
      cases r with
      | error e => exact h
      | ok a => exact h

theorem onTransfer_unknown {α : Type} {x : Op α} {Q : α → World → Prop}
    {E : ReceiverError → World → Prop} (hf : w.transfers.find? id = none)
    (h : E .authorization w) : Leads (onTransfer id x) w Q E := by
  unfold Leads onTransfer
  rw [hf]
  exact h

theorem onSlot_leads {x : Op Unit} {t : ActiveTransfer} {Q : ActiveTransfer → World → Prop}
    {E : ReceiverError → World → Prop}
    (h : Leads x (w.desk id t) (fun _ d => Q d.transfer (w.stow id d))
      (fun e d => E e (w.stow id d))) : Leads (onSlot id t x) w Q E := by
  unfold Leads onSlot at *
  cases hx : x (w.desk id t) with
  | mk r d =>
      rw [hx] at h
      cases r with
      | error e => exact h
      | ok a => exact h

/-! ## Invariants -/

/-- The size a slot may be found to reserve. -/
def weight (slot : Slot) : ℕ :=
  slot.entry.possible.toFinset.sup fun e => e.elim 0 (·.fileSize)

theorem weight_le {slot : Slot} {n : ℕ}
    (h : ∀ s, some s ∈ slot.entry.possible → s.fileSize ≤ n) : weight slot ≤ n := by
  refine Finset.sup_le (fun e he => ?_)
  cases e with
  | none => exact Nat.zero_le _
  | some s => exact h s (List.mem_toFinset.mp he)

theorem le_weight {slot : Slot} {s : TransferState} (h : some s ∈ slot.entry.possible) :
    s.fileSize ≤ weight slot :=
  Finset.le_sup (f := fun e : Option TransferState => e.elim 0 (·.fileSize))
    (List.mem_toFinset.mpr h)

/-- The state of a transfer that an authorized `FileInit` has started. -/
def Origin (S : Suite) (a : Start) (s : TransferState) : Prop :=
  a.init.validateAuthorization S a.contact a.now = .ok () ∧
    ∃ hash batch, initHash S a.init = .ok hash ∧ terms s = terms (.new S hash batch a.init)

theorem Origin.of_terms {S : Suite} {a : Start} {s s' : TransferState} (h : Origin S a s)
    (ht : terms s' = terms s) : Origin S a s' := by
  obtain ⟨hauth,hash,batch,hhash,hterms⟩ := h
  exact ⟨hauth,hash,batch,hhash,ht.trans hterms⟩

/-- What is stored is sound, fits the quota and covers what was acknowledged. -/
structure Stored (cfg : Config) (tidy : Prop) (w : World) : Prop where
  sound : ∀ id, Sound cfg.suite tidy (w.slot id)
  ids : ∀ {id s}, some s ∈ (w.slot id).entry.possible → s.transferId = id
  quota : w.slots.sumBy weight ≤ cfg.diskQuota
  range : w.slots.sumBy weight < 2^64
  acked : ∀ {id n}, w.acked id = some n → ∀ e ∈ (w.slot id).entry.possible,
    (∃ s, e = some s ∧ n ≤ s.committedOffset) ∨ (e = none ∧ id ∈ w.abandoned)
  origin : ∀ {id s}, some s ∈ (w.slot id).entry.possible →
    ∃ a ∈ w.authorized, Origin cfg.suite a s

/-- A running receiver. Under `calm` the journal refuses none of its states. -/
structure Live (cfg : Config) (tidy calm : Prop) (w : World) : Prop where
  good : ∀ {id t}, w.transfers.find? id = some t →
    Good cfg.suite tidy (w.slot id) t ∧ t.state.transferId = id
  vacant : ∀ {id}, w.transfers.find? id = none → Vacant (w.slot id)
  reserved : w.reservedBytes = w.transfers.sumBy (·.state.fileSize)
  quota : w.reservedBytes ≤ cfg.diskQuota
  range : w.reservedBytes < 2^64
  gone : ∀ {id t}, w.transfers.find? id = some t → none ∈ (w.slot id).entry.possible →
    id ∈ w.abandoned
  acked : ∀ {id n}, w.acked id = some n →
    (∃ t, w.transfers.find? id = some t ∧ n ≤ t.state.committedOffset) ∨
    (w.transfers.find? id = none ∧ id ∈ w.abandoned)
  origin : ∀ {id t}, w.transfers.find? id = some t → ∃ a ∈ w.authorized, Origin cfg.suite a t.state
  quiet : calm → ∀ {id t}, w.transfers.find? id = some t → Quiet t.state

/-- A sum over the slots is bounded by the sizes of the transfers that may be found. -/
theorem sumBy_weight_le {slots : SortedMap TransferId Slot}
    {transfers : SortedMap TransferId ActiveTransfer}
    (h : ∀ id slot s, slots.find? id = some slot → some s ∈ slot.entry.possible →
      ∃ t, transfers.find? id = some t ∧ s.fileSize = t.state.fileSize) :
    slots.sumBy weight ≤ transfers.sumBy (·.state.fileSize) := by
  refine SortedMap.sumBy_le_sumBy (fun id slot hslot hw => ?_)
  have hmem : ∃ s, some s ∈ slot.entry.possible := by
    by_contra hno
    refine hw (Nat.le_zero.mp (weight_le (fun s hs => ?_)))
    exact absurd ⟨s,hs⟩ hno
  obtain ⟨s,hs⟩ := hmem
  obtain ⟨t,ht,-⟩ := h id slot s hslot hs
  refine ⟨t,ht,weight_le (fun s' hs' => ?_)⟩
  obtain ⟨t',ht',hsize⟩ := h id slot s' hslot hs'
  rw [ht] at ht'
  cases ht'
  exact hsize.le

theorem slot_of_find? {slot : Slot} (h : w.slots.find? id = some slot) : w.slot id = slot := by
  rw [World.slot,h]
  rfl

theorem transferId_of_terms {s s' : TransferState} (h : terms s = terms s') :
    s.transferId = s'.transferId := by
  have := congrArg TransferState.transferId h
  exact this

/-- Storage in which every entry belongs to a transfer of the given map. -/
theorem stored_of {transfers : SortedMap TransferId ActiveTransfer}
    (hsound : ∀ id, Sound cfg.suite tidy (w.slot id))
    (hentries : ∀ id s, some s ∈ (w.slot id).entry.possible →
      ∃ t, transfers.find? id = some t ∧ t.state.transferId = id ∧ terms s = terms t.state ∧
        ∃ a ∈ w.authorized, Origin cfg.suite a t.state)
    (hquota : transfers.sumBy (·.state.fileSize) ≤ cfg.diskQuota)
    (hrange : transfers.sumBy (·.state.fileSize) < 2^64)
    (hacked : ∀ id n, w.acked id = some n → ∀ e ∈ (w.slot id).entry.possible,
      (∃ s, e = some s ∧ n ≤ s.committedOffset) ∨ (e = none ∧ id ∈ w.abandoned)) :
    Stored cfg tidy w := by
  have hsum : w.slots.sumBy weight ≤ transfers.sumBy (·.state.fileSize) := by
    refine sumBy_weight_le (fun id slot s hslot hs => ?_)
    rw [← slot_of_find? hslot] at hs
    obtain ⟨t,ht,-,hterms,-⟩ := hentries id s hs
    exact ⟨t,ht,terms_fileSize hterms⟩
  refine ⟨hsound,fun {id s} hs => ?_,hsum.trans hquota,hsum.trans_lt hrange,
    fun {id n} => hacked id n,fun {id s} hs => ?_⟩
  · obtain ⟨t,-,ht,hterms,-⟩ := hentries id s hs
    rw [transferId_of_terms hterms,ht]
  · obtain ⟨t,-,-,hterms,a,ha,horigin⟩ := hentries id s hs
    exact ⟨a,ha,horigin.of_terms hterms⟩

theorem Live.entry (h : Live cfg tidy calm w) {s : TransferState}
    (hs : some s ∈ (w.slot id).entry.possible) :
    ∃ t, w.transfers.find? id = some t ∧ t.state.transferId = id ∧ terms s = terms t.state ∧
      s.committedOffset = t.state.committedOffset := by
  cases hf : w.transfers.find? id with
  | none => cases (h.vacant hf).entry _ hs
  | some t =>
      obtain ⟨hgood,hid⟩ := h.good hf
      exact ⟨t,rfl,hid,hgood.agrees s hs⟩

/-- One slot of a running receiver is replaced: entries at no lower offset. -/
theorem Live.stored_slot (h : Live cfg tidy calm w) {w' : World} {t : ActiveTransfer} {slot : Slot}
    (hf : w.transfers.find? id = some t) (hslots : w'.slots = w.slots.insert id slot)
    (hacked : w'.acked = w.acked) (habandoned : w'.abandoned = w.abandoned)
    (hauthorized : w'.authorized = w.authorized) (hsound : Sound cfg.suite tidy slot)
    (hentries : ∀ e ∈ slot.entry.possible,
      (e = none ∧ (none ∈ (w.slot id).entry.possible ∨ id ∈ w.abandoned)) ∨
      ∃ s, e = some s ∧ terms s = terms t.state ∧ t.state.committedOffset ≤ s.committedOffset) :
    Stored cfg tidy w' := by
  have hslot : ∀ a, w'.slot a = if a = id then slot else w.slot a := slot_insert w _ _ hslots
  refine @stored_of _ _ _ w.transfers (fun a => ?_) (fun a s hs => ?_) (h.reserved ▸ h.quota)
    (h.reserved ▸ h.range) (fun a n hn e he => ?_)
  · rw [hslot]
    split_ifs
    · exact hsound
    · cases hfa : w.transfers.find? a with
      | none => exact (h.vacant hfa).sound
      | some ta => exact (h.good hfa).1.sound
  · rw [hslot] at hs
    split_ifs at hs with ha
    · subst ha
      rcases hentries _ hs with ⟨hnone,-⟩ | ⟨s',heq,hterms,-⟩
      · cases hnone
      · cases heq
        rw [hauthorized]
        exact ⟨t,hf,(h.good hf).2,hterms,h.origin hf⟩
    · obtain ⟨ta,hta,hid,hterms,-⟩ := h.entry hs
      rw [hauthorized]
      exact ⟨ta,hta,hid,hterms,h.origin hta⟩
  · rw [hacked] at hn
    rw [habandoned]
    rw [hslot] at he
    have hold := h.acked hn
    split_ifs at he with ha
    · subst ha
      rw [hf] at hold
      obtain ⟨t',heq,hle⟩ := hold.resolve_right (fun hno => by cases hno.1)
      cases heq
      rcases hentries e he with ⟨rfl,hnone⟩ | ⟨s,rfl,-,hs⟩
      · exact .inr ⟨rfl,hnone.elim (h.gone hf) id⟩
      · exact .inl ⟨s,rfl,hle.trans hs⟩
    · cases e with
      | none =>
          rcases hold with ⟨_,hta,-⟩ | ⟨-,hgone⟩
          · exact .inr ⟨rfl,h.gone hta he⟩
          · exact .inr ⟨rfl,hgone⟩
      | some s =>
          obtain ⟨ta,hta,-,-,hoffset⟩ := h.entry he
          rw [hta] at hold
          obtain ⟨t',heq,hle⟩ := hold.resolve_right (fun hno => by cases hno.1)
          cases heq
          exact .inl ⟨s,rfl,hoffset ▸ hle⟩

theorem Live.stored (h : Live cfg tidy calm w) : Stored cfg tidy w := by
  refine @stored_of _ _ _ w.transfers (fun a => ?_) (fun a s hs => ?_) (h.reserved ▸ h.quota)
    (h.reserved ▸ h.range) (fun a n hn e he => ?_)
  · cases hfa : w.transfers.find? a with
    | none => exact (h.vacant hfa).sound
    | some ta => exact (h.good hfa).1.sound
  · obtain ⟨ta,hta,hid,hterms,-⟩ := h.entry hs
    exact ⟨ta,hta,hid,hterms,h.origin hta⟩
  · rcases h.acked hn with ⟨t,ht,hle⟩ | ⟨hf,hgone⟩
    · cases e with
      | none => exact .inr ⟨rfl,h.gone ht he⟩
      | some s =>
          refine .inl ⟨s,rfl,?_⟩
          rw [((h.good ht).1.agrees s he).2]
          exact hle
    · exact .inr ⟨(h.vacant hf).entry e he,hgone⟩

/-- One transfer moves on. -/
theorem Live.moved (h : Live cfg tidy calm w) {t : ActiveTransfer} {d : Desk}
    (hf : w.transfers.find? id = some t) (hgood : Good cfg.suite tidy d.slot d.transfer)
    (hterms : terms d.transfer.state = terms t.state)
    (hoffset : t.state.committedOffset ≤ d.transfer.state.committedOffset)
    (hpresent : none ∈ d.slot.entry.possible →
      none ∈ (w.slot id).entry.possible ∨ id ∈ w.abandoned)
    (hquiet : calm → Quiet d.transfer.state) : Live cfg tidy calm (put w id d) := by
  have hsum : (put w id d).transfers.sumBy (·.state.fileSize) =
      w.transfers.sumBy (·.state.fileSize) := by
    rw [SortedMap.sumBy_of_find? hf]
    refine (SortedMap.sumBy_insert _ _ _ _).trans ?_
    rw [terms_fileSize hterms]
  refine ⟨fun {a ta} ha => ?_,fun {a} ha => ?_,h.reserved.trans hsum.symm,h.quota,h.range,
    fun {a ta} ha hn => ?_,fun {a n} hn => ?_,fun {a ta} ha => ?_,fun hc {a ta} ha => ?_⟩
  · rw [find?_put] at ha
    rw [slot_put]
    split_ifs at ha ⊢ with heq
    · cases ha
      subst heq
      exact ⟨hgood,(transferId_of_terms hterms).trans (h.good hf).2⟩
    · exact h.good ha
  · rw [find?_put] at ha
    rw [slot_put]
    split_ifs at ha ⊢
    exact h.vacant ha
  · rw [find?_put] at ha
    rw [slot_put] at hn
    split_ifs at ha hn with heq
    · subst heq
      exact (hpresent hn).elim (h.gone hf) id
    · exact h.gone ha hn
  · rw [find?_put]
    have hold := h.acked hn
    split_ifs with heq
    · subst heq
      rw [hf] at hold
      obtain ⟨t',ht',hle⟩ := hold.resolve_right (fun hno => by cases hno.1)
      cases ht'
      exact .inl ⟨_,rfl,hle.trans hoffset⟩
    · exact hold
  · rw [find?_put] at ha
    split_ifs at ha
    · cases ha
      obtain ⟨a,ha,horigin⟩ := h.origin hf
      exact ⟨a,ha,horigin.of_terms hterms⟩
    · exact h.origin ha
  · rw [find?_put] at ha
    split_ifs at ha
    · cases ha
      exact hquiet hc
    · exact h.quiet hc ha

/-! ## Outcomes of a call -/

/-- The committed part of a transfer is kept, or a chunk that starts at its end is
appended. -/
def Extends (c : Call) (id : TransferId) (n : ℕ) (bytes : Bytes) (n' : ℕ) (bytes' : Bytes) : Prop :=
  (n' = n ∧ bytes'.take n = bytes.take n) ∨
    ∃ chunk now, c = .process (.chunk chunk) now ∧ chunk.transferId = id ∧ chunk.offset = n ∧
      n' = n+chunk.data.length ∧ bytes'.take n' = bytes.take n++chunk.data

/-- Entries passed to the journal by a call are valid. -/
def Offered (w w' : World) : Prop := ∀ s ∈ w'.offered, s ∈ w.offered ∨ s.validate = .ok ()

/-- What a call that was completed has done. -/
structure Done (cfg : Config) (tidy calm : Prop) (c : Call) (w : World) (r : Option FileAck)
    (w' : World) : Prop where
  live : Live cfg tidy calm w'
  offers : calm → Offered w w'
  grown : ∀ {id t}, w.transfers.find? id = some t →
    (∃ t', w'.transfers.find? id = some t' ∧ terms t'.state = terms t.state ∧
      Extends c id t.state.committedOffset (w.slot id).content.bytes t'.state.committedOffset
        (w'.slot id).content.bytes) ∨ (c = .release id ∧ w'.transfers.find? id = none)
  acked : ∀ a ∈ r, ∃ t', w'.transfers.find? a.transferId = some t' ∧
    a.receivedSize = t'.state.committedOffset

/-- What a call that was interrupted has left in the storage. -/
structure Broken (cfg : Config) (tidy calm : Prop) (c : Call) (w w' : World) : Prop where
  stored : Stored cfg tidy w'
  offers : calm → Offered w w'
  traces : ∀ {id t s}, w.transfers.find? id = some t → some s ∈ (w'.slot id).entry.possible →
    terms s = terms t.state ∧ Extends c id t.state.committedOffset (w.slot id).content.bytes
      s.committedOffset (w'.slot id).content.bytes

theorem Done.broken {c : Call} {r : Option FileAck} {w' : World} (h : Done cfg tidy calm c w r w') :
    Broken cfg tidy calm c w w' := by
  refine ⟨h.live.stored,h.offers,fun {id t s} ht hs => ?_⟩
  obtain ⟨t',ht',-,hterms,hoffset⟩ := h.live.entry hs
  rcases h.grown ht with ⟨t'',ht'',hterms',hext⟩ | ⟨-,hgone⟩
  · rw [ht'] at ht''
    cases ht''
    rw [hoffset]
    exact ⟨hterms.trans hterms',hext⟩
  · rw [ht'] at hgone
    cases hgone

/-- A call that leaves transfers and slots alone. -/
theorem Live.still (h : Live cfg tidy calm w) {c : Call} {r : Option FileAck} {w' : World}
    (hslots : w'.slots = w.slots) (ht : w'.transfers = w.transfers)
    (hreserved : w'.reservedBytes = w.reservedBytes) (hacked : w'.acked = w.acked)
    (habandoned : w.abandoned ⊆ w'.abandoned) (hauthorized : w'.authorized = w.authorized)
    (hoffered : w'.offered = w.offered)
    (hr : ∀ a ∈ r, ∃ t, w.transfers.find? a.transferId = some t ∧
      a.receivedSize = t.state.committedOffset) : Done cfg tidy calm c w r w' := by
  have hslot : ∀ a, w'.slot a = w.slot a := fun a => by rw [World.slot,hslots]; rfl
  refine ⟨⟨fun {a ta} ha => ?_,fun {a} ha => ?_,?_,?_,?_,fun {a ta} ha hn => ?_,
    fun {a n} hn => ?_,fun {a ta} ha => hauthorized ▸ h.origin (ht ▸ ha),
    fun hc {a ta} ha => h.quiet hc (ht ▸ ha)⟩,fun _ s hs => .inl (hoffered ▸ hs),fun {a ta} ha => .inl ⟨ta,?_,rfl,.inl ⟨rfl,?_⟩⟩,?_⟩
  · rw [hslot]
    exact h.good (ht ▸ ha)
  · rw [hslot]
    exact h.vacant (ht ▸ ha)
  · rw [hreserved,ht]
    exact h.reserved
  · rw [hreserved]
    exact h.quota
  · rw [hreserved]
    exact h.range
  · rw [hslot] at hn
    exact habandoned (h.gone (ht ▸ ha) hn)
  · rw [ht]
    rw [hacked] at hn
    exact (h.acked hn).imp id (fun hgone => ⟨hgone.1,habandoned hgone.2⟩)
  · rw [ht]
    exact ha
  · rw [hslot]
  · rw [ht]
    exact hr

/-! ## Calls on one transfer -/

section Transfer
variable {t : ActiveTransfer} {c : Call} {d : Desk}

/-- An operation has kept the transfer where it was. -/
theorem Live.done_steady (h : Live cfg tidy calm w) (hf : w.transfers.find? id = some t)
    {r : Option FileAck} (hs : Steady calm (w.desk id t) d)
    (hgood : Good cfg.suite tidy d.slot d.transfer)
    (hpresent : none ∈ d.slot.entry.possible →
      none ∈ (w.slot id).entry.possible ∨ id ∈ w.abandoned)
    (hr : ∀ a ∈ r, Reports d a) : Done cfg tidy calm c w r (put w id d) := by
  have hid := (h.good hf).2
  refine ⟨h.moved hf hgood hs.terms hs.offset.ge hpresent hs.quiet,hs.offers,
    fun {a ta} hta => ?_,fun a har => ?_⟩
  · rw [find?_put,slot_put]
    split_ifs with heq
    · subst heq
      rw [hf] at hta
      cases hta
      exact .inl ⟨_,rfl,hs.terms,.inl ⟨hs.offset,hs.bytes⟩⟩
    · exact .inl ⟨ta,hta,rfl,.inl ⟨rfl,rfl⟩⟩
  · obtain ⟨hsize,hta⟩ := hr a har
    refine ⟨d.transfer,?_,hsize⟩
    rw [find?_put,if_pos (hta.trans ((transferId_of_terms hs.terms).trans hid))]

theorem Live.done_after (h : Live cfg tidy calm w) (hf : w.transfers.find? id = some t)
    {r : Option FileAck} (ha : After cfg.suite tidy calm (w.desk id t) d)
    (hr : ∀ a ∈ r, Reports d a) : Done cfg tidy calm c w r (put w id d) :=
  h.done_steady hf ha.toSteady ha.good (fun hn => .inl (ha.present hn)) hr

/-- A chunk has been committed. -/
theorem Live.done_committed (h : Live cfg tidy calm w) (hf : w.transfers.find? id = some t)
    {r : Option FileAck} {chunk : FileChunk} {now : ℕ} (hchunk : chunk.transferId = id)
    (ho : chunk.offset = t.state.committedOffset)
    (hc : Committed cfg.suite tidy (w.desk id t) chunk.data d) (hr : ∀ a ∈ r, Reports d a) :
    Done cfg tidy calm (.process (.chunk chunk) now) w r (put w id d) := by
  have hid := (h.good hf).2
  have hoffset : d.transfer.state.committedOffset = t.state.committedOffset+chunk.data.length :=
    hc.offset
  have hquiet : calm → Quiet d.transfer.state := by
    intro hcalm
    rw [Quiet,hc.deferred,hc.terminal]
    exact h.quiet hcalm hf
  refine ⟨h.moved hf hc.good hc.terms (by omega) (fun hn => absurd hn hc.present) hquiet,
    fun _ => hc.offers,fun {a ta} hta => ?_,fun a har => ?_⟩
  · rw [find?_put,slot_put]
    split_ifs with heq
    · subst heq
      rw [hf] at hta
      cases hta
      refine .inl ⟨_,rfl,hc.terms,.inr ⟨chunk,now,rfl,hchunk,ho,hoffset,?_⟩⟩
      rw [hoffset]
      exact hc.bytes
    · exact .inl ⟨ta,hta,rfl,.inl ⟨rfl,rfl⟩⟩
  · obtain ⟨hsize,hta⟩ := hr a har
    refine ⟨d.transfer,?_,hsize⟩
    rw [find?_put,if_pos (hta.trans ((transferId_of_terms hc.terms).trans hid))]

/-- A commit was interrupted. -/
theorem Live.broken_torn (h : Live cfg tidy calm w) (hf : w.transfers.find? id = some t)
    {chunk : FileChunk} {now : ℕ} (hchunk : chunk.transferId = id)
    (ho : chunk.offset = t.state.committedOffset)
    (ht : Torn cfg.suite tidy (w.desk id t) chunk.data d) :
    Broken cfg tidy calm (.process (.chunk chunk) now) w (put w id d) := by
  have hgood := (h.good hf).1
  refine ⟨h.stored_slot hf rfl rfl rfl rfl ht.sound (fun e he => ?_),fun _ => ht.offers,
    fun {a ta s} hta hs => ?_⟩
  · rcases ht.entries e he with he | ⟨s,rfl,hterms,hoffset,-⟩
    · cases e with
      | none => exact .inl ⟨rfl,.inl he⟩
      | some s =>
          obtain ⟨hterms,hoffset⟩ := hgood.agrees s he
          exact .inr ⟨s,rfl,hterms,hoffset.ge⟩
    · refine .inr ⟨s,rfl,hterms,?_⟩
      rw [hoffset]
      exact Nat.le_add_right _ _
  · rw [slot_put] at hs ⊢
    split_ifs at hs ⊢ with heq
    · subst heq
      rw [hf] at hta
      cases hta
      rcases ht.entries _ hs with he | ⟨s',heq,hterms,hoffset,hbytes⟩
      · obtain ⟨hterms,hoffset⟩ := hgood.agrees s he
        exact ⟨hterms,.inl ⟨hoffset,ht.bytes⟩⟩
      · cases heq
        refine ⟨hterms,.inr ⟨chunk,now,rfl,hchunk,ho,hoffset,?_⟩⟩
        rw [hoffset]
        exact hbytes
    · obtain ⟨t',ht',-,hterms,hoffset⟩ := h.entry hs
      rw [hta] at ht'
      cases ht'
      exact ⟨hterms,.inl ⟨hoffset,rfl⟩⟩

/-- The operation was interrupted but its transfer still agrees with the slot. -/
theorem Live.broken_after (h : Live cfg tidy calm w) (hf : w.transfers.find? id = some t)
    (ha : After cfg.suite tidy calm (w.desk id t) d) :
    Broken cfg tidy calm c w (put w id d) :=
  (h.done_after hf (r := none) ha (by simp)).broken

end Transfer

/-! ## Conditions on calls -/

/-- An error is not deferred for a transfer that is complete. -/
def Timely (w : World) : Call → Prop
  | .errorFor id _ => ∀ t, w.transfers.find? id = some t → ¬t.Immediate →
      t.state.committedOffset < t.state.fileSize
  | _ => True

/-- Transfers with a deferred error are neither cancelled nor released. -/
def Calm (w : World) : Call → Prop
  | .cancel id => ∀ t, w.transfers.find? id = some t → t.state.deferredError = none
  | .release id => ∀ t, w.transfers.find? id = some t → t.state.deferredError = none
  | _ => True

/-- The hash and the journal entry of a chunk are spared, and the first entry of a
transfer is not renamed into place by a store that fails. -/
def Careful (script : Script) : Call → Prop
  | .process (.chunk _) _ => SparesCommit script
  | .process (.init _) _ => ∀ k, (script.drop 3).head? ≠ some (some (.cut k))
  | _ => True

section Calls
variable {c : Call}

/-- The outcomes of a call. -/
abbrev Outcome (cfg : Config) (tidy calm : Prop) (c : Call) (w : World)
    (x : Command (Option FileAck)) : Prop :=
  Leads x w (Done cfg tidy calm c w) (fun _ w' => Broken cfg tidy calm c w w' ∧
    (Careful w.script c → Done cfg tidy calm c w none w'))

/-- An operation that keeps the agreement, with the acknowledgement `f` makes of
its result. -/
theorem Live.onTransfer_outcome (h : Live cfg tidy calm w) {α : Type} (c : Call)
    (id : TransferId) {x : Op α} (f : α → Option FileAck) (hx : ∀ t, w.transfers.find? id = some t →
      Leads x (w.desk id t) (fun r d => After cfg.suite tidy calm (w.desk id t) d ∧
        ∀ a ∈ f r, Reports d a) (fun _ => After cfg.suite tidy calm (w.desk id t))) :
    Leads (onTransfer id x) w (fun r => Done cfg tidy calm c w (f r))
      (fun _ w' => Broken cfg tidy calm c w w' ∧
        (Careful w.script c → Done cfg tidy calm c w none w')) := by
  cases hf : w.transfers.find? id with
  | none =>
      have hstill : Done cfg tidy calm c w none w :=
        h.still rfl rfl rfl rfl (Finset.Subset.refl _) rfl rfl (by simp)
      exact onTransfer_unknown hf ⟨hstill.broken,fun _ => hstill⟩
  | some t =>
      refine onTransfer_leads hf ((hx t hf).mono (fun r d hd => ?_) (fun _ d hd => ?_))
      · exact h.done_after hf hd.1 hd.2
      · exact ⟨h.broken_after hf hd,fun _ => h.done_after hf hd (by simp)⟩

theorem chunk_outcome (h : Live cfg tidy calm w) (chunk : FileChunk) (now : ℕ) :
    Outcome cfg tidy calm (.process (.chunk chunk) now) w
      (onTransfer chunk.transferId (FileReceiver.chunk cfg chunk)) := by
  cases hf : w.transfers.find? chunk.transferId with
  | none =>
      have hstill : Done cfg tidy calm (.process (.chunk chunk) now) w none w :=
        h.still rfl rfl rfl rfl (Finset.Subset.refl _) rfl rfl (by simp)
      exact onTransfer_unknown hf ⟨hstill.broken,fun _ => hstill⟩
  | some t =>
      have hgood := (h.good hf).1
      have hquiet : calm → Quiet t.state := fun hc => h.quiet hc hf
      refine onTransfer_leads hf ((chunk_leads chunk hgood hquiet).mono (fun r d hd => ?_)
        (fun _ d hd => ?_))
      · obtain ⟨hr,-,hu | ⟨ho,hc⟩⟩ := hd
        · exact h.done_after hf (hu.after hgood hquiet) hr
        · exact h.done_committed hf rfl ho hc hr
      · rcases hd with ⟨ha,-⟩ | ⟨ho,hsp,ht⟩
        · exact ⟨h.broken_after hf ha,fun _ => h.done_after hf ha (by simp)⟩
        · exact ⟨h.broken_torn hf rfl ho ht,fun hcareful => absurd hcareful hsp⟩

/-! ## Release -/

/-- A transfer and its reservation are gone. -/
theorem Live.forgotten (h : Live cfg tidy calm w) {t : ActiveTransfer} {d : Desk}
    (hf : w.transfers.find? id = some t) (hv : Vacant d.slot) (hgone : id ∈ w.abandoned) :
    Live cfg tidy calm ((put w id d).forget id t.state.fileSize) := by
  have hfind : ∀ a, ((put w id d).forget id t.state.fileSize).transfers.find? a =
      if a = id then none else w.transfers.find? a := by
    intro a
    change ((w.transfers.insert id d.transfer).erase id).find? a = _
    by_cases ha : a = id
    · rw [if_pos ha,ha,SortedMap.find?_erase_self]
    · rw [if_neg ha,SortedMap.find?_erase_of_ne _ ha,SortedMap.find?_insert_of_ne _ _ ha]
  have hslot : ∀ a, ((put w id d).forget id t.state.fileSize).slot a =
      if a = id then d.slot else w.slot a := slot_put w id d
  have hsum := SortedMap.sumBy_of_find? hf (·.state.fileSize)
  have herase : (w.transfers.insert id d.transfer).erase id = w.transfers.erase id := by
    refine SortedMap.ext_find? (fun a => ?_)
    have ha := hfind a
    change ((w.transfers.insert id d.transfer).erase id).find? a = _ at ha
    rw [ha]
    split_ifs with heq
    · rw [heq,SortedMap.find?_erase_self]
    · rw [SortedMap.find?_erase_of_ne _ heq]
  have hreserved : w.reservedBytes-t.state.fileSize =
      ((w.transfers.insert id d.transfer).erase id).sumBy (·.state.fileSize) := by
    rw [herase,h.reserved,hsum]
    exact Nat.add_sub_cancel_left _ _
  refine ⟨fun {a ta} ha => ?_,fun {a} ha => ?_,hreserved,(Nat.sub_le _ _).trans h.quota,
    (Nat.sub_le _ _).trans_lt h.range,fun {a ta} ha hn => ?_,fun {a n} hn => ?_,
    fun {a ta} ha => ?_,fun hc {a ta} ha => ?_⟩
  · rw [hfind] at ha
    rw [hslot]
    split_ifs at ha ⊢
    exact h.good ha
  · rw [hfind] at ha
    rw [hslot]
    split_ifs at ha ⊢
    · exact hv
    · exact h.vacant ha
  · rw [hfind] at ha
    rw [hslot] at hn
    split_ifs at ha hn
    exact h.gone ha hn
  · rw [hfind]
    split_ifs with heq
    · exact .inr ⟨rfl,heq ▸ hgone⟩
    · exact h.acked hn
  · rw [hfind] at ha
    split_ifs at ha
    exact h.origin ha
  · rw [hfind] at ha
    split_ifs at ha
    exact h.quiet hc ha

theorem release_outcome (h : Live cfg tidy calm w) (hcalm : calm → Calm w (.release id)) :
    Outcome cfg tidy calm (.release id) w (do
      releaseTransfer id
      pure none) := by
  have hmarked : Done cfg tidy calm (.release id) w none
      {w with contacts := w.contacts.erase id, abandoned := insert id w.abandoned} :=
    h.still rfl rfl rfl rfl (Finset.subset_insert _ _) rfl rfl (by simp)
  unfold releaseTransfer
  refine Leads.bind (Leads.update_bind (Leads.read_bind ?_))
  dsimp only
  cases hf : w.transfers.find? id with
  | none => exact Leads.pure (Leads.pure hmarked)
  | some t =>
      obtain ⟨hgood,hid⟩ := h.good hf
      have hundeferred : calm → t.state.deferredError = none := fun hc => hcalm hc t hf
      refine Leads.bind (onTransfer_leads hf ((release_leads hgood hundeferred).mono
        (fun _ d hd => ?_) (fun _ d hd => ?_)))
      · obtain ⟨hsteady,hv,-⟩ := hd
        refine Leads.update (Leads.pure ⟨hmarked.live.forgotten hf hv (Finset.mem_insert_self _ _),
          hsteady.offers,fun {a ta} hta => ?_,by simp⟩)
        by_cases ha : a = id
        · subst ha
          exact .inr ⟨rfl,SortedMap.find?_erase_self _ _⟩
        · refine .inl ⟨ta,?_,rfl,.inl ⟨rfl,?_⟩⟩
          · refine (SortedMap.find?_erase_of_ne _ ha).trans ?_
            rw [find?_put,if_neg ha]
            exact hta
          · refine congrArg (fun slot : Slot => slot.content.bytes.take _) ?_
            refine (slot_put _ id d a).trans ?_
            rw [if_neg ha]
            rfl
      · obtain ⟨hsteady,hg,-⟩ := hd
        have hdone : Done cfg tidy calm (.release id) _ none _ :=
          hmarked.live.done_steady hf hsteady hg (fun _ => .inr (Finset.mem_insert_self _ _))
            (by simp)
        have hdone' : Done cfg tidy calm (.release id) w none _ :=
          ⟨hdone.live,hdone.offers,hdone.grown,hdone.acked⟩
        exact ⟨hdone'.broken,fun _ => hdone'⟩

/-! ## The start of a transfer -/

theorem Live.restarted (h : Live cfg tidy calm w) {contact : FileContact} {init : FileInit}
    {now : ℕ} (hf : w.transfers.find? init.transferId = none) :
    Live cfg tidy calm (w.restart contact init now) := by
  have hmem : ∀ {a : TransferId}, a ≠ init.transferId → a ∈ w.abandoned →
      a ∈ w.abandoned.erase init.transferId :=
    fun ha hb => Finset.mem_erase.mpr ⟨ha,hb⟩
  refine ⟨h.good,h.vacant,h.reserved,h.quota,h.range,fun {a ta} ha hn => ?_,fun {a n} hn => ?_,
    fun {a ta} ha => ?_,h.quiet⟩
  · refine hmem ?_ (h.gone ha hn)
    rintro rfl
    have hf' : w.transfers.find? init.transferId = some ta := ha
    rw [hf] at hf'
    cases hf'
  · change Function.update w.acked init.transferId none a = some n at hn
    by_cases ha : a = init.transferId
    · subst ha
      rw [Function.update_self] at hn
      cases hn
    · rw [Function.update_of_ne ha] at hn
      exact (h.acked hn).imp (fun hknown => hknown) (fun hgone => ⟨hgone.1,hmem ha hgone.2⟩)
  · obtain ⟨b,hb,horigin⟩ := h.origin ha
    exact ⟨b,List.mem_append_left _ hb,horigin⟩

/-- The slot of an unknown transfer changes but still belongs to nobody. -/
theorem Live.vacated (h : Live cfg tidy calm w) {d : Desk} (hf : w.transfers.find? id = none)
    (hv : Vacant d.slot) : Live cfg tidy calm (w.stow id d) := by
  have hother : ∀ {a : TransferId} {ta : ActiveTransfer}, w.transfers.find? a = some ta →
      a ≠ id := by
    rintro a ta ha rfl
    rw [hf] at ha
    cases ha
  refine ⟨fun {a ta} ha => ?_,fun {a} ha => ?_,h.reserved,h.quota,h.range,fun {a ta} ha hn => ?_,
    h.acked,h.origin,h.quiet⟩
  · rw [slot_stow,if_neg (hother ha)]
    exact h.good ha
  · rw [slot_stow]
    split_ifs
    · exact hv
    · exact h.vacant ha
  · rw [slot_stow,if_neg (hother ha)] at hn
    exact h.gone ha hn

/-- A new transfer is entered. -/
theorem Live.begun (h : Live cfg tidy calm w) {d : Desk} {contact : FileContact} {init : FileInit}
    {now : ℕ} (hf : w.transfers.find? init.transferId = none)
    (hgood : Good cfg.suite tidy d.slot d.transfer)
    (hid : d.transfer.state.transferId = init.transferId)
    (hsize : d.transfer.state.fileSize = init.fileSize)
    (hquota : w.reservedBytes+init.fileSize ≤ cfg.diskQuota)
    (hrange : w.reservedBytes+init.fileSize < 2^64) (hacked : w.acked init.transferId = none)
    (hpresent : none ∉ d.slot.entry.possible)
    (horigin : ∃ a ∈ w.authorized, Origin cfg.suite a d.transfer.state)
    (hquiet : calm → Quiet d.transfer.state) :
    Live cfg tidy calm ((w.stow init.transferId d).begin contact init now d.transfer) := by
  have hfind : ∀ a, ((w.stow init.transferId d).begin contact init now d.transfer).transfers.find? a =
      if a = init.transferId then some d.transfer else w.transfers.find? a := find?_put w _ d
  have hslot : ∀ a, ((w.stow init.transferId d).begin contact init now d.transfer).slot a =
      if a = init.transferId then d.slot else w.slot a := slot_put w _ d
  have hsum := SortedMap.sumBy_insert_new hf d.transfer (·.state.fileSize)
  refine ⟨fun {a ta} ha => ?_,fun {a} ha => ?_,?_,hquota,hrange,fun {a ta} ha hn => ?_,
    fun {a n} hn => ?_,fun {a ta} ha => ?_,fun hc {a ta} ha => ?_⟩
  · rw [hfind] at ha
    rw [hslot]
    split_ifs at ha ⊢ with heq
    · cases ha
      exact ⟨hgood,hid.trans heq.symm⟩
    · exact h.good ha
  · rw [hfind] at ha
    rw [hslot]
    split_ifs at ha ⊢
    exact h.vacant ha
  · change w.reservedBytes+init.fileSize =
      (w.transfers.insert init.transferId d.transfer).sumBy (·.state.fileSize)
    rw [hsum,hsize,h.reserved,Nat.add_comm]
  · rw [hfind] at ha
    rw [hslot] at hn
    split_ifs at ha hn
    · exact absurd hn hpresent
    · exact h.gone ha hn
  · rw [hfind]
    split_ifs with heq
    · subst heq
      have hn' : w.acked init.transferId = some n := hn
      rw [hacked] at hn'
      cases hn'
    · exact h.acked hn
  · rw [hfind] at ha
    split_ifs at ha
    · cases ha
      exact horigin
    · exact h.origin ha
  · rw [hfind] at ha
    split_ifs at ha
    · cases ha
      exact hquiet hc
    · exact h.quiet hc ha

/-- A transfer was interrupted while its first entry was stored. -/
theorem Live.stored_begun (h : Live cfg tidy calm w) {d : Desk} {s : TransferState}
    (hf : w.transfers.find? id = none) (hb : Begun cfg.suite tidy s d.slot)
    (hid : s.transferId = id) (hquota : w.reservedBytes+s.fileSize ≤ cfg.diskQuota)
    (hrange : w.reservedBytes+s.fileSize < 2^64) (hacked : w.acked id = none)
    (horigin : ∃ a ∈ w.authorized, Origin cfg.suite a s) : Stored cfg tidy (w.stow id d) := by
  have hsum := SortedMap.sumBy_insert_new hf (⟨s,true,false,0⟩ : ActiveTransfer) (·.state.fileSize)
  have htotal : (w.transfers.insert id ⟨s,true,false,0⟩).sumBy (·.state.fileSize) =
      w.reservedBytes+s.fileSize := by
    rw [hsum,h.reserved,Nat.add_comm]
  have hstored := h.stored
  refine @stored_of _ _ _ (w.transfers.insert id ⟨s,true,false,0⟩) (fun a => ?_) (fun a s' hs' => ?_)
    (htotal ▸ hquota) (htotal ▸ hrange) (fun a n hn e he => ?_)
  · rw [slot_stow]
    split_ifs
    · exact hb.sound
    · exact hstored.sound a
  · rw [slot_stow] at hs'
    split_ifs at hs' with heq
    · rcases hb.entries _ hs' with hno | hs
      · cases hno
      · cases hs
        exact ⟨⟨s,true,false,0⟩,by rw [heq,SortedMap.find?_insert_self],hid.trans heq.symm,rfl,
          horigin⟩
    · obtain ⟨ta,hta,hida,hterms,-⟩ := h.entry hs'
      exact ⟨ta,by rw [SortedMap.find?_insert_of_ne _ _ heq]; exact hta,hida,hterms,h.origin hta⟩
  · rw [slot_stow] at he
    split_ifs at he with heq
    · subst heq
      have hn' : w.acked a = some n := hn
      rw [hacked] at hn'
      cases hn'
    · exact hstored.acked hn e he

theorem batchOf_ne_zero {contact : FileContact} {init : FileInit} {now n : ℕ} {S : Suite}
    (hv : init.validateAuthorization S contact now = .ok ()) (h : batchOf contact init = .ok n) :
    n ≠ 0 := by
  obtain ⟨-,hchunk,hflight⟩ := validateAuthorization_ok hv
  unfold batchOf at h
  split_ifs at h
  · obtain ⟨m,hm,hne⟩ := checkpointBatchChunks_ok hchunk hflight
    rw [hm] at h
    cases h
    exact hne
  · cases h
    exact Nat.one_ne_zero

theorem init_outcome (h : Live cfg tidy calm w) (i : FileInit) (now : ℕ) :
    Outcome cfg tidy calm (.process (.init i) now) w (do
      let a ← init cfg i now
      pure (some a)) := by
  have hstill : Done cfg tidy calm (.process (.init i) now) w none w :=
    h.still rfl rfl rfl rfl (Finset.Subset.refl _) rfl rfl (by simp)
  have hsame := And.intro hstill.broken
    (fun _ : Careful w.script (.process (.init i) now) => hstill)
  unfold init
  refine Leads.bind (Leads.attempt_bind (fun hash hhash => Leads.read_bind ?_) (fun _ _ => hsame))
  dsimp only [id]
  cases hf : w.transfers.find? i.transferId with
  | some t =>
      refine Leads.demand_bind (fun _ => Leads.pure (Leads.pure ?_)) (fun _ => hsame)
      refine h.still rfl rfl rfl rfl (Finset.Subset.refl _) rfl rfl (fun a ha => ?_)
      cases ha
      refine ⟨t,?_,rfl⟩
      change w.transfers.find? t.state.transferId = some t
      rw [(h.good hf).2,hf]
  | none =>
      refine Leads.obtain_bind (fun contact _ => ?_) (fun _ => hsame)
      refine Leads.attempt_bind (fun _ hauth => ?_) (fun _ _ => hsame)
      refine Leads.demand_bind (fun hfits => Leads.update_bind ?_) (fun _ => hsame)
      obtain ⟨hversion,hchunk,-⟩ := validateAuthorization_ok hauth
      simp only [not_or,not_lt,not_le] at hfits
      obtain ⟨-,hrange,hquota⟩ := hfits
      have h₁ : Live cfg tidy calm (w.restart contact i now) := h.restarted hf
      have hacked : (w.restart contact i now).acked i.transferId = none :=
        Function.update_self _ _ _
      have horigin : ∀ {s : TransferState} {n : ℕ}, s = .new cfg.suite hash n i →
          ∃ a ∈ (w.restart contact i now).authorized, Origin cfg.suite a s :=
        fun hs => ⟨⟨contact,i,now⟩,List.mem_append_right _ (List.mem_singleton_self _),hauth,hash,_,
          hhash,congrArg terms hs⟩
      have hother : ∀ {a : TransferId} {ta : ActiveTransfer}, w.transfers.find? a = some ta →
          a ≠ i.transferId := by
        rintro a ta ha rfl
        rw [hf] at ha
        cases ha
      have hslot : ∀ (d : Desk) {a : TransferId} {ta : ActiveTransfer},
          w.transfers.find? a = some ta →
            ((w.restart contact i now).stow i.transferId d).slot a = w.slot a :=
        fun d a ta ha => (slot_stow _ _ d a).trans (if_neg (hother ha))
      refine Leads.bind (onSlot_leads ((@initializeTransfer_leads tidy cfg _ i hash _
        (h₁.vacant hf) hversion hchunk (fun n hn => batchOf_ne_zero hauth hn)).mono (fun _ d hd => ?_) (fun _ d hd => ?_)))
      · obtain ⟨hoffers,hgood,hpresent,n,-,ht⟩ := hd
        have hid : d.transfer.state.transferId = i.transferId := by rw [ht]; rfl
        refine Leads.update_bind (Leads.pure (Leads.pure ⟨h₁.begun hf hgood hid (by rw [ht]; rfl)
          hquota hrange hacked hpresent (horigin (by rw [ht])) (fun _ => .inl (by rw [ht]; rfl)),fun _ => hoffers,
          fun {a ta} hta => ?_,fun a ha => ?_⟩))
        · refine .inl ⟨ta,(find?_put w _ d a).trans ?_,rfl,.inl ⟨rfl,?_⟩⟩
          · rw [if_neg (hother hta)]
            exact hta
          · refine congrArg (fun slot : Slot => slot.content.bytes.take _) ?_
            exact (slot_put w _ d a).trans (if_neg (hother hta))
        · cases ha
          refine ⟨d.transfer,(find?_put w _ d _).trans (if_pos ?_),rfl⟩
          exact hid
      · obtain ⟨hoffers,hv | ⟨⟨k,hcut⟩,n,-,hb⟩⟩ := hd
        · have hdone : Done cfg tidy calm (.process (.init i) now) w none
              ((w.restart contact i now).stow i.transferId d) := by
            refine ⟨h₁.vacated hf hv,fun _ => hoffers,fun {a ta} hta => ?_,by simp⟩
            exact .inl ⟨ta,hta,rfl,.inl ⟨rfl,by rw [hslot d hta]⟩⟩
          exact ⟨hdone.broken,fun _ => hdone⟩
        · refine ⟨⟨h₁.stored_begun hf hb rfl hquota hrange hacked (horigin rfl),fun _ => hoffers,
            fun {a ta s} hta hs => ?_⟩,fun hcareful => absurd hcut (hcareful k)⟩
          rw [hslot d hta] at hs ⊢
          obtain ⟨t',ht',-,hterms,hoffset⟩ := h.entry hs
          rw [hta] at ht'
          cases ht'
          exact ⟨hterms,.inl ⟨hoffset,rfl⟩⟩

/-! ## All calls -/

theorem process_outcome (h : Live cfg tidy calm w) (htidy : calm → tidy) (record : FileRecord)
    (now : ℕ) : Outcome cfg tidy calm (.process record now) w (process cfg now record) := by
  have hstill : Done cfg tidy calm (.process record now) w none w :=
    h.still rfl rfl rfl rfl (Finset.Subset.refl _) rfl rfl (by simp)
  cases record with
  | init i => exact init_outcome h i now
  | chunk chunk => exact chunk_outcome h chunk now
  | finish f =>
      refine Leads.bind ((h.onTransfer_outcome (.process (.finish f) now) f.transferId some
        (fun t hf => (finish_leads (h.good hf).1 (fun hc => h.quiet hc hf) htidy).mono
          (fun a d hd => ⟨hd.1,fun b hb => ?_⟩) (fun _ _ => id))).mono
        (fun _ _ hd => Leads.pure hd) (fun _ _ => id))
      cases hb
      exact hd.2.1
  | ack a => exact Leads.fail ⟨hstill.broken,fun _ => hstill⟩

theorem offerContact_outcome (h : Live cfg tidy calm w) (contact : FileContact) (now : ℕ) :
    Outcome cfg tidy calm (.offerContact contact now) w (do
      offerContact cfg contact now
      pure none) := by
  have hstill : ∀ contacts offers, Done cfg tidy calm (.offerContact contact now) w none
      {w with contacts := contacts, offers := offers} :=
    fun _ _ => h.still rfl rfl rfl rfl (Finset.Subset.refl _) rfl rfl (by simp)
  have hsame := And.intro (hstill w.contacts w.offers).broken
    (fun _ : Careful w.script (.offerContact contact now) => hstill w.contacts w.offers)
  unfold offerContact
  refine Leads.bind (Leads.attempt_bind (fun _ _ => ?_) (fun _ _ => hsame))
  refine Leads.demand_bind (fun _ => Leads.read_bind ?_) (fun _ => hsame)
  exact Leads.demand_bind (fun _ => Leads.update (Leads.pure (hstill _ _))) (fun _ => hsame)

/-- Every call leaves a running receiver, unless it fails carelessly. -/
theorem perform_outcome (h : Live cfg tidy calm w) (htidy : calm → tidy)
    (htimely : tidy → Timely w c) (hcalm : calm → Calm w c) :
    Outcome cfg tidy calm c w (perform cfg c) := by
  cases c with
  | offerContact contact now => exact offerContact_outcome h contact now
  | clearOfferedContacts =>
      exact Leads.update_bind (Leads.pure (h.still rfl rfl rfl rfl (Finset.Subset.refl _) rfl rfl
        (by simp)))
  | process record now => exact process_outcome h htidy record now
  | errorFor a error =>
      refine Leads.read_bind (Leads.ite (fun _ => ?_) (fun _ => Leads.pure ?_))
      · exact h.onTransfer_outcome _ a (fun r => r) (fun t hf => (errorFor_leads (h.good hf).1
          (fun hc => h.quiet hc hf) (fun ht => htimely ht t hf)).mono
          (fun r d hd => ⟨hd.1,fun b hb => (hd.2 b hb).1⟩) (fun _ _ => id))
      · exact h.still rfl rfl rfl rfl (Finset.Subset.refl _) rfl rfl (by simp)
  | markCompleteAckDelivered a =>
      exact Leads.bind ((h.onTransfer_outcome _ a (fun _ => none) (fun t hf =>
        (markCompleteAckDelivered_leads (h.good hf).1 (fun hc => h.quiet hc hf)).mono
          (fun _ d hd => ⟨hd,by simp⟩) (fun _ _ => id))).mono
        (fun _ _ hd => Leads.pure hd) (fun _ _ => id))
  | cancel a =>
      exact Leads.bind ((h.onTransfer_outcome _ a (fun _ => none) (fun t hf =>
        (cancel_leads (h.good hf).1 (fun hc => hcalm hc t hf)).mono
          (fun _ d hd => ⟨hd.1,by simp⟩) (fun _ _ hd => hd.1))).mono
        (fun _ _ hd => Leads.pure hd) (fun _ _ => id))
  | release id => exact release_outcome h hcalm

end Calls

end Gcoms.FileWorlds
