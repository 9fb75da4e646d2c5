import Gcoms.FileSlots

/-!
# Operations on one transfer

Each operation is followed through all its outcomes. Except for the commit of a
chunk, every operation keeps the transfer in memory in agreement with its slot,
whichever call of the file system fails. A commit that fails after the chunk was
synchronized leaves a slot that is still sound, but memory is then ahead of it.
-/
namespace Gcoms.FileTransfers
open ByteCodec Primitives Fallible Commands SortedMaps Writeback FileRecords FileReceiver FileSlots

/-! ## Calls of the file system -/

/-- The next call does not fail. -/
def Spared (script : Script) : Prop := ∀ f, script.head? ≠ some (some f)

section Calls
variable {d : Desk} {act : Slot → Slot} {cut : ℕ → Slot → Slot} {error : ReceiverError}

/-- A call succeeds, fails without an effect or fails after a part of it. -/
theorem fsCall_leads {Q : Unit → Desk → Prop} {E : ReceiverError → Desk → Prop}
    (hok : Q () {d with slot := act d.slot, script := d.script.tail})
    (herr : d.script.head? = some (some .early) → E error {d with script := d.script.tail})
    (hcut : ∀ n, d.script.head? = some (some (.cut n)) →
      E error {d with slot := cut n d.slot, script := d.script.tail}) :
    Leads (fsCall act cut error) d Q E := by
  obtain ⟨t,slot,script,offered⟩ := d
  unfold Leads fsCall
  cases script with
  | nil => exact hok
  | cons head rest =>
      cases head with
      | none => exact hok
      | some f =>
          cases f with
          | early => exact herr rfl
          | cut n => exact hcut n rfl

/-- A call that keeps `P` whatever happens. -/
theorem fsCall_keeps {P : Desk → Prop}
    (hok : P {d with slot := act d.slot, script := d.script.tail})
    (herr : P {d with script := d.script.tail})
    (hcut : ∀ n, P {d with slot := cut n d.slot, script := d.script.tail}) :
    Leads (fsCall act cut error) d (fun _ => P) (fun _ => P) :=
  fsCall_leads hok (fun _ => herr) (fun n _ => hcut n)

theorem look_leads {Q : Unit → Desk → Prop} {E : ReceiverError → Desk → Prop}
    (hok : Q () {d with script := d.script.tail})
    (herr : ¬Spared d.script → E error {d with script := d.script.tail}) :
    Leads (look error) d Q E :=
  fsCall_leads hok (fun h => herr (fun hs => hs _ h)) (fun _ h => herr (fun hs => hs _ h))

theorem hashPrefix_leads {S : Suite} {name : Slot → Cell Bool} {length : ℕ}
    {Q : Block 32 → Desk → Prop} {E : ReceiverError → Desk → Prop}
    (hok : (name d.slot).current = true → length ≤ d.slot.content.bytes.length →
      Q (S.sha256 (d.slot.content.bytes.take length)) {d with script := d.script.tail})
    (herr : ¬Spared d.script ∨ ¬((name d.slot).current = true ∧
      length ≤ d.slot.content.bytes.length) → E error {d with script := d.script.tail}) :
    Leads (hashPrefix S name length error) d Q E := by
  unfold hashPrefix
  refine Leads.bind (look_leads ?_ (fun h => herr (.inl h)))
  refine Leads.read_bind (Leads.demand_bind (fun hc => ?_) (fun hc => herr (.inr hc)))
  exact Leads.pure (hok hc.1 hc.2)

theorem readRange_leads {offset length : ℕ} {Q : Bytes → Desk → Prop}
    {E : ReceiverError → Desk → Prop}
    (hok : Q ((d.slot.content.bytes.drop offset).take length) {d with script := d.script.tail})
    (herr : ¬Spared d.script ∨ ¬(d.slot.temp.current = true ∧
      offset+length ≤ d.slot.content.bytes.length) → E .io {d with script := d.script.tail}) :
    Leads (readRange offset length) d Q E := by
  unfold readRange
  refine Leads.bind (look_leads ?_ (fun h => herr (.inl h)))
  exact Leads.read_bind (Leads.demand_bind (fun _ => Leads.pure hok) (fun h => herr (.inr h)))

theorem openExisting_leads {Q : Unit → Desk → Prop} {E : ReceiverError → Desk → Prop}
    (hok : d.slot.temp.current = true → Q () {d with script := d.script.tail})
    (herr : ¬Spared d.script ∨ d.slot.temp.current ≠ true →
      E .io {d with script := d.script.tail}) : Leads openExisting d Q E := by
  unfold openExisting
  refine Leads.bind (look_leads ?_ (fun h => herr (.inl h)))
  exact Leads.read_bind (Leads.demand hok (fun h => herr (.inr h)))

/-- An entry is stored unless it is invalid or the call fails; a failing call may
have renamed it into place. -/
theorem storeState_leads {E : ReceiverError → Desk → Prop} {Q : Unit → Desk → Prop}
    (hok : d.transfer.state.validate = .ok () →
      Q () {d with
        slot := d.slot.stored d.transfer.state
        script := d.script.tail
        offered := d.offered++[d.transfer.state]})
    (hrefused : ∀ script, (¬Spared d.script ∨ d.transfer.state.validate ≠ .ok ()) →
      E .io {d with script := script, offered := d.offered++[d.transfer.state]})
    (hcut : ∀ n, d.transfer.state.validate = .ok () → d.script.head? = some (some (.cut n)) →
      E .io {d with
        slot := d.slot.renamed d.transfer.state
        script := d.script.tail
        offered := d.offered++[d.transfer.state]}) :
    Leads storeState d Q E := by
  unfold storeState
  refine Leads.update_bind (Leads.read_bind (Leads.attempt_bind (fun u hv => ?_) (fun e he => ?_)))
  · exact fsCall_leads (hok hv) (fun h => hrefused _ (.inl (fun hs => hs _ h)))
      (fun n h => hcut n hv h)
  · refine hrefused _ (.inr ?_)
    change d.transfer.state.validate = .error e at he
    rw [he]
    exact fun h => by cases h

end Calls

/-! ## What an operation keeps -/

section Operations
variable {S : Suite} {tidy calm : Prop} {cfg : Config} {d : Desk}

/-- A state that the journal does not refuse. -/
def Quiet (s : TransferState) : Prop := s.deferredError = none ∨ s.terminal = .active

/-- The transfer stands at the same offset, over the same committed bytes. Under
`calm` the journal refuses neither the state in memory nor what it was offered. -/
structure Steady (calm : Prop) (d d' : Desk) : Prop where
  terms : terms d'.transfer.state = terms d.transfer.state
  offset : d'.transfer.state.committedOffset = d.transfer.state.committedOffset
  bytes : d'.slot.content.bytes.take d.transfer.state.committedOffset =
    d.slot.content.bytes.take d.transfer.state.committedOffset
  offers : calm → ∀ s ∈ d'.offered, s ∈ d.offered ∨ s.validate = .ok ()
  quiet : calm → Quiet d'.transfer.state

theorem Steady.refl (hq : calm → Quiet d.transfer.state) : Steady calm d d :=
  ⟨rfl,rfl,rfl,fun _ _ hs => .inl hs,hq⟩

/-- The state in memory still agrees with its slot, and the entry is not gone. -/
structure Keeps (S : Suite) (tidy calm : Prop) (d d' : Desk) : Prop extends Steady calm d d' where
  near : Near S tidy d'.slot d'.transfer.state
  present : none ∈ d'.slot.entry.possible → none ∈ d.slot.entry.possible

theorem Keeps.refl (h : Near S tidy d.slot d.transfer.state)
    (hq : calm → Quiet d.transfer.state) : Keeps S tidy calm d d :=
  ⟨Steady.refl hq,h,id⟩

/-- A change of the slot that keeps the committed bytes. -/
theorem Keeps.slot {d' : Desk} (h : Keeps S tidy calm d d') {slot : Slot} {script : Script}
    (hn : Near S tidy slot d'.transfer.state)
    (hc : slot.content.bytes.take d'.transfer.state.committedOffset =
      d'.slot.content.bytes.take d'.transfer.state.committedOffset)
    (he : slot.entry = d'.slot.entry) :
    Keeps S tidy calm d {d' with slot := slot, script := script} where
  terms := h.terms
  offset := h.offset
  bytes := by
    rw [h.offset] at hc
    exact hc.trans h.bytes
  offers := h.offers
  quiet := h.quiet
  near := hn
  present := by
    rw [he]
    exact h.present

/-- A revision of the state in memory. -/
theorem Keeps.revise {d' : Desk} (h : Keeps S tidy calm d d') {t : ActiveTransfer}
    (hn : Near S tidy d'.slot t.state)
    (hterms : FileSlots.terms t.state = FileSlots.terms d'.transfer.state)
    (ho : t.state.committedOffset = d'.transfer.state.committedOffset)
    (hq : calm → Quiet t.state) : Keeps S tidy calm d {d' with transfer := t} :=
  ⟨⟨hterms.trans h.terms,ho.trans h.offset,h.bytes,h.offers,hq⟩,hn,h.present⟩

/-- Script, file handle and batch index do not matter. -/
theorem Keeps.congr {d' d'' : Desk} (h : Keeps S tidy calm d d') (hslot : d''.slot = d'.slot)
    (hs : d''.transfer.state = d'.transfer.state) (ho : d''.offered = d'.offered) :
    Keeps S tidy calm d d'' := by
  obtain ⟨t,slot,script,offered⟩ := d''
  dsimp only at hslot hs ho
  subst hslot ho
  refine ⟨⟨?_,?_,h.bytes,h.offers,?_⟩,?_,h.present⟩
  · rw [hs,h.terms]
  · rw [hs,h.offset]
  · rw [hs]
    exact h.quiet
  · rw [hs]
    exact h.near

/-- The transfer is still one that has been opened. -/
structure After (S : Suite) (tidy calm : Prop) (d d' : Desk) : Prop extends
    Keeps S tidy calm d d' where
  bounded : d'.transfer.state.terminal = .active →
    d'.slot.content.bytes.length ≤ d'.transfer.state.fileSize
  cancelled : d'.transfer.cancelled = false → ¬Failed d'.transfer.state

theorem After.good {d' : Desk} (h : After S tidy calm d d') : Good S tidy d'.slot d'.transfer :=
  ⟨h.near,h.bounded,h.cancelled⟩

theorem After.refl (h : Good S tidy d.slot d.transfer) (hq : calm → Quiet d.transfer.state) :
    After S tidy calm d d :=
  ⟨Keeps.refl h.toNear hq,h.bounded,h.cancelled⟩

theorem After.congr {d' d'' : Desk} (h : After S tidy calm d d') (hslot : d''.slot = d'.slot)
    (hs : d''.transfer.state = d'.transfer.state)
    (hc : d''.transfer.cancelled = d'.transfer.cancelled) (ho : d''.offered = d'.offered) :
    After S tidy calm d d'' where
  toKeeps := h.toKeeps.congr hslot hs ho
  bounded := by
    rw [hs,hslot]
    exact h.bounded
  cancelled := by
    rw [hs,hc]
    exact h.cancelled

/-- A change of the names or of what is synchronized. -/
theorem After.slot {d' : Desk} (h : After S tidy calm d d') {slot : Slot} {script : Script}
    (hn : Near S tidy slot d'.transfer.state) (hc : slot.content.bytes = d'.slot.content.bytes)
    (he : slot.entry = d'.slot.entry) :
    After S tidy calm d {d' with slot := slot, script := script} where
  toKeeps := h.toKeeps.slot hn (by rw [hc]) he
  bounded := by
    rw [hc]
    exact h.bounded
  cancelled := h.cancelled

theorem After.revise {d' : Desk} (h : After S tidy calm d d') {t : ActiveTransfer}
    (hn : Near S tidy d'.slot t.state)
    (hterms : FileSlots.terms t.state = FileSlots.terms d'.transfer.state)
    (ho : t.state.committedOffset = d'.transfer.state.committedOffset)
    (hq : calm → Quiet t.state)
    (ha : t.state.terminal = .active → d'.transfer.state.terminal = .active)
    (hc : t.cancelled = false → ¬Failed t.state) :
    After S tidy calm d {d' with transfer := t} where
  toKeeps := h.toKeeps.revise hn hterms ho hq
  bounded hact := terms_fileSize hterms ▸ h.bounded (ha hact)
  cancelled := hc

/-- An acknowledgement reports the committed offset. -/
def Reports (d : Desk) (a : FileAck) : Prop :=
  a.receivedSize = d.transfer.state.committedOffset ∧
    a.transferId = d.transfer.state.transferId

theorem ack_reports (d : Desk) (stage : AckStage) (code : AckCode) :
    ∀ a ∈ some (ack d.transfer.state stage code), Reports d a := by
  intro a ha
  cases ha
  exact ⟨rfl,rfl⟩

/-- The state in memory goes to the journal. -/
theorem storeState_keeps {d₀ : Desk} (h : Keeps S tidy calm d₀ d) :
    Leads storeState d
      (fun _ d' => Keeps S tidy calm d₀ d' ∧ d'.transfer = d.transfer ∧
        d'.slot = d.slot.stored d.transfer.state)
      (fun _ d' => Keeps S tidy calm d₀ d' ∧ d'.transfer = d.transfer ∧
        d'.slot.content = d.slot.content ∧ d'.slot.final = d.slot.final) := by
  have hoffers : calm → ∀ s ∈ d.offered++[d.transfer.state], s ∈ d₀.offered ∨
      s.validate = .ok () := by
    intro hc s hs
    rcases List.mem_append.mp hs with hs | hs
    · exact h.offers hc s hs
    · rw [List.mem_singleton.mp hs]
      exact .inr (validate_ok.mpr ⟨h.near.held.backed.version,h.near.held.backed.wellFormed,
        h.quiet hc⟩)
  have hsteady : ∀ slot script, slot.content = d.slot.content → Steady calm d₀
      ⟨d.transfer,slot,script,d.offered++[d.transfer.state]⟩ :=
    fun slot script hc => ⟨h.terms,h.offset,by rw [hc]; exact h.bytes,hoffers,h.quiet⟩
  refine storeState_leads (fun hv => ?_) (fun script _ => ?_) (fun _ hv _ => ?_)
  · refine ⟨⟨hsteady _ _ rfl,h.near.stored hv,fun hn => ?_⟩,rfl,rfl⟩
    cases List.mem_singleton.mp hn
  · exact ⟨⟨hsteady _ _ rfl,h.near,h.present⟩,rfl,rfl,rfl⟩
  · refine ⟨⟨hsteady _ _ rfl,h.near.renamed hv,fun hn => ?_⟩,rfl,rfl,rfl⟩
    rcases List.mem_cons.mp hn with heq | hn
    · cases heq
    · exact h.present hn

theorem storeState_after {d₀ : Desk} (h : After S tidy calm d₀ d) :
    Leads storeState d
      (fun _ d' => After S tidy calm d₀ d' ∧ d'.transfer = d.transfer ∧
        d'.slot = d.slot.stored d.transfer.state)
      (fun _ d' => After S tidy calm d₀ d' ∧ d'.transfer = d.transfer) := by
  refine (storeState_keeps h.toKeeps).mono (fun _ d' hd => ?_) (fun _ d' hd => ?_)
  · obtain ⟨t,slot,script,offered⟩ := d'
    obtain ⟨hk,rfl,rfl⟩ := hd
    exact ⟨⟨hk,h.bounded,h.cancelled⟩,rfl,rfl⟩
  · obtain ⟨t,slot,script,offered⟩ := d'
    obtain ⟨hk,rfl,hc,-⟩ := hd
    refine ⟨⟨hk,fun ha => ?_,h.cancelled⟩,rfl⟩
    change slot.content.bytes.length ≤ _
    rw [hc]
    exact h.bounded ha

theorem syncDir_after {d₀ : Desk} (h : After S tidy calm d₀ d) :
    Leads syncDir d
      (fun _ d' => After S tidy calm d₀ d' ∧
        d' = {d with slot := d.slot.syncNames, script := d.script.tail})
      (fun _ d' => After S tidy calm d₀ d' ∧ d'.transfer = d.transfer) := by
  have hsync : After S tidy calm d₀ {d with slot := d.slot.syncNames, script := d.script.tail} :=
    h.slot h.near.syncNames rfl rfl
  exact fsCall_leads ⟨hsync,rfl⟩ (fun _ => ⟨h.congr rfl rfl rfl rfl,rfl⟩) (fun _ _ => ⟨hsync,rfl⟩)

/-! ## Chunks -/

/-- Nothing but the script, the handle and the batch index has changed. -/
structure Unmoved (d d' : Desk) : Prop where
  state : d'.transfer.state = d.transfer.state
  cancelled : d'.transfer.cancelled = d.transfer.cancelled
  slot : d'.slot = d.slot
  offered : d'.offered = d.offered

theorem Unmoved.after {d' : Desk} (hu : Unmoved d d') (h : Good S tidy d.slot d.transfer)
    (hq : calm → Quiet d.transfer.state) : After S tidy calm d d' :=
  (After.refl h hq).congr hu.slot hu.state hu.cancelled hu.offered

theorem Unmoved.reports {d' : Desk} {r : Option FileAck} (hu : Unmoved d d')
    (h : ∀ a ∈ r, Reports d a) : ∀ a ∈ r, Reports d' a := by
  intro a ha
  rw [Reports,hu.state]
  exact h a ha

theorem checkpoint_leads (eof : Bool) :
    Leads (checkpoint eof) d
      (fun r d' => Unmoved d d' ∧ ∀ a ∈ r, Reports d a) (fun _ _ => False) := by
  unfold checkpoint
  refine Leads.read_bind (Leads.ite (fun _ => ?_) (fun _ => ?_))
  · refine Leads.ite (fun _ => Leads.update_bind ?_) (fun _ => Leads.update_bind ?_)
    · cases d.transfer.state.deferredError with
      | some code => exact Leads.pure ⟨⟨rfl,rfl,rfl,rfl⟩,ack_reports d _ _⟩
      | none => exact Leads.pure ⟨⟨rfl,rfl,rfl,rfl⟩,ack_reports d _ _⟩
    · exact Leads.pure ⟨⟨rfl,rfl,rfl,rfl⟩,by simp⟩
  · exact Leads.pure ⟨⟨rfl,rfl,rfl,rfl⟩,ack_reports d _ _⟩

theorem repeated_leads (c : FileChunk) :
    Leads (repeated c) d (fun r d' => Unmoved d d' ∧ ∀ a ∈ r, Reports d a)
      (fun _ d' => Unmoved d d') := by
  have hscript : Unmoved d {d with script := d.script.tail} := ⟨rfl,rfl,rfl,rfl⟩
  unfold repeated
  refine Leads.read_bind (Leads.demand_bind (fun _ => ?_) (fun _ => ⟨rfl,rfl,rfl,rfl⟩))
  refine Leads.demand_bind (fun _ => ?_) (fun _ => ⟨rfl,rfl,rfl,rfl⟩)
  refine Leads.bind (readRange_leads ?_ (fun _ => hscript))
  refine Leads.demand_bind (fun _ => ?_) (fun _ => hscript)
  refine (checkpoint_leads _).mono (fun r d' hd => ?_) (fun _ _ hf => hf.elim)
  exact ⟨⟨hd.1.state,hd.1.cancelled,hd.1.slot,hd.1.offered⟩,hd.2⟩

/-- The state after a chunk of the given length. -/
def advanced (S : Suite) (s : TransferState) (content : Content Byte) (n : ℕ) : TransferState :=
  {s with
    committedOffset := s.committedOffset+n
    committedSha256 := S.sha256 (content.bytes.take (s.committedOffset+n))}

/-- A chunk may be committed to this transfer. -/
structure Fits (t : ActiveTransfer) (data : Bytes) : Prop where
  active : t.state.terminal = .active
  undeferred : t.state.deferredError = none
  nonempty : data.length ≠ 0
  room : t.state.committedOffset+data.length ≤ t.state.fileSize

/-- The slot a commit leaves that failed halfway: the committed bytes are as
before, and a new entry stands behind the old bytes and the chunk. -/
structure Torn (S : Suite) (tidy : Prop) (d : Desk) (data : Bytes) (d' : Desk) : Prop where
  sound : Sound S tidy d'.slot
  bytes : d'.slot.content.bytes.take d.transfer.state.committedOffset =
    d.slot.content.bytes.take d.transfer.state.committedOffset
  entries : ∀ e ∈ d'.slot.entry.possible, e ∈ d.slot.entry.possible ∨
    ∃ s, e = some s ∧ terms s = terms d.transfer.state ∧
      s.committedOffset = d.transfer.state.committedOffset+data.length ∧
      d'.slot.content.bytes.take (d.transfer.state.committedOffset+data.length) =
        d.slot.content.bytes.take d.transfer.state.committedOffset++data
  offers : ∀ s ∈ d'.offered, s ∈ d.offered ∨ s.validate = .ok ()

/-- The chunk is committed. -/
structure Committed (S : Suite) (tidy : Prop) (d : Desk) (data : Bytes) (d' : Desk) : Prop where
  good : Good S tidy d'.slot d'.transfer
  terms : terms d'.transfer.state = terms d.transfer.state
  terminal : d'.transfer.state.terminal = d.transfer.state.terminal
  deferred : d'.transfer.state.deferredError = d.transfer.state.deferredError
  cancelled : d'.transfer.cancelled = d.transfer.cancelled
  offset : d'.transfer.state.committedOffset =
    d.transfer.state.committedOffset+data.length
  bytes : d'.slot.content.bytes.take (d.transfer.state.committedOffset+data.length) =
    d.slot.content.bytes.take d.transfer.state.committedOffset++data
  offers : ∀ s ∈ d'.offered, s ∈ d.offered ∨ s.validate = .ok ()
  present : none ∉ d'.slot.entry.possible

/-- The entry of a synchronized chunk agrees with the slot. -/
theorem held_advanced {slot : Slot} {s : TransferState} {n : ℕ} (h : Near S tidy slot s)
    (hactive : s.terminal = .active) (hdeferred : s.deferredError = none) (hn : n ≠ 0)
    (hroom : s.committedOffset+n ≤ s.fileSize) (hs : s.committedOffset+n ≤ slot.content.synced) :
    Held S tidy slot (advanced S s slot.content n) := by
  have hw := h.held.backed.wellFormed
  have hnot : true ∉ slot.final.possible := h.unlinked (by omega)
  refine ⟨⟨h.held.backed.version,?_,hs,rfl⟩,fun ht => absurd ht hnot,h.held.named,?_,?_⟩
  · exact ⟨hw.profileVersion,hw.batchChunks,hw.chunkSize,hroom,hw.deferredError,hw.tempName,
      hw.finalName,hw.names⟩
  · intro digest delivered hp
    have hp' : s.terminal = .published digest delivered := hp
    rw [hactive] at hp'
    cases hp'
  · exact fun _ hd => absurd hdeferred hd

/-- The script spares the hash and the journal of a commit. -/
def SparesCommit (script : Script) : Prop :=
  Spared (script.drop 4) ∧ Spared (script.drop 5)

/-- The chunk is on the medium: the recording succeeds unless a call fails, and
then the slot has at most the new entry in addition. -/
theorem recordChunk_leads {n : ℕ}
    (hvalid : (advanced S d.transfer.state d.slot.content n).validate = .ok ())
    (hs : d.transfer.state.committedOffset+n ≤ d.slot.content.bytes.length)
    (htemp : d.slot.temp.current = true) :
    Leads (recordChunk S n) d
      (fun _ d' =>
        d'.transfer = {d.transfer with state := advanced S d.transfer.state d.slot.content n} ∧
        d'.slot = d.slot.stored (advanced S d.transfer.state d.slot.content n) ∧
        d'.offered = d.offered++[advanced S d.transfer.state d.slot.content n])
      (fun _ d' => (d'.slot = d.slot ∨
          d'.slot = d.slot.renamed (advanced S d.transfer.state d.slot.content n)) ∧
        ¬(Spared d.script ∧ Spared d.script.tail) ∧
        ∀ s ∈ d'.offered, s ∈ d.offered ∨ s = advanced S d.transfer.state d.slot.content n) := by
  unfold recordChunk
  have happended : ∀ s ∈ d.offered++[advanced S d.transfer.state d.slot.content n],
      s ∈ d.offered ∨ s = advanced S d.transfer.state d.slot.content n :=
    fun s hs => (List.mem_append.mp hs).imp id List.mem_singleton.mp
  refine Leads.update_bind (Leads.read_bind (Leads.bind (hashPrefix_leads (fun _ _ => ?_)
    (fun hno => ⟨.inl rfl,fun hsp => ?_,fun _ hs => .inl hs⟩))))
  · refine Leads.update_bind (storeState_leads (fun _ => ⟨rfl,rfl,rfl⟩)
      (fun rest hno => ⟨.inl rfl,fun hsp => ?_,happended⟩)
      (fun n _ hcut => ⟨.inr rfl,fun hsp => hsp.2 _ hcut,happended⟩))
    rcases hno with hno | hno
    · exact hno hsp.2
    · exact hno hvalid
  · rcases hno with hno | hno
    · exact hno hsp.1
    · exact hno ⟨htemp,hs⟩

section Commit
variable {t : ActiveTransfer} {slot : Slot} {script : Script} {offered : List TransferState}

/-- The slot with the chunk written and synchronized. -/
def chunkSynced (slot : Slot) (offset : ℕ) (data : Bytes) : Slot :=
  {slot with content := (slot.content.write offset data).sync}

theorem chunkSynced_near (h : Near S tidy slot t.state)
    (hlt : t.state.committedOffset < t.state.fileSize) (data : Bytes) :
    Near S tidy (chunkSynced slot t.state.committedOffset data) t.state :=
  (h.writeContent hlt data).syncContent

theorem chunkSynced_bounded {data : Bytes} (h : Good S tidy slot t)
    (hroom : t.state.committedOffset+data.length ≤ t.state.fileSize)
    (ha : t.state.terminal = .active) :
    (overwrite slot.content.bytes t.state.committedOffset data).length ≤ t.state.fileSize := by
  rw [length_overwrite h.held.backed.offset_le_length]
  exact max_le (h.bounded ha) hroom

/-- A part of the chunk has been written, perhaps synchronized. -/
theorem written_after {data : Bytes} {content : Content Byte} {file : Bool}
    (h : Good S tidy slot t) (hq : calm → Quiet t.state)
    (hroom : t.state.committedOffset+data.length ≤ t.state.fileSize)
    (hn : Near S tidy {slot with content := content} t.state)
    (hc : content.bytes = overwrite slot.content.bytes t.state.committedOffset data)
    (script' : Script) :
    After S tidy calm ⟨t,slot,script,offered⟩
      ⟨{t with file := file},{slot with content := content},script',offered⟩ where
  terms := rfl
  offset := rfl
  bytes := by
    change content.bytes.take _ = _
    rw [hc]
    exact take_overwrite h.held.backed.offset_le_length le_rfl
  offers _ _ hs := .inl hs
  quiet := hq
  near := hn
  present := id
  bounded ha := by
    change content.bytes.length ≤ _
    rw [hc]
    exact chunkSynced_bounded h hroom ha
  cancelled := h.cancelled

end Commit

theorem commitChunk_leads {c : FileChunk} (h : Good S tidy d.slot d.transfer)
    (hq : calm → Quiet d.transfer.state) (hf : Fits d.transfer c.data) :
    Leads (commitChunk S c) d (fun _ => Committed S tidy d c.data)
      (fun _ d' => (After S tidy calm d d' ∧ d'.slot.entry = d.slot.entry) ∨
        (¬SparesCommit d.script ∧ Torn S tidy d c.data d')) := by
  obtain ⟨t,slot,script,offered⟩ := d
  obtain ⟨hactive,hdeferred,hne,hroom⟩ := hf
  dsimp only at h hactive hdeferred hne hroom
  have hlen := h.held.backed.offset_le_length
  have hlt : t.state.committedOffset < t.state.fileSize := by omega
  have hquiet : ∀ file rest, After S tidy calm ⟨t,slot,script,offered⟩
      ⟨{t with file := file},slot,rest,offered⟩ :=
    fun file rest => (After.refl h hq).congr rfl rfl rfl rfl
  have hpart : ∀ n, t.state.committedOffset+(c.data.take n).length ≤ t.state.fileSize := by
    intro n
    rw [List.length_take]
    omega
  have hsynced := chunkSynced_near h.toNear hlt c.data
  have hgrown : t.state.committedOffset+c.data.length ≤
      (overwrite slot.content.bytes t.state.committedOffset c.data).length := by
    rw [length_overwrite hlen]
    exact le_max_right _ _
  have hbytes : (overwrite slot.content.bytes t.state.committedOffset c.data).take
      (t.state.committedOffset+c.data.length) =
        slot.content.bytes.take t.state.committedOffset++c.data := take_overwrite_append hlen
  have hheld := held_advanced hsynced hactive hdeferred hne hroom hgrown
  have hvalid := validate_ok.mpr ⟨hheld.backed.version,hheld.backed.wellFormed,
    .inl (show (advanced S t.state _ _).deferredError = none from hdeferred)⟩
  unfold commitChunk
  refine Leads.read_bind (Leads.bind (openExisting_leads (fun htemp => ?_)
    (fun _ => .inl ⟨hquiet t.file _,rfl⟩)))
  refine Leads.update_bind (Leads.bind (look_leads ?_ (fun _ => .inl ⟨hquiet true _,rfl⟩)))
  refine Leads.bind (fsCall_leads ?_ (fun _ => .inl ⟨hquiet true _,rfl⟩) (fun n _ => .inl
    ⟨written_after h hq (hpart n) (h.toNear.writeContent hlt _) rfl _,rfl⟩))
  refine Leads.bind (fsCall_leads ?_
    (fun _ => .inl ⟨written_after h hq hroom (h.toNear.writeContent hlt _) rfl _,rfl⟩)
    (fun _ _ => .inl ⟨written_after h hq hroom hsynced rfl _,rfl⟩))
  refine (recordChunk_leads (d := ⟨{t with file := true},
    chunkSynced slot t.state.committedOffset c.data,_,offered⟩) hvalid hgrown htemp).mono
    (fun _ d' hd => ?_) (fun _ d' hd => ?_)
  · obtain ⟨t',slot',script',offered'⟩ := d'
    obtain ⟨rfl,rfl,rfl⟩ := hd
    refine ⟨⟨.of_single (hheld.entry _) hvalid rfl,fun ha => ?_,h.cancelled⟩,rfl,rfl,rfl,rfl,rfl,
      hbytes,fun s hs => ?_,fun hn => ?_⟩
    · exact chunkSynced_bounded h hroom ha
    · rcases List.mem_append.mp hs with hs | hs
      · exact .inl hs
      · rw [List.mem_singleton.mp hs]
        exact .inr hvalid
    · cases List.mem_singleton.mp hn
  · obtain ⟨t',slot',script',offered'⟩ := d'
    obtain ⟨hslot,hno,hoffered⟩ := hd
    have hoffers : ∀ s ∈ offered', s ∈ offered ∨ s.validate = .ok () := by
      intro s hs
      rcases hoffered s hs with hs | rfl
      · exact .inl hs
      · exact .inr hvalid
    refine .inr ⟨fun hsp => hno ⟨?_,?_⟩,?_⟩
    · simpa [← List.drop_one] using hsp.1
    · simpa [← List.drop_one] using hsp.2
    · have hkept : (overwrite slot.content.bytes t.state.committedOffset c.data).take
          t.state.committedOffset = slot.content.bytes.take t.state.committedOffset :=
        take_overwrite hlen le_rfl
      rcases hslot with rfl | rfl
      · exact ⟨hsynced.sound,hkept,fun e he => .inl he,hoffers⟩
      · refine ⟨hsynced.sound.write hheld hvalid (fun s hs => (h.agrees s hs).1),hkept,
          fun e he => ?_,hoffers⟩
        rcases List.mem_cons.mp he with rfl | he
        · exact .inr ⟨_,rfl,rfl,rfl,hbytes⟩
        · exact .inl he

theorem Committed.unmoved {data : Bytes} {d' d'' : Desk} (h : Committed S tidy d data d')
    (hu : Unmoved d' d'') : Committed S tidy d data d'' where
  good := by
    rw [hu.slot]
    exact h.good.congr hu.state hu.cancelled
  terms := by rw [hu.state,h.terms]
  terminal := by rw [hu.state,h.terminal]
  deferred := by rw [hu.state,h.deferred]
  cancelled := by rw [hu.cancelled,h.cancelled]
  offset := by rw [hu.state,h.offset]
  bytes := by rw [hu.slot,h.bytes]
  offers := by
    rw [hu.offered]
    exact h.offers
  present := by
    rw [hu.slot]
    exact h.present

/-- A chunk is counted, repeats what is there or is committed at the offset; a
failed commit that is not spared may leave memory ahead of the slot. -/
theorem chunk_leads (c : FileChunk) (h : Good cfg.suite tidy d.slot d.transfer)
    (hq : calm → Quiet d.transfer.state) :
    Leads (chunk cfg c) d
      (fun r d' => (∀ a ∈ r, Reports d' a) ∧ d.transfer.cancelled = false ∧
        (Unmoved d d' ∨
          (c.offset = d.transfer.state.committedOffset ∧ Committed cfg.suite tidy d c.data d')))
      (fun _ d' => (After cfg.suite tidy calm d d' ∧ d'.slot.entry = d.slot.entry) ∨
        (c.offset = d.transfer.state.committedOffset ∧ ¬SparesCommit d.script ∧
          Torn cfg.suite tidy d c.data d')) := by
  have hquiet : ∀ {d'}, Unmoved d d' →
      (After cfg.suite tidy calm d d' ∧ d'.slot.entry = d.slot.entry) :=
    fun hu => ⟨hu.after h hq,by rw [hu.slot]⟩
  have hself : Unmoved d d := ⟨rfl,rfl,rfl,rfl⟩
  unfold chunk
  refine Leads.read_bind (Leads.demand_bind (fun _ => ?_) (fun _ => .inl (hquiet hself)))
  refine Leads.demand_bind (fun hcancelled => ?_) (fun _ => .inl (hquiet hself))
  refine Leads.demand_bind (fun hactive => ?_) (fun _ => .inl (hquiet hself))
  refine Leads.attempt_bind (fun _ _ => ?_) (fun _ _ => .inl (hquiet hself))
  refine Leads.ite (fun _ => ?_) (fun hdeferred => Leads.ite (fun _ => ?_) (fun _ => ?_))
  · exact (checkpoint_leads _).mono (fun _ _ hd => ⟨hd.1.reports hd.2,hcancelled,.inl hd.1⟩)
      (fun _ _ hf => hf.elim)
  · exact (repeated_leads c).mono (fun _ _ hd => ⟨hd.1.reports hd.2,hcancelled,.inl hd.1⟩)
      (fun _ _ hu => .inl (hquiet hu))
  · refine Leads.attempt_bind (fun _ hb => ?_) (fun _ _ => .inl (hquiet hself))
    obtain ⟨hoffset,hne,hroom⟩ := validateStreamBounds_ok hb
    have hfits : Fits d.transfer c.data :=
      ⟨hactive,by simpa using hdeferred,hne,by rw [← hoffset]; exact hroom⟩
    refine Leads.bind ((@commitChunk_leads cfg.suite tidy calm d c h hq hfits).mono
      (fun _ d₁ hd₁ => ?_) (fun _ d₁ hd₁ => ?_))
    · refine (checkpoint_leads _).mono (fun _ d₂ hd₂ => ?_) (fun _ _ hf => hf.elim)
      exact ⟨hd₂.1.reports hd₂.2,hcancelled,.inr ⟨hoffset,hd₁.unmoved hd₂.1⟩⟩
    · exact hd₁.imp id (fun ht => ⟨hoffset,ht⟩)

/-! ## Publication -/

theorem closeFile_after {d₀ : Desk} (h : After S tidy calm d₀ d) :
    Leads closeFile d
      (fun _ d' => After S tidy calm d₀ d' ∧ d'.transfer.state = d.transfer.state ∧
        d'.transfer.cancelled = d.transfer.cancelled)
      (fun _ => After S tidy calm d₀) := by
  unfold closeFile
  refine Leads.read_bind (Leads.ite (fun _ => Leads.update_bind ?_) (fun _ => ?_))
  · have hclosed : After S tidy calm d₀ {d with transfer := {d.transfer with file := false}} :=
      h.congr rfl rfl rfl rfl
    have hsynced : After S tidy calm d₀ ⟨{d.transfer with file := false},
        {d.slot with content := d.slot.content.sync},d.script.tail,d.offered⟩ :=
      hclosed.slot hclosed.near.syncContent rfl rfl
    exact fsCall_leads ⟨hsynced,rfl,rfl⟩ (fun _ => hclosed.congr rfl rfl rfl rfl)
      (fun _ _ => hsynced)
  · exact Leads.pure ⟨h,rfl,rfl⟩

/-- The published name appears for a complete file. -/
theorem hardLink_after {d₀ : Desk} (h : After S tidy calm d₀ d)
    (hc : Complete S d.slot.content d.transfer.state) (hf : ¬Failed d.transfer.state) :
    Leads hardLink d
      (fun _ d' => After S tidy calm d₀ d' ∧
        d' = {d with slot := {d.slot with final := d.slot.final.write true}, script := d.script.tail})
      (fun _ => After S tidy calm d₀) := by
  have hlinked : After S tidy calm d₀
      {d with slot := {d.slot with final := d.slot.final.write true}, script := d.script.tail} :=
    h.slot (h.near.link hc hf) rfl rfl
  unfold hardLink
  refine Leads.read_bind (Leads.demand_bind (fun _ => ?_) (fun _ => h))
  refine Leads.demand_bind (fun _ => ?_) (fun _ => h)
  exact fsCall_leads ⟨hlinked,rfl⟩ (fun _ => h.congr rfl rfl rfl rfl) (fun _ _ => hlinked)

theorem removeTemp_after {d₀ : Desk} (h : After S tidy calm d₀ d)
    (hn : ∀ s, (s = d.transfer.state ∨ some s ∈ d.slot.entry.possible) → s.terminal = .active →
      ∀ f ∈ d.slot.final.possible, f = true) :
    Leads removeTemp d
      (fun _ d' => After S tidy calm d₀ d' ∧
        d' = {d with slot := {d.slot with temp := d.slot.temp.write false}, script := d.script.tail})
      (fun _ d' => After S tidy calm d₀ d' ∧ d'.transfer = d.transfer) := by
  have hdropped : After S tidy calm d₀
      {d with slot := {d.slot with temp := d.slot.temp.write false}, script := d.script.tail} :=
    h.slot (h.near.dropTemp hn) rfl rfl
  exact fsCall_leads ⟨hdropped,rfl⟩ (fun _ => ⟨h.congr rfl rfl rfl rfl,rfl⟩)
    (fun _ _ => ⟨hdropped,rfl⟩)

/-- The names change from the temporary to the published one. -/
theorem publish_leads {size : ℕ} {expected : Block 32} (h : Good S tidy d.slot d.transfer)
    (hsize : size = d.transfer.state.fileSize) (hexpected : expected = d.transfer.state.fileSha256)
    (ho : d.transfer.state.committedOffset = d.transfer.state.fileSize)
    (hactive : d.transfer.state.terminal = .active)
    (hcalm : calm → d.transfer.state.deferredError = none) :
    Leads (publish S size expected) d
      (fun _ d' => After S tidy calm d d' ∧
        ∃ digest, d'.transfer.state.terminal = .published digest false)
      (fun _ => After S tidy calm d) := by
  subst hsize hexpected
  obtain ⟨t,slot,script,offered⟩ := d
  dsimp only at h ho hactive hcalm
  have hfail : ¬Failed t.state := fun hf => hf.not_active hactive
  unfold publish
  refine Leads.bind ((closeFile_after (After.refl h (fun hc => .inl (hcalm hc)))).mono (fun _ d₁ hd₁ => ?_) (fun _ _ => id))
  obtain ⟨t₁,slot₁,script₁,offered₁⟩ := d₁
  obtain ⟨h₁,hs₁,-⟩ := hd₁
  dsimp only at hs₁
  refine Leads.bind (hashPrefix_leads (fun _ _ => ?_) (fun _ => h₁.congr rfl rfl rfl rfl))
  refine Leads.demand_bind (fun hhash => ?_) (fun _ => h₁.congr rfl rfl rfl rfl)
  have hcomplete : Complete S slot₁.content t₁.state := by
    refine .of_hash h₁.near.held.backed ?_ ?_ ?_
    · rw [hs₁]
      exact ho
    · exact h₁.bounded (by rw [hs₁]; exact hactive)
    · rw [hs₁]
      exact hhash
  have hfail₁ : ¬Failed t₁.state := by
    rw [hs₁]
    exact hfail
  have hread : After S tidy calm ⟨t,slot,script,offered⟩ ⟨t₁,slot₁,script₁.tail,offered₁⟩ :=
    h₁.congr rfl rfl rfl rfl
  refine Leads.bind ((hardLink_after hread hcomplete hfail₁).mono (fun _ d₂ hd₂ => ?_)
    (fun _ _ => id))
  obtain ⟨h₂,rfl⟩ := hd₂
  refine Leads.bind ((syncDir_after h₂).mono (fun _ d₃ hd₃ => ?_) (fun _ _ hd => hd.1))
  obtain ⟨h₃,rfl⟩ := hd₃
  refine Leads.bind ((removeTemp_after h₃ (fun _ _ _ f hf => List.mem_singleton.mp hf)).mono
    (fun _ d₄ hd₄ => ?_) (fun _ _ hd => hd.1))
  obtain ⟨h₄,rfl⟩ := hd₄
  refine Leads.bind ((syncDir_after h₄).mono (fun _ d₅ hd₅ => ?_) (fun _ _ hd => hd.1))
  obtain ⟨h₅,rfl⟩ := hd₅
  have hdigest : S.sha256 (slot₁.content.bytes.take t.state.fileSize) = t₁.state.fileSha256 := by
    rw [hs₁]
    exact hhash
  have hpublished : Near S tidy _ {t₁.state with terminal := .published _ false} :=
    h₅.near.published hfail₁ hdigest (fun f hf => List.mem_singleton.mp hf)
  have hrevised := h₅.revise (t := {t₁ with
    state := {t₁.state with terminal := .published _ false}}) hpublished rfl rfl
    (fun hc => .inl (by rw [hs₁]; exact hcalm hc)) (fun ha => by cases ha) (fun _ hf => by
      obtain ⟨code,hcode⟩ := hf
      cases hcode)
  exact Leads.update_bind ((storeState_after hrevised).mono
    (fun _ d₆ hd₆ => ⟨hd₆.1,_,by rw [hd₆.2.1]⟩) (fun _ _ hd => hd.1))

theorem not_failed_of_published {s : TransferState} {digest : Block 32} {delivered : Bool}
    (h : s.terminal = .published digest delivered) : ¬Failed s := by
  rintro ⟨code,hcode⟩
  rw [h] at hcode
  cases hcode

theorem finishUnpublished_leads {f : FileFinish} (h : Good cfg.suite tidy d.slot d.transfer)
    (hq : calm → Quiet d.transfer.state) (htidy : calm → tidy)
    (hp : ∀ digest delivered, d.transfer.state.terminal ≠ .published digest delivered) :
    Leads (finishUnpublished cfg f) d
      (fun a d' => After cfg.suite tidy calm d d' ∧ Reports d' a ∧ ¬Failed d.transfer.state ∧
        ∃ digest delivered, d'.transfer.state.terminal = .published digest delivered)
      (fun _ => After cfg.suite tidy calm d) := by
  have hself : After cfg.suite tidy calm d d := After.refl h hq
  unfold finishUnpublished
  refine Leads.read_bind (Leads.demand_bind (fun hcancelled => ?_) (fun _ => hself))
  refine Leads.demand_bind (fun hf => ?_) (fun _ => hself)
  simp only [not_or,not_not] at hf
  obtain ⟨hsize,hsha,ho⟩ := hf
  have hfail := h.cancelled hcancelled
  have hactive : d.transfer.state.terminal = .active := by
    cases ht : d.transfer.state.terminal with
    | active => rfl
    | failed code => exact absurd ⟨code,ht⟩ hfail
    | published digest delivered => exact absurd ht (hp digest delivered)
  have hundeferred : calm → d.transfer.state.deferredError = none := by
    intro hc
    by_contra hd
    have := h.held.deferred (htidy hc) hd
    omega
  refine Leads.bind ((publish_leads h hsize hsha (ho.trans hsize) hactive hundeferred).mono
    (fun _ d' hd => ?_) (fun _ _ => id))
  obtain ⟨hafter,digest,hdigest⟩ := hd
  refine Leads.pure ⟨hafter,⟨hafter.offset.symm,?_⟩,hfail,digest,false,hdigest⟩
  exact (congrArg TransferState.transferId hafter.terms).symm

theorem finish_leads {f : FileFinish} (h : Good cfg.suite tidy d.slot d.transfer)
    (hq : calm → Quiet d.transfer.state) (htidy : calm → tidy) :
    Leads (finish cfg f) d
      (fun a d' => After cfg.suite tidy calm d d' ∧ Reports d' a ∧ ¬Failed d.transfer.state ∧
        ∃ digest delivered, d'.transfer.state.terminal = .published digest delivered)
      (fun _ => After cfg.suite tidy calm d) := by
  have hself : After cfg.suite tidy calm d d := After.refl h hq
  unfold finish
  refine Leads.read_bind (Leads.demand_bind (fun _ => ?_) (fun _ => hself))
  cases ht : d.transfer.state.terminal with
  | active => exact finishUnpublished_leads h hq htidy (by simp [ht])
  | failed code => exact finishUnpublished_leads h hq htidy (by simp [ht])
  | published digest delivered =>
      exact Leads.pure ⟨hself,⟨rfl,rfl⟩,not_failed_of_published ht,digest,delivered,ht⟩

/-! ## Errors, delivery and the end of a transfer -/

theorem ackCode_ne_ok (error : ReceiverError) : error.ackCode ≠ .ok := by
  cases error <;> exact fun h => by cases h

theorem deferError_leads {code : AckCode} (h : Good S tidy d.slot d.transfer) (hcode : code ≠ .ok)
    (hactive : d.transfer.state.terminal = .active)
    (hlt : tidy → d.transfer.state.committedOffset < d.transfer.state.fileSize) :
    Leads (deferError code) d (fun _ => After S tidy calm d) (fun _ => After S tidy calm d) := by
  have hself : After S tidy calm d d := After.refl h (fun _ => .inr hactive)
  unfold deferError
  refine Leads.read_bind (Leads.ite (fun _ => ?_) (fun _ => Leads.pure hself))
  have hdeferred := h.toNear.deferred hcode hlt
  have hrevised := hself.revise (t := {d.transfer with
    state := {d.transfer.state with deferredError := some code}}) hdeferred rfl rfl
    (fun _ => .inr hactive) id h.cancelled
  exact Leads.update_bind ((storeState_after hrevised).mono (fun _ _ hd => hd.1)
    (fun _ _ hd => hd.1))

theorem errorUnpublished_leads {error : ReceiverError} (h : Good S tidy d.slot d.transfer)
    (hq : calm → Quiet d.transfer.state)
    (hside : tidy → ¬d.transfer.Immediate →
      d.transfer.state.committedOffset < d.transfer.state.fileSize) :
    Leads (errorUnpublished error) d
      (fun r d' => After S tidy calm d d' ∧ ∀ a ∈ r, Reports d' a ∧ a.stage = .error)
      (fun _ => After S tidy calm d) := by
  have hself : After S tidy calm d d := After.refl h hq
  unfold errorUnpublished
  refine Leads.read_bind (Leads.ite (fun _ => ?_) (fun him => ?_))
  · refine Leads.pure ⟨hself,fun a ha => ?_⟩
    cases ha
    exact ⟨⟨rfl,rfl⟩,rfl⟩
  · have hactive : d.transfer.state.terminal = .active := by
      simp only [ActiveTransfer.Immediate,not_or,not_not] at him
      exact him.2.1
    refine Leads.bind ((deferError_leads h (ackCode_ne_ok error) hactive
      (fun ht => hside ht him)).mono (fun _ d₁ h₁ => ?_) (fun _ _ => id))
    refine Leads.ite (fun _ => Leads.update_bind (Leads.pure ?_))
      (fun _ => Leads.update_bind (Leads.pure ?_))
    · refine ⟨h₁.congr rfl rfl rfl rfl,fun a ha => ?_⟩
      cases ha
      exact ⟨⟨h₁.offset.symm,(congrArg TransferState.transferId h₁.terms).symm⟩,rfl⟩
    · exact ⟨h₁.congr rfl rfl rfl rfl,by simp⟩

theorem errorFor_leads {error : ReceiverError} (h : Good S tidy d.slot d.transfer)
    (hq : calm → Quiet d.transfer.state)
    (hside : tidy → ¬d.transfer.Immediate →
      d.transfer.state.committedOffset < d.transfer.state.fileSize) :
    Leads (errorFor error) d
      (fun r d' => After S tidy calm d d' ∧ ∀ a ∈ r, Reports d' a ∧
        (Failed d.transfer.state → a.stage = .error))
      (fun _ => After S tidy calm d) := by
  have hother : Leads (errorUnpublished error) d
      (fun r d' => After S tidy calm d d' ∧ ∀ a ∈ r, Reports d' a ∧
        (Failed d.transfer.state → a.stage = .error))
      (fun _ => After S tidy calm d) :=
    (errorUnpublished_leads h hq hside).mono
      (fun _ _ hd => ⟨hd.1,fun a ha => ⟨(hd.2 a ha).1,fun _ => (hd.2 a ha).2⟩⟩) (fun _ _ => id)
  unfold errorFor
  refine Leads.read_bind ?_
  cases ht : d.transfer.state.terminal with
  | active => exact hother
  | failed code => exact hother
  | published digest delivered =>
      refine Leads.pure ⟨After.refl h hq,fun a ha => ?_⟩
      cases ha
      exact ⟨⟨rfl,rfl⟩,fun hf => absurd hf (not_failed_of_published ht)⟩

theorem markCompleteAckDelivered_leads (h : Good S tidy d.slot d.transfer)
    (hq : calm → Quiet d.transfer.state) :
    Leads markCompleteAckDelivered d (fun _ => After S tidy calm d)
      (fun _ => After S tidy calm d) := by
  have hself : After S tidy calm d d := After.refl h hq
  unfold markCompleteAckDelivered
  refine Leads.read_bind ?_
  cases ht : d.transfer.state.terminal with
  | active => exact Leads.fail hself
  | failed code => exact Leads.fail hself
  | published digest delivered =>
      obtain ⟨hdigest,hnames⟩ := h.held.published digest delivered ht
      have hfail := not_failed_of_published ht
      have hpublished : Near S tidy d.slot
          {d.transfer.state with terminal := .published digest true} :=
        h.toNear.published hfail hdigest hnames
      have hrevised := hself.revise (t := {d.transfer with
        state := {d.transfer.state with terminal := .published digest true}}) hpublished rfl rfl
        (fun hc => .inl ((hq hc).resolve_right (by simp [ht]))) (fun ha => by cases ha)
        (fun _ => not_failed_of_published rfl)
      exact Leads.update_bind ((storeState_after hrevised).mono
        (fun _ _ hd => hd.1) (fun _ _ hd => hd.1))

/-- The transfer in memory after `cancel`. -/
def cancelledTransfer (t : ActiveTransfer) : ActiveTransfer :=
  {t with
    cancelled := true
    file := false
    state := {t.state with terminal := .failed .internal}}

theorem cancel_leads (h : Good S tidy d.slot d.transfer)
    (hcalm : calm → d.transfer.state.deferredError = none) :
    Leads cancel d
      (fun _ d' => After S tidy calm d d' ∧ d'.transfer = cancelledTransfer d.transfer ∧
        d'.slot = d.slot.stored (cancelledTransfer d.transfer).state)
      (fun _ d' => After S tidy calm d d' ∧ d'.transfer = cancelledTransfer d.transfer) := by
  have hfailed := h.toNear.failed .internal
  have hself : After S tidy calm d d := After.refl h (fun hc => .inl (hcalm hc))
  have hrevised := hself.revise (t := cancelledTransfer d.transfer) hfailed rfl rfl
    (fun hc => .inl (hcalm hc)) (fun ha => by cases ha) (fun hc => by cases hc)
  unfold cancel
  exact Leads.update_bind (storeState_after hrevised)

theorem removeFinal_after {d₀ : Desk} (h : After S tidy calm d₀ d)
    (hf : Failed d.transfer.state) (he : ∀ s, some s ∈ d.slot.entry.possible → Failed s) :
    Leads removeFinal d
      (fun _ d' => After S tidy calm d₀ d' ∧
        d' = {d with slot := {d.slot with final := d.slot.final.write false}, script := d.script.tail})
      (fun _ d' => After S tidy calm d₀ d' ∧ d'.transfer = d.transfer) := by
  have hdropped : After S tidy calm d₀
      {d with slot := {d.slot with final := d.slot.final.write false}, script := d.script.tail} :=
    h.slot (h.near.dropFinal hf he) rfl rfl
  exact fsCall_leads ⟨hdropped,rfl⟩ (fun _ => ⟨h.congr rfl rfl rfl rfl,rfl⟩)
    (fun _ _ => ⟨hdropped,rfl⟩)

/-- The entry goes last. -/
theorem removeState_leads {d₀ : Desk} (h : After S tidy calm d₀ d) (hf : Failed d.transfer.state)
    (he : ∀ s, some s ∈ d.slot.entry.possible → Failed s)
    (hn : ∀ f ∈ d.slot.final.possible, f = false) :
    Leads removeState d
      (fun _ d' => Steady calm d₀ d' ∧
        d'.slot = {d.slot with entry := (d.slot.entry.write none).sync})
      (fun _ d' => Steady calm d₀ d' ∧ Good S tidy d'.slot d'.transfer ∧
        d'.transfer = d.transfer) := by
  have hsteady : ∀ entry script, Steady calm d₀
      {d with slot := {d.slot with entry := entry}, script := script} :=
    fun _ _ => ⟨h.terms,h.offset,h.bytes,h.offers,h.quiet⟩
  exact fsCall_leads ⟨hsteady _ _,rfl⟩ (fun _ => ⟨hsteady _ _,h.good,rfl⟩)
    (fun _ _ => ⟨hsteady _ _,⟨h.near.vanish hf he hn,h.bounded,h.cancelled⟩,rfl⟩)

/-- A release leaves nothing behind; an interrupted one leaves a failed transfer. -/
theorem release_leads (h : Good S tidy d.slot d.transfer)
    (hcalm : calm → d.transfer.state.deferredError = none) :
    Leads release d
      (fun _ d' => Steady calm d d' ∧ Vacant d'.slot ∧ d'.slot.temp.possible = [false])
      (fun _ d' => Steady calm d d' ∧ Good S tidy d'.slot d'.transfer ∧
        d'.transfer = cancelledTransfer d.transfer) := by
  obtain ⟨t,slot,script,offered⟩ := d
  unfold release
  refine Leads.bind ((cancel_leads h hcalm).mono (fun _ d₁ hd₁ => ?_)
    (fun _ d₁ hd₁ => ⟨hd₁.1.toSteady,hd₁.1.good,hd₁.2⟩))
  obtain ⟨t₁,slot₁,script₁,offered₁⟩ := d₁
  obtain ⟨h₁,ht₁,hslot₁⟩ := hd₁
  dsimp only at ht₁ hslot₁
  subst ht₁ hslot₁
  have hfailed : Failed (cancelledTransfer t).state := ⟨_,rfl⟩
  have hall : ∀ s, some s ∈ (slot.stored (cancelledTransfer t).state).entry.possible →
      Failed s := by
    intro s hs
    cases List.mem_singleton.mp hs
    exact hfailed
  have hactive : ∀ s, (s = (cancelledTransfer t).state ∨
      some s ∈ (slot.stored (cancelledTransfer t).state).entry.possible) →
      s.terminal ≠ .active := by
    rintro s (rfl | hs)
    · exact hfailed.not_active
    · exact (hall s hs).not_active
  refine Leads.bind ((removeTemp_after h₁ (fun s hs ha => absurd ha (hactive s hs))).mono
    (fun _ d₂ hd₂ => ?_) (fun _ d₂ hd₂ => ⟨hd₂.1.toSteady,hd₂.1.good,hd₂.2⟩))
  obtain ⟨h₂,rfl⟩ := hd₂
  refine Leads.bind ((removeFinal_after h₂ hfailed hall).mono
    (fun _ d₃ hd₃ => ?_) (fun _ d₃ hd₃ => ⟨hd₃.1.toSteady,hd₃.1.good,hd₃.2⟩))
  obtain ⟨h₃,rfl⟩ := hd₃
  refine Leads.bind ((syncDir_after h₃).mono
    (fun _ d₄ hd₄ => ?_) (fun _ d₄ hd₄ => ⟨hd₄.1.toSteady,hd₄.1.good,hd₄.2⟩))
  obtain ⟨h₄,rfl⟩ := hd₄
  refine (removeState_leads h₄ hfailed hall (fun f hf => List.mem_singleton.mp hf)).mono
    (fun _ d₅ hd₅ => ?_) (fun _ d₅ hd₅ => hd₅)
  obtain ⟨hsteady,hslot⟩ := hd₅
  refine ⟨hsteady,?_,by rw [hslot]; rfl⟩
  rw [hslot]
  exact ⟨fun e he => List.mem_singleton.mp he,fun f hf => List.mem_singleton.mp hf⟩

end Operations

end Gcoms.FileTransfers
