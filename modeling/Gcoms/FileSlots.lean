import Gcoms.FileReceiver

/-!
# What is stored for a transfer

A journal entry is backed by the stored file when the committed part of the file
is on the medium and has the recorded hash. The published name exists only for a
complete file with the announced hash, and an active entry always has one of the
two names. `Sound` says this of every entry a crash may leave; `Good` adds that
the transfer in memory agrees with all of them. The lemmas below follow single
calls of the file system.
-/
namespace Gcoms.FileSlots
open ByteCodec Primitives Fallible SortedMaps Writeback FileRecords FileReceiver

/-- The part of an entry that never changes. -/
def terms (s : TransferState) : TransferState :=
  {s with
    committedOffset := 0
    committedSha256 := s.fileSha256
    deferredError := none
    terminal := .active}

theorem terms_fileSize {s s' : TransferState} (h : terms s = terms s') : s.fileSize = s'.fileSize := by
  have := congrArg TransferState.fileSize h
  exact this

theorem terms_fileSha256 {s s' : TransferState} (h : terms s = terms s') :
    s.fileSha256 = s'.fileSha256 := by
  have := congrArg TransferState.fileSha256 h
  exact this

def Failed (s : TransferState) : Prop := ∃ code, s.terminal = .failed code

section Slots
variable {S : Suite} {tidy : Prop} {slot : Slot} {s s' : TransferState}

/-- The committed part of the file is on the medium and has the recorded hash. -/
structure Backed (S : Suite) (content : Content Byte) (s : TransferState) : Prop where
  version : s.version = journalVersion
  wellFormed : s.WellFormed
  synced : s.committedOffset ≤ content.synced
  hash : s.committedSha256 = S.sha256 (content.bytes.take s.committedOffset)

/-- The whole file is on the medium and is the announced one. -/
structure Complete (S : Suite) (content : Content Byte) (s : TransferState) : Prop where
  offset : s.committedOffset = s.fileSize
  length : content.bytes.length = s.fileSize
  synced : content.synced = content.bytes.length
  hash : S.sha256 content.bytes = s.fileSha256

/-- An entry that agrees with the stored file under all names a crash may leave.
In a tidy slot no error is deferred once the file is complete. -/
structure Held (S : Suite) (tidy : Prop) (slot : Slot) (s : TransferState) : Prop where
  backed : Backed S slot.content s
  linked : true ∈ slot.final.possible → Complete S slot.content s
  named : s.terminal = .active → ∀ t ∈ slot.temp.possible, ∀ f ∈ slot.final.possible,
    f = true ∨ t = true
  published : ∀ digest delivered, s.terminal = .published digest delivered →
    digest = s.fileSha256 ∧ ∀ f ∈ slot.final.possible, f = true
  deferred : tidy → s.deferredError ≠ none → s.committedOffset < s.fileSize

structure Sound (S : Suite) (tidy : Prop) (slot : Slot) : Prop where
  entries : ∀ s, some s ∈ slot.entry.possible → Held S tidy slot s ∧ s.validate = .ok ()
  absent : none ∈ slot.entry.possible → ∀ f ∈ slot.final.possible, f = false
  alike : ∀ s s', some s ∈ slot.entry.possible → some s' ∈ slot.entry.possible →
    terms s = terms s'

/-- A state in memory that agrees with all entries of its slot. -/
structure Near (S : Suite) (tidy : Prop) (slot : Slot) (s : TransferState) : Prop where
  sound : Sound S tidy slot
  held : Held S tidy slot s
  agrees : ∀ s', some s' ∈ slot.entry.possible → terms s' = terms s ∧
    s'.committedOffset = s.committedOffset
  vanishing : none ∈ slot.entry.possible → Failed s ∧
    ∀ s', some s' ∈ slot.entry.possible → Failed s'

/-- A transfer that has been opened or started. -/
structure Good (S : Suite) (tidy : Prop) (slot : Slot) (t : ActiveTransfer) : Prop extends
    Near S tidy slot t.state where
  bounded : t.state.terminal = .active → slot.content.bytes.length ≤ t.state.fileSize
  cancelled : t.cancelled = false → ¬Failed t.state

theorem validate_ok : s.validate = .ok () ↔ s.version = journalVersion ∧ s.WellFormed ∧
    (s.deferredError = none ∨ s.terminal = .active) := by
  simp only [TransferState.validate,sequence_eq_ok,require_eq_ok]
  constructor
  · rintro ⟨-,hversion,h⟩
    simp only [not_or,not_not,not_and_or] at h
    obtain ⟨hprofile,hbatch,hchunk,hoffset,hcode,hdeferred,htemp,hfinal,hnames⟩ := h
    refine ⟨hversion,⟨hprofile,hbatch,hchunk,not_lt.mp hoffset,hcode,htemp,hfinal,hnames⟩,?_⟩
    refine hdeferred.imp (fun hd => ?_) id
    simpa using hd
  · rintro ⟨hversion,hw,hd⟩
    refine ⟨(),hversion,?_⟩
    simp only [not_or,not_not,not_and_or]
    refine ⟨hw.profileVersion,hw.batchChunks,hw.chunkSize,not_lt.mpr hw.committedOffset,
      hw.deferredError,?_,hw.tempName,hw.finalName,hw.names⟩
    refine hd.imp (fun hd => ?_) id
    simp [hd]

/-! ## Agreement between entries -/

theorem Complete.of_terms {content : Content Byte} (h : Complete S content s)
    (ht : terms s' = terms s) (ho : s'.committedOffset = s.committedOffset) :
    Complete S content s' where
  offset := by rw [ho,h.offset,terms_fileSize ht]
  length := by rw [h.length,terms_fileSize ht]
  synced := h.synced
  hash := by rw [h.hash,terms_fileSha256 ht]

theorem Backed.offset_le_length {content : Content Byte} (h : Backed S content s) :
    s.committedOffset ≤ content.bytes.length := h.synced.trans content.bound

/-- A complete file is the committed part of its entry. -/
theorem Complete.of_hash {content : Content Byte} (h : Backed S content s)
    (ho : s.committedOffset = s.fileSize) (hl : content.bytes.length ≤ s.fileSize)
    (hh : S.sha256 (content.bytes.take s.fileSize) = s.fileSha256) : Complete S content s := by
  have hb := content.bound
  have hs := h.synced
  have hlen : content.bytes.length = s.fileSize := by omega
  refine ⟨ho,hlen,by omega,?_⟩
  rw [← hlen,List.take_length] at hh
  exact hh

/-! ## Changes of the content -/

/-- `Held` looks at the content through the committed part, unless a published
name may exist; then the content must not change. -/
theorem Held.content {content : Content Byte} (h : Held S tidy slot s)
    (hs : s.committedOffset ≤ content.synced)
    (hb : content.bytes.take s.committedOffset = slot.content.bytes.take s.committedOffset)
    (hl : true ∈ slot.final.possible → content.bytes = slot.content.bytes ∧
      content.synced = content.bytes.length) :
    Held S tidy {slot with content := content} s where
  backed := ⟨h.backed.version,h.backed.wellFormed,hs,by rw [hb]; exact h.backed.hash⟩
  linked hf := by
    obtain ⟨hbytes,hsync⟩ := hl hf
    have hc := h.linked hf
    exact ⟨hc.offset,by rw [hbytes]; exact hc.length,hsync,by rw [hbytes]; exact hc.hash⟩
  named := h.named
  published := h.published
  deferred := h.deferred

theorem Near.content {content : Content Byte} (h : Near S tidy slot s)
    (hs : s.committedOffset ≤ content.synced)
    (hb : content.bytes.take s.committedOffset = slot.content.bytes.take s.committedOffset)
    (hl : true ∈ slot.final.possible → content.bytes = slot.content.bytes ∧
      content.synced = content.bytes.length) :
    Near S tidy {slot with content := content} s where
  sound :=
    { entries := fun s' hs' => by
        obtain ⟨hheld,hvalid⟩ := h.sound.entries s' hs'
        have ho := (h.agrees s' hs').2
        exact ⟨hheld.content (by rw [ho]; exact hs) (by rw [ho]; exact hb) hl,hvalid⟩
      absent := h.sound.absent
      alike := h.sound.alike }
  held := h.held.content hs hb hl
  agrees := h.agrees
  vanishing := h.vanishing

theorem Near.syncContent (h : Near S tidy slot s) :
    Near S tidy {slot with content := slot.content.sync} s :=
  h.content h.held.backed.offset_le_length rfl (fun _ => ⟨rfl,rfl⟩)

/-- The published name is out of reach before the file is complete. -/
theorem Near.unlinked (h : Near S tidy slot s) (ho : s.committedOffset < s.fileSize) :
    true ∉ slot.final.possible := by
  intro hf
  have := (h.held.linked hf).offset
  omega

/-- Bytes are written behind the committed part of an incomplete file. -/
theorem Near.writeContent (h : Near S tidy slot s) (hlt : s.committedOffset < s.fileSize)
    (data : Bytes) :
    Near S tidy {slot with content := slot.content.write s.committedOffset data} s := by
  refine h.content ?_ ?_ (fun hf => absurd hf (h.unlinked hlt))
  · rw [Content.write_synced]
    exact le_min h.held.backed.synced le_rfl
  · rw [Content.write_bytes,take_overwrite h.held.backed.offset_le_length le_rfl]

theorem Near.truncateContent (h : Near S tidy slot s) (hf : true ∉ slot.final.possible) :
    Near S tidy {slot with content := slot.content.truncate s.committedOffset} s := by
  refine h.content ?_ ?_ (fun ht => absurd ht hf)
  · rw [Content.truncate_synced]
    exact le_min h.held.backed.synced le_rfl
  · rw [Content.truncate_bytes,List.take_take,Nat.min_self]

/-! ## Changes of the names -/

/-- Fewer names are possible than before. -/
theorem Held.narrow {temp final : Cell Bool} (h : Held S tidy slot s)
    (ht : ∀ b ∈ temp.possible, b ∈ slot.temp.possible)
    (hf : ∀ b ∈ final.possible, b ∈ slot.final.possible) :
    Held S tidy {slot with temp := temp, final := final} s where
  backed := h.backed
  linked htrue := h.linked (hf _ htrue)
  named ha t hmt f hmf := h.named ha t (ht t hmt) f (hf f hmf)
  published digest delivered hp :=
    ⟨(h.published digest delivered hp).1,fun f hmf => (h.published digest delivered hp).2 f (hf f hmf)⟩
  deferred := h.deferred

theorem Sound.narrow {temp final : Cell Bool} (h : Sound S tidy slot)
    (ht : ∀ b ∈ temp.possible, b ∈ slot.temp.possible)
    (hf : ∀ b ∈ final.possible, b ∈ slot.final.possible) :
    Sound S tidy {slot with temp := temp, final := final} where
  entries s hs := ⟨(h.entries s hs).1.narrow ht hf,(h.entries s hs).2⟩
  absent hn f hmf := h.absent hn f (hf f hmf)
  alike := h.alike

theorem Near.narrow {temp final : Cell Bool} (h : Near S tidy slot s)
    (ht : ∀ b ∈ temp.possible, b ∈ slot.temp.possible)
    (hf : ∀ b ∈ final.possible, b ∈ slot.final.possible) :
    Near S tidy {slot with temp := temp, final := final} s :=
  ⟨h.sound.narrow ht hf,h.held.narrow ht hf,h.agrees,h.vanishing⟩

theorem Near.syncNames (h : Near S tidy slot s) : Near S tidy slot.syncNames s :=
  h.narrow (fun _ => Cell.mem_of_mem_sync) (fun _ => Cell.mem_of_mem_sync)

/-- The published name appears for a complete file. -/
theorem Held.link (h : Held S tidy slot s) (hc : Complete S slot.content s) :
    Held S tidy {slot with final := slot.final.write true} s where
  backed := h.backed
  linked _ := hc
  named ha t hmt f hmf := by
    rcases List.mem_cons.mp hmf with rfl | hmf
    · exact .inl rfl
    · exact h.named ha t hmt f hmf
  published digest delivered hp := by
    refine ⟨(h.published digest delivered hp).1,fun f hmf => ?_⟩
    rcases List.mem_cons.mp hmf with rfl | hmf
    · rfl
    · exact (h.published digest delivered hp).2 f hmf
  deferred := h.deferred

theorem Near.link (h : Near S tidy slot s) (hc : Complete S slot.content s) (hf : ¬Failed s) :
    Near S tidy {slot with final := slot.final.write true} s where
  sound :=
    { entries := fun s' hs' => by
        obtain ⟨hheld,hvalid⟩ := h.sound.entries s' hs'
        obtain ⟨hterms,ho⟩ := h.agrees s' hs'
        exact ⟨hheld.link (hc.of_terms hterms ho),hvalid⟩
      absent := fun hn => absurd (h.vanishing hn).1 hf
      alike := h.sound.alike }
  held := h.held.link hc
  agrees := h.agrees
  vanishing := h.vanishing

/-- The temporary name may go when the published one is there for certain, or
when the entry is no longer active. -/
theorem Held.dropTemp (h : Held S tidy slot s)
    (hn : s.terminal = .active → ∀ f ∈ slot.final.possible, f = true) :
    Held S tidy {slot with temp := slot.temp.write false} s where
  backed := h.backed
  linked := h.linked
  named ha _ _ f hmf := .inl (hn ha f hmf)
  published := h.published
  deferred := h.deferred

theorem Sound.dropTemp (h : Sound S tidy slot)
    (hn : ∀ s, some s ∈ slot.entry.possible → s.terminal = .active →
      ∀ f ∈ slot.final.possible, f = true) :
    Sound S tidy {slot with temp := slot.temp.write false} where
  entries s hs := ⟨(h.entries s hs).1.dropTemp (hn s hs),(h.entries s hs).2⟩
  absent := h.absent
  alike := h.alike

theorem Near.dropTemp (h : Near S tidy slot s)
    (hn : ∀ s', (s' = s ∨ some s' ∈ slot.entry.possible) → s'.terminal = .active →
      ∀ f ∈ slot.final.possible, f = true) :
    Near S tidy {slot with temp := slot.temp.write false} s where
  sound := h.sound.dropTemp (fun s' hs' => hn s' (.inr hs'))
  held := h.held.dropTemp (hn s (.inl rfl))
  agrees := h.agrees
  vanishing := h.vanishing

theorem Failed.not_active (h : Failed s) : s.terminal ≠ .active := by
  obtain ⟨code,hcode⟩ := h
  rw [hcode]
  exact fun h => by cases h

/-- Both names may go once the transfer has failed. -/
theorem Held.dropFinal (h : Held S tidy slot s) (hs : Failed s) :
    Held S tidy {slot with final := slot.final.write false} s where
  backed := h.backed
  linked htrue := by
    rcases List.mem_cons.mp htrue with heq | htrue
    · cases heq
    · exact h.linked htrue
  named ha := absurd ha hs.not_active
  published digest delivered hp := by
    obtain ⟨code,hcode⟩ := hs
    rw [hcode] at hp
    cases hp
  deferred := h.deferred

theorem Near.dropFinal (h : Near S tidy slot s) (hs : Failed s)
    (he : ∀ s', some s' ∈ slot.entry.possible → Failed s') :
    Near S tidy {slot with final := slot.final.write false} s where
  sound :=
    { entries := fun s' hs' =>
        ⟨(h.sound.entries s' hs').1.dropFinal (he s' hs'),(h.sound.entries s' hs').2⟩
      absent := fun hn f hf => by
        rcases List.mem_cons.mp hf with rfl | hf
        · rfl
        · exact h.sound.absent hn f hf
      alike := h.sound.alike }
  held := h.held.dropFinal hs
  agrees := h.agrees
  vanishing := h.vanishing

/-! ## Changes of the entry -/

theorem Held.entry (h : Held S tidy slot s) (entry : Cell (Option TransferState)) :
    Held S tidy {slot with entry := entry} s :=
  ⟨h.backed,h.linked,h.named,h.published,h.deferred⟩

/-- A new entry is added to those a crash may leave. -/
theorem Sound.write (h : Sound S tidy slot) (hs : Held S tidy slot s) (hv : s.validate = .ok ())
    (ha : ∀ s', some s' ∈ slot.entry.possible → terms s' = terms s) :
    Sound S tidy (slot.renamed s) where
  entries s' hs' := by
    rcases List.mem_cons.mp hs' with heq | hs'
    · cases heq
      exact ⟨hs.entry _,hv⟩
    · exact ⟨(h.entries s' hs').1.entry _,(h.entries s' hs').2⟩
  absent hn := by
    rcases List.mem_cons.mp hn with heq | hn
    · cases heq
    · exact h.absent hn
  alike s₁ s₂ h₁ h₂ := by
    rcases List.mem_cons.mp h₁ with heq₁ | h₁ <;> rcases List.mem_cons.mp h₂ with heq₂ | h₂
    · cases heq₁
      cases heq₂
      rfl
    · cases heq₁
      exact (ha s₂ h₂).symm
    · cases heq₂
      exact ha s₁ h₁
    · exact h.alike s₁ s₂ h₁ h₂

/-- The entries a crash may leave after a synchronization are among those before. -/
theorem Sound.narrowEntry {entry : Cell (Option TransferState)} (h : Sound S tidy slot)
    (he : ∀ e ∈ entry.possible, e ∈ slot.entry.possible) :
    Sound S tidy {slot with entry := entry} where
  entries s hs := ⟨(h.entries s (he _ hs)).1.entry _,(h.entries s (he _ hs)).2⟩
  absent hn := h.absent (he _ hn)
  alike s s' hs hs' := h.alike s s' (he _ hs) (he _ hs')

/-- The memory changes what is not fixed by the entries. -/
theorem Near.revise (h : Near S tidy slot s) (hheld : Held S tidy slot s')
    (hterms : terms s' = terms s) (ho : s'.committedOffset = s.committedOffset)
    (hf : Failed s → Failed s') : Near S tidy slot s' where
  sound := h.sound
  held := hheld
  agrees s₁ hs₁ := ⟨(h.agrees s₁ hs₁).1.trans hterms.symm,(h.agrees s₁ hs₁).2.trans ho.symm⟩
  vanishing hn := ⟨hf (h.vanishing hn).1,(h.vanishing hn).2⟩

theorem wellFormed_terminal (h : s.WellFormed) (x : TerminalState) :
    TransferState.WellFormed {s with terminal := x} :=
  ⟨h.profileVersion,h.batchChunks,h.chunkSize,h.committedOffset,h.deferredError,h.tempName,
    h.finalName,h.names⟩

/-- Another terminal state in memory. -/
theorem Held.terminal {x : TerminalState} (h : Held S tidy slot s) (hactive : x ≠ .active)
    (hp : ∀ digest delivered, x = .published digest delivered →
      digest = s.fileSha256 ∧ ∀ f ∈ slot.final.possible, f = true) :
    Held S tidy slot {s with terminal := x} where
  backed := ⟨h.backed.version,wellFormed_terminal h.backed.wellFormed x,h.backed.synced,
    h.backed.hash⟩
  linked hf := (h.linked hf).of_terms rfl rfl
  named ha := absurd ha hactive
  published := hp
  deferred := h.deferred

theorem Near.published {digest : Block 32} {delivered : Bool} (h : Near S tidy slot s)
    (hs : ¬Failed s) (hd : digest = s.fileSha256) (hf : ∀ f ∈ slot.final.possible, f = true) :
    Near S tidy slot {s with terminal := .published digest delivered} := by
  refine h.revise (h.held.terminal (fun ha => by cases ha) (fun digest' delivered' hp => ?_))
    rfl rfl (fun hfail => absurd hfail hs)
  cases hp
  exact ⟨hd,hf⟩

theorem Near.failed (h : Near S tidy slot s) (code : AckCode) :
    Near S tidy slot {s with terminal := .failed code} :=
  h.revise (h.held.terminal (fun ha => by cases ha) (fun _ _ hp => by cases hp)) rfl rfl
    (fun _ => ⟨code,rfl⟩)

/-- An error is deferred. -/
theorem Near.deferred {code : AckCode} (h : Near S tidy slot s) (hcode : code ≠ .ok)
    (hlt : tidy → s.committedOffset < s.fileSize) :
    Near S tidy slot {s with deferredError := some code} := by
  have hw := h.held.backed.wellFormed
  refine h.revise ⟨⟨h.held.backed.version,?_,h.held.backed.synced,h.held.backed.hash⟩,
    fun hf => (h.held.linked hf).of_terms rfl rfl,h.held.named,h.held.published,
    fun ht _ => hlt ht⟩ rfl rfl id
  exact ⟨hw.profileVersion,hw.batchChunks,hw.chunkSize,hw.committedOffset,
    fun hd => hcode (Option.some.inj hd),hw.tempName,hw.finalName,hw.names⟩

theorem Near.renamed (h : Near S tidy slot s) (hv : s.validate = .ok ()) :
    Near S tidy (slot.renamed s) s where
  sound := h.sound.write h.held hv (fun s' hs' => (h.agrees s' hs').1)
  held := h.held.entry _
  agrees s' hs' := by
    rcases List.mem_cons.mp hs' with heq | hs'
    · cases heq
      exact ⟨rfl,rfl⟩
    · exact h.agrees s' hs'
  vanishing hn := by
    rcases List.mem_cons.mp hn with heq | hn
    · cases heq
    · refine ⟨(h.vanishing hn).1,fun s' hs' => ?_⟩
      rcases List.mem_cons.mp hs' with heq | hs'
      · cases heq
        exact (h.vanishing hn).1
      · exact (h.vanishing hn).2 s' hs'

/-- A slot whose only entry is the state in memory. -/
theorem Near.of_single (hheld : Held S tidy slot s) (hv : s.validate = .ok ())
    (he : slot.entry.possible = [some s]) : Near S tidy slot s := by
  have hone : ∀ e ∈ slot.entry.possible, e = some s := by
    rw [he]
    exact fun e hmem => List.mem_singleton.mp hmem
  refine ⟨⟨fun s' hs' => ?_,fun hn => ?_,fun s₁ s₂ h₁ h₂ => ?_⟩,hheld,fun s' hs' => ?_,
    fun hn => ?_⟩
  · cases hone _ hs'
    exact ⟨hheld,hv⟩
  · cases hone _ hn
  · cases hone _ h₁
    cases hone _ h₂
    rfl
  · cases hone _ hs'
    exact ⟨rfl,rfl⟩
  · cases hone _ hn

theorem Near.stored (h : Near S tidy slot s) (hv : s.validate = .ok ()) :
    Near S tidy (slot.stored s) s :=
  .of_single (h.held.entry _) hv rfl

/-- The entry of a failed transfer may go when the published name is gone. -/
theorem Near.vanish (h : Near S tidy slot s) (hs : Failed s)
    (he : ∀ s', some s' ∈ slot.entry.possible → Failed s')
    (hf : ∀ f ∈ slot.final.possible, f = false) :
    Near S tidy {slot with entry := slot.entry.write none} s where
  sound :=
    { entries := fun s' hs' => by
        rcases List.mem_cons.mp hs' with heq | hs'
        · cases heq
        · exact ⟨(h.sound.entries s' hs').1.entry _,(h.sound.entries s' hs').2⟩
      absent := fun _ => hf
      alike := fun s₁ s₂ h₁ h₂ => by
        rcases List.mem_cons.mp h₁ with heq | h₁
        · cases heq
        · rcases List.mem_cons.mp h₂ with heq | h₂
          · cases heq
          · exact h.sound.alike s₁ s₂ h₁ h₂ }
  held := h.held.entry _
  agrees s' hs' := by
    rcases List.mem_cons.mp hs' with heq | hs'
    · cases heq
    · exact h.agrees s' hs'
  vanishing _ := by
    refine ⟨hs,fun s' hs' => ?_⟩
    rcases List.mem_cons.mp hs' with heq | hs'
    · cases heq
    · exact he s' hs'

/-- Only the state and the cancellation of the transfer matter. -/
theorem Good.congr {t t' : ActiveTransfer} (h : Good S tidy slot t) (hs : t'.state = t.state)
    (hc : t'.cancelled = t.cancelled) : Good S tidy slot t' :=
  ⟨hs ▸ h.toNear,by rw [hs]; exact h.bounded,by rw [hs,hc]; exact h.cancelled⟩

/-! ## Crashes -/

theorem Held.crash (h : Held S tidy slot s) (r : Remains) :
    Held S tidy (slot.crash r) s := by
  have hcontent : Held S tidy {slot with content := slot.content.crash r.tail} s := by
    refine h.content (h.backed.synced.trans (Content.synced_crash _ _))
      (Content.take_crash h.backed.synced _) (fun hf => ?_)
    rw [Content.crash_of_synced (h.linked hf).synced]
    exact ⟨rfl,(h.linked hf).synced⟩
  have htemp : ∀ b ∈ (slot.temp.crash r.temp).possible, b ∈ slot.temp.possible :=
    fun _ => Cell.mem_of_mem_crash
  have hfinal : ∀ b ∈ (slot.final.crash r.final).possible, b ∈ slot.final.possible :=
    fun _ => Cell.mem_of_mem_crash
  exact (hcontent.narrow htemp hfinal).entry _

theorem Sound.crash (h : Sound S tidy slot) (r : Remains) : Sound S tidy (slot.crash r) where
  entries s hs := by
    obtain ⟨hheld,hvalid⟩ := h.entries s (Cell.mem_of_mem_crash hs)
    exact ⟨hheld.crash r,hvalid⟩
  absent hn f hf := h.absent (Cell.mem_of_mem_crash hn) f (Cell.mem_of_mem_crash hf)
  alike s s' hs hs' := h.alike s s' (Cell.mem_of_mem_crash hs) (Cell.mem_of_mem_crash hs')

/-- All entries a crash may leave are at the same offset, and an entry that is not
failed is certain to be there. -/
structure Uniform (slot : Slot) : Prop where
  offset : ∀ s s', some s ∈ slot.entry.possible → some s' ∈ slot.entry.possible →
    s.committedOffset = s'.committedOffset
  present : none ∈ slot.entry.possible → ∀ s, some s ∈ slot.entry.possible → Failed s

theorem Near.uniform (h : Near S tidy slot s) : Uniform slot where
  offset s s' hs hs' := (h.agrees s hs).2.trans (h.agrees s' hs').2.symm
  present hn := (h.vanishing hn).2

theorem uniform_crash (slot : Slot) (r : Remains) : Uniform (slot.crash r) := by
  have hone : ∀ e, e ∈ (slot.crash r).entry.possible → e = (slot.crash r).entry.current :=
    fun e he => List.mem_singleton.mp he
  refine ⟨fun s s' hs hs' => ?_,fun hn s hs => ?_⟩
  · rw [Option.some.inj ((hone _ hs).trans (hone _ hs').symm)]
  · cases (hone _ hn).trans (hone _ hs).symm

/-- The current entry of a sound and uniform slot can be taken into memory. -/
theorem Near.of_entry (h : Sound S tidy slot) (hu : Uniform slot)
    (he : slot.entry.current = some s) : Near S tidy slot s := by
  have hmem : some s ∈ slot.entry.possible := he ▸ slot.entry.mem
  exact ⟨h,(h.entries s hmem).1,fun s' hs' => ⟨h.alike s' s hs' hmem,hu.offset s' s hs' hmem⟩,
    fun hn => ⟨hu.present hn s hmem,hu.present hn⟩⟩

/-- A slot that belongs to no transfer. A temporary file may be left in it. -/
structure Vacant (slot : Slot) : Prop where
  entry : ∀ e ∈ slot.entry.possible, e = none
  final : ∀ f ∈ slot.final.possible, f = false

theorem Vacant.sound (h : Vacant slot) : Sound S tidy slot where
  entries s hs := by
    cases h.entry _ hs
  absent _ := h.final
  alike s _ hs := by
    cases h.entry _ hs

theorem blank_vacant : Vacant Slot.blank :=
  ⟨fun _ he => List.mem_singleton.mp he,fun _ hf => List.mem_singleton.mp hf⟩

end Slots

end Gcoms.FileSlots
