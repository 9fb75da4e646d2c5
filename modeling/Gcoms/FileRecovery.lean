import Gcoms.FileTransfers

/-!
# The start of a transfer and its recovery

A transfer starts from a slot that belongs to nobody, and its first entry is
valid for every authorized `FileInit`. `open` takes the entries of the journal
into memory again: a publication that was interrupted is completed, and a
temporary file is cut down to its committed part.
-/
namespace Gcoms.FileRecovery
open ByteCodec Primitives Fallible Commands SortedMaps Writeback FileRecords FileReceiver FileSlots
open FileTransfers

variable {S : Suite} {tidy calm : Prop} {cfg : Config} {d : Desk}

/-! ## The start of a transfer -/

theorem hex_alphanumeric {bs : Bytes} {c : Char} (h : c ∈ hex bs) : c.isAlphanum = true := by
  have hdigit : ∀ n < 16, (hexDigit n).isAlphanum = true := by decide
  simp only [hex,List.mem_flatMap,List.mem_cons,List.not_mem_nil,or_false] at h
  obtain ⟨b,-,rfl | rfl⟩ := h
  · exact hdigit _ (by omega)
  · exact hdigit _ (by omega)

theorem hex_length (bs : Bytes) : (hex bs).length = 2*bs.length := by
  simp [hex,List.length_flatMap,mul_comm]

/-- Names made of digits, letters and dots are safe. -/
theorem safeLeaf_of {value : List Char} (hlen : 2 < value.length) (hmax : value.length ≤ 128)
    (h : ∀ c ∈ value, c.isAlphanum = true ∨ c = '.') : SafeLeaf value := by
  have hnot : ∀ c, c.isAlphanum = false → c ≠ '.' → c ∉ value := by
    intro c hc hdot hmem
    rcases h c hmem with hal | heq
    · rw [hc] at hal
      cases hal
    · exact hdot heq
  refine ⟨?_,hmax,hnot _ (by decide) (by decide),hnot _ (by decide) (by decide),?_,?_,fun c hc => ?_⟩
  · rintro rfl
    simp at hlen
  · rintro rfl
    simp at hlen
  · rintro rfl
    simp at hlen
  · exact (h c hc).imp id (fun heq => by simp [heq])

theorem tempNameOf_safe (id : TransferId) : SafeLeaf (tempNameOf id) := by
  have hlen : (tempNameOf id).length = 38 := by simp [tempNameOf,hex_length]
  refine safeLeaf_of (by omega) (by omega) (fun c hc => ?_)
  simp only [tempNameOf,List.mem_cons,List.mem_append,List.not_mem_nil,or_false] at hc
  rcases hc with rfl | hc | rfl | rfl | rfl | rfl | rfl
  · exact .inr rfl
  · exact .inl (hex_alphanumeric hc)
  all_goals decide

theorem finalNameOf_safe (id : TransferId) : SafeLeaf (finalNameOf id) := by
  have hlen : (finalNameOf id).length = 36 := by simp [finalNameOf,hex_length]
  refine safeLeaf_of (by omega) (by omega) (fun c hc => ?_)
  simp only [finalNameOf,List.mem_cons,List.mem_append,List.not_mem_nil,or_false] at hc
  rcases hc with hc | rfl | rfl | rfl | rfl
  · exact .inl (hex_alphanumeric hc)
  all_goals decide

theorem new_wellFormed {hash : Block 32} {batch : ℕ} {init : FileInit}
    (hversion : init.profileVersion = 1 ∨ init.profileVersion = 2) (hbatch : batch ≠ 0)
    (hchunk : init.chunkSize ≠ 0) : (TransferState.new S hash batch init).WellFormed where
  profileVersion := hversion
  batchChunks := hbatch
  chunkSize := hchunk
  committedOffset := Nat.zero_le _
  deferredError h := by cases h
  tempName := tempNameOf_safe _
  finalName := finalNameOf_safe _
  names h := by
    have hlen := congrArg List.length h
    simp [TransferState.new,tempNameOf,finalNameOf,hex_length] at hlen

/-- Only valid entries were passed to the journal. -/
def Offers (d d' : Desk) : Prop := ∀ s ∈ d'.offered, s ∈ d.offered ∨ s.validate = .ok ()

/-- A slot in which the first entry of a transfer may be found. -/
structure Begun (S : Suite) (tidy : Prop) (s : TransferState) (slot : Slot) : Prop where
  sound : Sound S tidy slot
  entries : ∀ e ∈ slot.entry.possible, e = none ∨ e = some s

/-- The first entry is backed by the empty file. -/
theorem held_new {slot : Slot} {s : TransferState} {hash : Block 32} {batch : ℕ} {init : FileInit}
    (hs : s = .new S hash batch init) (hw : s.WellFormed) (hc : slot.content.bytes = [])
    (ht : ∀ b ∈ slot.temp.possible, b = true) (hf : ∀ f ∈ slot.final.possible, f = false) :
    Held S tidy slot s := by
  subst hs
  refine ⟨⟨rfl,hw,Nat.zero_le _,?_⟩,fun htrue => ?_,fun _ t hmt f _ => .inr (ht t hmt),?_,?_⟩
  · rw [hc]
    rfl
  · cases hf _ htrue
  · intro digest delivered hp
    cases hp
  · exact fun _ hd => absurd rfl hd

theorem initializeTransfer_leads {init : FileInit} {hash : Block 32}
    {batch : Except FileCodecError ℕ} (hv : Vacant d.slot)
    (hversion : init.profileVersion = 1 ∨ init.profileVersion = 2) (hchunk : init.chunkSize ≠ 0)
    (hbatch : ∀ n, batch = .ok n → n ≠ 0) :
    Leads (initializeTransfer cfg init hash batch) d
      (fun _ d' => Offers d d' ∧ Good cfg.suite tidy d'.slot d'.transfer ∧
        none ∉ d'.slot.entry.possible ∧
        ∃ n, batch = .ok n ∧ d'.transfer = ⟨.new cfg.suite hash n init,true,false,0⟩)
      (fun _ d' => Offers d d' ∧ (Vacant d'.slot ∨
        ((∃ k, (d.script.drop 3).head? = some (some (.cut k))) ∧
          ∃ n, batch = .ok n ∧ Begun cfg.suite tidy (.new cfg.suite hash n init) d'.slot))) := by
  obtain ⟨t,slot,script,offered⟩ := d
  have hold : ∀ (t : ActiveTransfer) slot' script',
      Offers ⟨t,slot,script,offered⟩ ⟨t,slot',script',offered⟩ := fun _ _ _ _ hs => .inl hs
  have hvacant : ∀ content temp, Vacant {slot with content := content, temp := temp} :=
    fun _ _ => ⟨hv.entry,hv.final⟩
  have hsynced : ∀ content temp, Vacant
      ({slot with content := content, temp := temp} : Slot).syncNames :=
    fun _ _ => ⟨hv.entry,fun f hf => hv.final f (Cell.mem_of_mem_sync hf)⟩
  unfold initializeTransfer createNew
  refine Leads.bind (Leads.read_bind (Leads.demand_bind (fun _ => ?_)
    (fun _ => ⟨hold _ _ _,.inl hv⟩)))
  refine fsCall_leads ?_ (fun _ => ⟨hold _ _ _,.inl hv⟩)
    (fun _ _ => ⟨hold _ _ _,.inl (hvacant _ _)⟩)
  refine Leads.bind (fsCall_leads ?_ (fun _ => ⟨hold _ _ _,.inl (hvacant _ _)⟩)
    (fun _ _ => ⟨hold _ _ _,.inl (hvacant _ _)⟩))
  refine Leads.bind (fsCall_leads ?_ (fun _ => ⟨hold _ _ _,.inl (hvacant _ _)⟩)
    (fun _ _ => ⟨hold _ _ _,.inl (hsynced _ _)⟩))
  refine Leads.attempt_bind (fun n hn => ?_) (fun _ _ => ⟨hold _ _ _,.inl (hsynced _ _)⟩)
  have hw : (TransferState.new cfg.suite hash n init).WellFormed :=
    new_wellFormed hversion (hbatch n hn) hchunk
  have hvalid : (TransferState.new cfg.suite hash n init).validate = .ok () :=
    validate_ok.mpr ⟨rfl,hw,.inl rfl⟩
  have hv' := hsynced Content.empty.sync (slot.temp.write true)
  have hheld : Held cfg.suite tidy _ (.new cfg.suite hash n init) :=
    held_new rfl hw rfl (fun b hb => List.mem_singleton.mp hb) hv'.final
  have hoffers : ∀ t' slot' script', Offers ⟨t,slot,script,offered⟩
      ⟨t',slot',script',offered++[.new cfg.suite hash n init]⟩ := by
    intro t' slot' script' s hs
    refine (List.mem_append.mp hs).imp id (fun hs => ?_)
    rw [List.mem_singleton.mp hs]
    exact hvalid
  refine Leads.update_bind (storeState_leads (fun _ => ?_) (fun _ _ => ?_) (fun k _ hcut => ?_))
  · refine ⟨hoffers _ _ _,⟨.of_single (hheld.entry _) hvalid rfl,fun _ => Nat.zero_le _,?_⟩,?_,
      n,hn,rfl⟩
    · rintro - ⟨code,hcode⟩
      cases hcode
    · exact fun hnone => by cases List.mem_singleton.mp hnone
  · exact ⟨hoffers _ _ _,.inl hv'⟩
  · refine ⟨hoffers _ _ _,.inr ⟨⟨k,?_⟩,n,hn,hv'.sound.write hheld hvalid ?_,?_⟩⟩
    · simpa [← List.drop_one] using hcut
    · intro s' hs'
      cases hv'.entry _ hs'
    · intro e he
      rcases List.mem_cons.mp he with rfl | he
      · exact .inr rfl
      · exact .inl (hv'.entry e he)

/-! ## Recovery -/

/-- The published name is settled. -/
def Firm (slot : Slot) : Prop := ∀ f ∈ slot.final.possible, f = slot.final.current

theorem crash_firm (slot : Slot) (r : Remains) : Firm (slot.crash r) :=
  fun _ hf => List.mem_singleton.mp hf

theorem clearTemp_keeps {d₀ : Desk} (h : Keeps S tidy calm d₀ d)
    (hf : ∀ f ∈ d.slot.final.possible, f = true) :
    Leads clearTemp d
      (fun _ d' => Keeps S tidy calm d₀ d' ∧ d'.transfer = d.transfer ∧
        d'.slot.content = d.slot.content ∧ d'.slot.final = d.slot.final)
      (fun _ d' => Keeps S tidy calm d₀ d' ∧ d'.slot.final = d.slot.final) := by
  unfold clearTemp removeTemp
  refine Leads.read_bind (Leads.ite (fun _ => ?_) (fun _ => Leads.pure ⟨h,rfl,rfl,rfl⟩))
  have hdropped : Keeps S tidy calm d₀
      {d with slot := {d.slot with temp := d.slot.temp.write false}, script := d.script.tail} :=
    h.slot (h.near.dropTemp (fun _ _ _ => hf)) rfl rfl
  exact fsCall_leads ⟨hdropped,rfl,rfl,rfl⟩ (fun _ => ⟨h.congr rfl rfl rfl,rfl⟩)
    (fun _ _ => ⟨hdropped,rfl⟩)

/-- An interrupted publication is completed. -/
theorem resumePublication_leads (h : Near S tidy d.slot d.transfer.state) (hfirm : Firm d.slot)
    (hactive : d.transfer.state.terminal = .active) (hcancelled : d.transfer.cancelled = false)
    (hf : d.slot.final.current = true) (htidy : calm → tidy) :
    Leads (resumePublication S) d (fun _ d' => After S tidy calm d d' ∧ Firm d'.slot)
      (fun _ d' => Keeps S tidy calm d d' ∧ Firm d'.slot) := by
  obtain ⟨t,slot,script,offered⟩ := d
  dsimp only at h hfirm hactive hcancelled hf
  have hself : ∀ script', Keeps S tidy calm ⟨t,slot,script,offered⟩ ⟨t,slot,script',offered⟩ :=
    fun _ => (Keeps.refl h (fun _ => .inr hactive)).congr rfl rfl rfl
  have htrue : ∀ f ∈ slot.final.possible, f = true := fun f hm => (hfirm f hm).trans hf
  have hcomplete := h.held.linked (hf ▸ slot.final.mem)
  unfold resumePublication
  refine Leads.read_bind (Leads.bind (hashPrefix_leads (fun _ _ => ?_)
    (fun _ => ⟨hself _,hfirm⟩)))
  refine Leads.read_bind (Leads.demand_bind (fun hd => ?_) (fun _ => ⟨hself _,hfirm⟩))
  refine Leads.bind ((clearTemp_keeps (hself _) htrue).mono (fun _ d₁ hd₁ => ?_)
    (fun _ d₁ hd₁ => ⟨hd₁.1,by rw [Firm,hd₁.2]; exact hfirm⟩))
  obtain ⟨t₁,slot₁,script₁,offered₁⟩ := d₁
  obtain ⟨h₁,ht₁,hc₁,hf₁⟩ := hd₁
  dsimp only at ht₁ hc₁ hf₁
  subst ht₁
  have hfirm₁ : Firm slot₁ := by
    rw [Firm,hf₁]
    exact hfirm
  have hsync : ∀ script', Keeps S tidy calm ⟨t₁,slot,script,offered⟩
      ⟨t₁,slot₁.syncNames,script',offered₁⟩ :=
    fun _ => h₁.slot h₁.near.syncNames rfl rfl
  have hfirm₂ : Firm slot₁.syncNames := fun _ hm => List.mem_singleton.mp hm
  refine Leads.bind (fsCall_leads ?_ (fun _ => ⟨h₁.congr rfl rfl rfl,hfirm₁⟩)
    (fun _ _ => ⟨hsync _,hfirm₂⟩))
  have hfail : ¬Failed t₁.state := fun hfailed => hfailed.not_active hactive
  have hpublished : Near S tidy slot₁.syncNames {t₁.state with terminal := .published _ false} :=
    h₁.near.syncNames.published hfail hd.2.2 (fun f hm => by
      rw [hfirm₂ f hm]
      change slot₁.final.current = true
      rw [hf₁]
      exact hf)
  have hundeferred : tidy → t₁.state.deferredError = none := by
    intro ht
    by_contra hd'
    have := h.held.deferred ht hd'
    have := hcomplete.offset
    omega
  have hrevised := (hsync script₁.tail).revise (t := {t₁ with
    state := {t₁.state with terminal := .published _ false}}) hpublished rfl rfl
    (fun hc => .inl (hundeferred (htidy hc)))
  refine Leads.update_bind ((storeState_keeps hrevised).mono
    (fun _ d₂ hd₂ => ?_) (fun _ d₂ hd₂ => ?_))
  · obtain ⟨h₂,ht₂,hslot₂⟩ := hd₂
    refine ⟨⟨h₂,fun ha => ?_,fun _ => ?_⟩,?_⟩
    · rw [ht₂] at ha
      cases ha
    · rw [ht₂]
      exact not_failed_of_published rfl
    · rw [hslot₂]
      exact hfirm₂
  · refine ⟨hd₂.1,?_⟩
    rw [Firm,hd₂.2.2.2]
    exact hfirm₂

/-- The temporary file is cut down to the committed part. -/
theorem resumeTransfer_leads (h : Near S tidy d.slot d.transfer.state) (hfirm : Firm d.slot)
    (hactive : d.transfer.state.terminal = .active) (hf : d.slot.final.current = false) :
    Leads (resumeTransfer S) d (fun _ d' => After S tidy calm d d' ∧ Firm d'.slot)
      (fun _ d' => Keeps S tidy calm d d' ∧ Firm d'.slot) := by
  obtain ⟨t,slot,script,offered⟩ := d
  dsimp only at h hfirm hactive hf
  have hself : ∀ script', Keeps S tidy calm ⟨t,slot,script,offered⟩ ⟨t,slot,script',offered⟩ :=
    fun _ => (Keeps.refl h (fun _ => .inr hactive)).congr rfl rfl rfl
  have hcancelled : t.cancelled = false → ¬Failed t.state :=
    fun _ hfailed => hfailed.not_active hactive
  have hunlinked : true ∉ slot.final.possible := by
    intro hm
    cases (hfirm true hm).trans hf
  have hle := h.held.backed.wellFormed.committedOffset
  have hcut : Near S tidy {slot with content := slot.content.truncate t.state.committedOffset}
      t.state := h.truncateContent hunlinked
  have hkept : ∀ content script', content.bytes = slot.content.bytes.take t.state.committedOffset →
      Near S tidy {slot with content := content} t.state → Keeps S tidy calm
        ⟨t,slot,script,offered⟩ ⟨t,{slot with content := content},script',offered⟩ := by
    intro content script' hc hn
    refine (hself script').slot hn ?_ rfl
    change content.bytes.take t.state.committedOffset = _
    rw [hc,List.take_take,Nat.min_self]
  unfold resumeTransfer
  refine Leads.read_bind (Leads.bind (look_leads ?_ (fun _ => ⟨hself _,hfirm⟩)))
  refine Leads.read_bind (Leads.demand_bind (fun _ => ?_) (fun _ => ⟨hself _,hfirm⟩))
  refine Leads.bind (hashPrefix_leads (fun _ _ => ?_) (fun _ => ⟨hself _,hfirm⟩))
  refine Leads.demand_bind (fun _ => ?_) (fun _ => ⟨hself _,hfirm⟩)
  refine Leads.ite (fun _ => ?_) (fun hlen => Leads.pure ?_)
  · refine Leads.bind (openExisting_leads (fun _ => ?_) (fun _ => ⟨hself _,hfirm⟩))
    refine Leads.bind (fsCall_leads ?_ (fun _ => ⟨hself _,hfirm⟩)
      (fun _ _ => ⟨hkept _ _ rfl hcut,hfirm⟩))
    have hafter : ∀ script', After S tidy calm ⟨t,slot,script,offered⟩
        ⟨t,{slot with content := (slot.content.truncate t.state.committedOffset).sync},script',
          offered⟩ := by
      refine fun script' => ⟨hkept _ _ rfl hcut.syncContent,fun _ => ?_,hcancelled⟩
      change (slot.content.bytes.take t.state.committedOffset).length ≤ t.state.fileSize
      rw [List.length_take]
      omega
    have hsynced : ∀ script', After S tidy calm ⟨t,slot,script,offered⟩ ⟨t,Slot.syncNames
        {slot with content := (slot.content.truncate t.state.committedOffset).sync},script',
          offered⟩ := fun _ => (hafter []).slot (hafter []).near.syncNames rfl rfl
    have hfirm' : ∀ content, Firm ({slot with content := content} : Slot).syncNames :=
      fun _ _ hm => List.mem_singleton.mp hm
    exact fsCall_leads ⟨hsynced _,hfirm' _⟩ (fun _ => ⟨(hafter _).toKeeps,hfirm⟩)
      (fun _ _ => ⟨(hsynced _).toKeeps,hfirm' _⟩)
  · refine ⟨⟨hself _,fun _ => ?_,hcancelled⟩,hfirm⟩
    change slot.content.bytes.length ≤ t.state.fileSize
    exact (not_lt.mp hlen).trans hle

/-- What `open` does with one entry. -/
theorem recover_leads (h : Near S tidy d.slot d.transfer.state) (hfirm : Firm d.slot)
    (hcancelled : d.transfer.cancelled = false) (hq : calm → Quiet d.transfer.state)
    (htidy : calm → tidy) :
    Leads (recover S) d (fun _ d' => After S tidy calm d d' ∧ Firm d'.slot)
      (fun _ d' => Keeps S tidy calm d d' ∧ Firm d'.slot) := by
  have hself : ∀ script, Keeps S tidy calm d {d with script := script} :=
    fun _ => (Keeps.refl h hq).congr rfl rfl rfl
  unfold recover
  refine Leads.read_bind (Leads.read_bind ?_)
  cases ht : d.transfer.state.terminal with
  | active =>
      refine Leads.ite (fun hf => ?_) (fun hf => ?_)
      · exact resumePublication_leads h hfirm ht hcancelled hf htidy
      · exact resumeTransfer_leads h hfirm ht (by simpa using hf)
  | published digest delivered =>
      refine Leads.bind (hashPrefix_leads (fun _ _ => ?_) (fun _ => ⟨hself _,hfirm⟩))
      refine Leads.demand (fun _ => ⟨⟨hself _,fun ha => ?_,fun _ => not_failed_of_published ht⟩,hfirm⟩)
        (fun _ => ⟨hself _,hfirm⟩)
      rw [ht] at ha
      cases ha
  | failed code =>
      refine Leads.update ⟨⟨(Keeps.refl h hq).congr rfl rfl rfl,fun ha => ?_,fun hc => ?_⟩,hfirm⟩
      · rw [ht] at ha
        cases ha
      · cases hc


/-! ## Without failures -/

section Clear
variable {act : Slot → Slot} {cut : ℕ → Slot → Slot} {error : ReceiverError}

theorem fsCall_clear {Q : Unit → Desk → Prop} {E : ReceiverError → Desk → Prop}
    (hs : d.script = []) (hok : Q () {d with slot := act d.slot, script := []}) :
    Leads (fsCall act cut error) d Q E := by
  refine fsCall_leads ?_ (fun hf => ?_) (fun _ hf => ?_)
  · rw [hs]
    exact hok
  · rw [hs] at hf
    cases hf
  · rw [hs] at hf
    cases hf

theorem hashPrefix_clear {name : Slot → Cell Bool} {length : ℕ} {Q : Block 32 → Desk → Prop}
    {E : ReceiverError → Desk → Prop} (hs : d.script = []) (hn : (name d.slot).current = true)
    (hl : length ≤ d.slot.content.bytes.length)
    (hok : Q (S.sha256 (d.slot.content.bytes.take length)) {d with script := []}) :
    Leads (hashPrefix S name length error) d Q E := by
  unfold hashPrefix look
  exact Leads.bind (fsCall_clear hs (Leads.read_bind (Leads.demand_bind
    (fun _ => Leads.pure hok) (fun hc => absurd ⟨hn,hl⟩ hc))))

theorem storeState_clear {Q : Unit → Desk → Prop} {E : ReceiverError → Desk → Prop}
    (hs : d.script = []) (hv : d.transfer.state.validate = .ok ())
    (hok : Q () {d with
      slot := d.slot.stored d.transfer.state
      script := []
      offered := d.offered++[d.transfer.state]}) :
    Leads storeState d Q E := by
  refine storeState_leads (fun _ => ?_) (fun _ hno => ?_) (fun _ _ hf => ?_)
  · rw [hs]
    exact hok
  · rcases hno with hno | hno
    · rw [hs] at hno
      exact absurd (fun _ hf => by cases hf) hno
    · exact absurd hv hno
  · rw [hs] at hf
    cases hf

end Clear

theorem clearTemp_clear {Q : Unit → Desk → Prop} {E : ReceiverError → Desk → Prop}
    (hs : d.script = []) (hok : ∀ temp, Q () {d with slot := {d.slot with temp := temp}}) :
    Leads clearTemp d Q E := by
  unfold clearTemp removeTemp
  refine Leads.read_bind (Leads.ite (fun _ => fsCall_clear hs ?_) (fun _ => Leads.pure ?_))
  · rw [← hs]
    exact hok _
  · exact hok _

theorem resumePublication_clear (hs : d.script = []) (ht : tidy)
    (h : Near S tidy d.slot d.transfer.state) (hf : d.slot.final.current = true) :
    Leads (resumePublication S) d (fun _ d' => d'.script = []) (fun _ _ => False) := by
  have hcomplete := h.held.linked (hf ▸ d.slot.final.mem)
  have hundeferred : d.transfer.state.deferredError = none := by
    by_contra hd
    have := h.held.deferred ht hd
    have := hcomplete.offset
    omega
  have hhash : S.sha256 (d.slot.content.bytes.take d.transfer.state.fileSize) =
      d.transfer.state.fileSha256 := by
    rw [← hcomplete.length,List.take_length]
    exact hcomplete.hash
  unfold resumePublication syncDir
  refine Leads.read_bind (Leads.bind (hashPrefix_clear hs hf hcomplete.length.ge ?_))
  refine Leads.read_bind (Leads.demand_bind (fun _ => ?_)
    (fun hc => hc ⟨hcomplete.length,hcomplete.offset,hhash⟩))
  refine Leads.bind (clearTemp_clear rfl (fun temp => Leads.bind (fsCall_clear rfl ?_)))
  refine Leads.update_bind (storeState_clear rfl ?_ rfl)
  exact validate_ok.mpr ⟨h.held.backed.version,wellFormed_terminal h.held.backed.wellFormed _,
    .inl hundeferred⟩

theorem resumeTransfer_clear (hs : d.script = []) (h : Near S tidy d.slot d.transfer.state)
    (hactive : d.transfer.state.terminal = .active) (hf : d.slot.final.current = false) :
    Leads (resumeTransfer S) d (fun _ d' => d'.script = []) (fun _ _ => False) := by
  have htemp : d.slot.temp.current = true := by
    refine (h.held.named hactive _ d.slot.temp.mem _ d.slot.final.mem).resolve_left ?_
    rw [hf]
    exact Bool.false_ne_true
  have hlen := h.held.backed.offset_le_length
  unfold resumeTransfer openExisting look setLen syncDir
  refine Leads.read_bind (Leads.bind (fsCall_clear hs ?_))
  refine Leads.read_bind (Leads.demand_bind (fun _ => ?_) (fun hc => hc ⟨htemp,hlen⟩))
  refine Leads.bind (hashPrefix_clear rfl htemp hlen ?_)
  refine Leads.demand_bind (fun _ => ?_) (fun hc => hc h.held.backed.hash.symm)
  refine Leads.ite (fun _ => ?_) (fun _ => Leads.pure rfl)
  refine Leads.bind (Leads.bind (fsCall_clear rfl ?_))
  refine Leads.read_bind (Leads.demand (fun _ => ?_) (fun hc => hc htemp))
  exact Leads.bind (fsCall_clear rfl (fsCall_clear rfl rfl))

/-- An entry that agrees with its slot is recovered. -/
theorem recover_clear (hs : d.script = []) (ht : tidy) (h : Near S tidy d.slot d.transfer.state) :
    Leads (recover S) d (fun _ d' => d'.script = []) (fun _ _ => False) := by
  unfold recover
  refine Leads.read_bind (Leads.read_bind ?_)
  cases hterminal : d.transfer.state.terminal with
  | active =>
      refine Leads.ite (fun hf => resumePublication_clear hs ht h hf) (fun hf => ?_)
      exact resumeTransfer_clear hs h hterminal (by simpa using hf)
  | published digest delivered =>
      obtain ⟨hdigest,hnames⟩ := h.held.published digest delivered hterminal
      have hf := hnames _ d.slot.final.mem
      have hcomplete := h.held.linked (hf ▸ d.slot.final.mem)
      refine Leads.bind (hashPrefix_clear hs hf hcomplete.length.ge ?_)
      refine Leads.demand (fun _ => rfl) (fun hc => hc ⟨hcomplete.length,?_⟩)
      rw [← hcomplete.length,List.take_length,hdigest]
      exact hcomplete.hash
  | failed code => exact Leads.update hs

end Gcoms.FileRecovery
