import Gcoms.FileOpening

/-!
# Runs of the receiver

A run starts with empty directories. The receiver is opened, answers calls, and
is stopped by a crash between two calls or in the middle of one; what the crash
leaves can be opened again. A regime says which calls a run may contain. The
invariant of a run is one for the open receiver and one for its storage.
-/
namespace Gcoms.FileRuns
open ByteCodec Primitives Fallible Commands SortedMaps Writeback FileRecords FileReceiver FileSlots
open FileTransfers FileRecovery FileWorlds FileOpening

variable {cfg : Config} {tidy calm : Prop} {w w' : World} {c : Call} {script : Script}

/-- The calls that a run may complete and those that a crash may interrupt. -/
structure Regime where
  call : World → Call → Script → Prop
  cut : World → Call → Prop
  crash : Prop

/-- A step of a run, from and to an open or a closed receiver. -/
inductive Step (cfg : Config) (R : Regime) : Bool → World → Option Call → Bool → World → Prop
  | opened {w w' : World} {script : Script} (h : w.reopen cfg script = (.ok (),w')) :
      Step cfg R false w none true w'
  | refused {w w' : World} {script : Script} {e : ReceiverError}
      (h : w.reopen cfg script = (.error e,w')) : Step cfg R false w none false w'
  | called {w : World} {c : Call} {script : Script} (h : R.call w c script) :
      Step cfg R true w (some c) true (w.call cfg c script).2
  | interrupted {w : World} {c : Call} {script : Script} {remains : TransferId → Remains}
      (hcrash : R.crash) (h : R.cut w c) :
      Step cfg R true w (some c) false ((w.call cfg c script).2.crash remains)
  | crashed {up : Bool} {w : World} {remains : TransferId → Remains} (hcrash : R.crash) :
      Step cfg R up w none false (w.crash remains)

/-- The states of a run. -/
inductive Reached (cfg : Config) (R : Regime) : Bool → World → Prop
  | start : Reached cfg R false World.empty
  | step {up up' : Bool} {w w' : World} {c : Option Call} (h : Reached cfg R up w)
      (hs : Step cfg R up w c up' w') : Reached cfg R up' w'

/-! ## Calls -/

theorem Live.scripted (h : Live cfg tidy calm w) (script : Script) :
    Live cfg tidy calm {w with script := script} :=
  ⟨h.good,h.vacant,h.reserved,h.quota,h.range,h.gone,h.acked,h.origin,h.quiet⟩

/-- An acknowledgement of the committed offset may be noted. -/
theorem Live.noted (h : Live cfg tidy calm w) {a : FileAck} {t : ActiveTransfer}
    (hf : w.transfers.find? a.transferId = some t)
    (ha : a.receivedSize = t.state.committedOffset) : Live cfg tidy calm (w.noteAck a) := by
  refine ⟨h.good,h.vacant,h.reserved,h.quota,h.range,h.gone,fun {id n} hn => ?_,h.origin,h.quiet⟩
  change Function.update w.acked a.transferId _ id = some n at hn
  by_cases hid : id = a.transferId
  · subst hid
    rw [Function.update_self] at hn
    cases hn
    refine .inl ⟨t,hf,max_le ha.le ?_⟩
    cases hold : w.acked a.transferId with
    | none => exact Nat.zero_le _
    | some n =>
        rcases h.acked hold with ⟨t',ht',hle⟩ | ⟨hno,-⟩
        · rw [hf] at ht'
          cases ht'
          exact hle
        · rw [hf] at hno
          cases hno
  · rw [Function.update_of_ne hid] at hn
    exact h.acked hn

/-- The outcomes of a call, with the acknowledgement noted. -/
theorem call_outcome (h : Live cfg tidy calm w) (htidy : calm → tidy)
    (htimely : tidy → Timely w c) (hcalm : calm → Calm w c) :
    Leads (World.call cfg c script) w (Done cfg tidy calm c w)
      (fun _ w' => Broken cfg tidy calm c w w' ∧ (Careful script c → Done cfg tidy calm c w none w')) := by
  have hmain := perform_outcome (c := c) (Live.scripted h script) htidy
    (fun ht => by
      have := htimely ht
      cases c <;> exact this)
    (fun hc => by
      have := hcalm hc
      cases c <;> exact this)
  unfold Outcome Leads at hmain
  unfold Leads World.call
  cases hp : perform cfg c {w with script := script} with
  | mk r w' =>
      rw [hp] at hmain
      cases r with
      | error e =>
          obtain ⟨hb,hd⟩ := hmain
          exact ⟨⟨hb.stored,hb.offers,hb.traces⟩,fun hcareful =>
            ⟨(hd hcareful).live,(hd hcareful).offers,(hd hcareful).grown,(hd hcareful).acked⟩⟩
      | ok r =>
          cases r with
          | none => exact ⟨hmain.live,hmain.offers,hmain.grown,hmain.acked⟩
          | some a =>
              obtain ⟨t,ht,hsize⟩ := hmain.acked a rfl
              exact ⟨Live.noted hmain.live ht hsize,hmain.offers,hmain.grown,hmain.acked⟩

/-! ## The invariant of a run -/

/-- The invariant of an open receiver, and of the storage of a closed one. -/
def Sane (cfg : Config) (tidy calm : Prop) : Bool → World → Prop
  | true, w => Live cfg tidy calm w
  | false, w => Halted cfg tidy w

/-- A regime whose calls meet the conditions of the invariant. -/
structure Regime.Meets (R : Regime) (tidy calm : Prop) : Prop where
  call : ∀ {w c script}, R.call w c script →
    Careful script c ∧ (tidy → Timely w c) ∧ (calm → Calm w c)
  cut : ∀ {w c}, R.cut w c → (tidy → Timely w c) ∧ (calm → Calm w c)

theorem empty_halted (cfg : Config) (tidy : Prop) : Halted cfg tidy World.empty where
  sound _ := blank_vacant.sound
  ids hs := by cases List.mem_singleton.mp hs
  quota := Nat.zero_le _
  range := by decide
  acked hn := by cases hn
  origin hs := by cases List.mem_singleton.mp hs
  uniform _ :=
    { offset := fun s _ hs => by cases List.mem_singleton.mp hs
      present := fun _ s hs => by cases List.mem_singleton.mp hs }
  firm _ _ hf := List.mem_singleton.mp hf
  whole _ _ he := List.mem_singleton.mp he

theorem reopen_outcome (htidy : calm → tidy) (h : Halted cfg tidy w) (script : Script) :
    Leads (World.reopen cfg script) w (fun _ w' => Live cfg tidy calm w' ∧ Resumed calm w w')
      (fun _ w' => Halted cfg tidy w' ∧ Resumed calm w w' ∧ (tidy → script ≠ [])) := by
  have hs : Halted cfg tidy {w with script := script} :=
    ⟨⟨h.sound,h.ids,h.quota,h.range,h.acked,h.origin⟩,h.uniform,h.firm,h.whole⟩
  have hmain := openReceiver_leads htidy hs
  unfold Leads at hmain
  unfold Leads World.reopen
  cases hp : openReceiver cfg {w with script := script} with
  | mk r w' =>
      rw [hp] at hmain
      cases r with
      | error e =>
          have hr := hmain.resumed
          exact ⟨hmain.halted,⟨hr.acked,hr.abandoned,hr.offers,hr.entries⟩,hmain.failed⟩
      | ok u =>
          have hr := hmain.2
          exact ⟨hmain.1,hr.acked,hr.abandoned,hr.offers,hr.entries⟩

/-- The storage after an interrupted call. -/
theorem call_stored (h : Live cfg tidy calm w) (script : Script) (htidy : calm → tidy)
    (htimely : tidy → Timely w c) (hcalm : calm → Calm w c) :
    Broken cfg tidy calm c w (w.call cfg c script).2 :=
  ((call_outcome h htidy htimely hcalm).mono (fun _ _ hd => hd.broken) (fun _ _ hd => hd.1)).state

theorem call_done (h : Live cfg tidy calm w) (htidy : calm → tidy)
    (htimely : tidy → Timely w c) (hcalm : calm → Calm w c) (hcareful : Careful script c) :
    ∃ r, Done cfg tidy calm c w r (w.call cfg c script).2 := by
  have hmain : Leads (World.call cfg c script) w (fun _ w' => ∃ r, Done cfg tidy calm c w r w')
      (fun _ w' => ∃ r, Done cfg tidy calm c w r w') :=
    (call_outcome h htidy htimely hcalm).mono (fun r _ hd => ⟨r,hd⟩)
      (fun _ _ hd => ⟨none,hd.2 hcareful⟩)
  exact hmain.state

theorem Sane.stored {up : Bool} (h : Sane cfg tidy calm up w) : Stored cfg tidy w := by
  cases up with
  | true => exact Live.stored h
  | false => exact Halted.toStored h

/-- One step keeps the invariant, and passes valid entries to the journal only. -/
theorem Sane.step {R : Regime} (hR : R.Meets tidy calm) (htidy : calm → tidy) {up up' : Bool}
    {c : Option Call} (h : Sane cfg tidy calm up w) (hs : Step cfg R up w c up' w') :
    Sane cfg tidy calm up' w' ∧ (calm → Offered w w') := by
  cases hs with
  | opened ho =>
      obtain ⟨hlive,hr⟩ := (reopen_outcome htidy h _).of_ok ho
      exact ⟨hlive,hr.offers⟩
  | refused ho =>
      obtain ⟨hhalted,hr,-⟩ := (reopen_outcome htidy h _).of_error ho
      exact ⟨hhalted,hr.offers⟩
  | called hc =>
      obtain ⟨hcareful,htimely,hcalm⟩ := hR.call hc
      obtain ⟨r,hd⟩ := call_done h htidy htimely hcalm hcareful
      exact ⟨hd.live,hd.offers⟩
  | @interrupted _ _ script _ _ hc =>
      obtain ⟨htimely,hcalm⟩ := hR.cut hc
      have hb := call_stored h script htidy htimely hcalm
      exact ⟨Stored.crash hb.stored _,hb.offers⟩
  | crashed _ => exact ⟨Stored.crash h.stored _,fun _ _ hs => .inl hs⟩

theorem Reached.sane {R : Regime} (hR : R.Meets tidy calm) (htidy : calm → tidy) {up : Bool}
    (h : Reached cfg R up w) :
    Sane cfg tidy calm up w ∧ (calm → ∀ s ∈ w.offered, s.validate = .ok ()) := by
  induction h with
  | start => exact ⟨empty_halted cfg tidy,fun _ s hs => by cases hs⟩
  | step _ hs ih =>
      obtain ⟨hsane,hoffers⟩ := ih.1.step hR htidy hs
      refine ⟨hsane,fun hc s hmem => ?_⟩
      exact (hoffers hc s hmem).elim (ih.2 hc s) id

/-! ## Sequences of calls -/

/-- The receiver after a sequence of calls. -/
def play (cfg : Config) : List (Call × Script) → World → World
  | [], w => w
  | (c,script)::rest, w => play cfg rest (w.call cfg c script).2

/-- The regime admits a sequence of calls. -/
def Admits (R : Regime) (cfg : Config) : List (Call × Script) → World → Prop
  | [], _ => True
  | (c,script)::rest, w => R.call w c script ∧ Admits R cfg rest (w.call cfg c script).2

theorem Reached.played {R : Regime} {calls : List (Call × Script)} (h : Reached cfg R true w)
    (ha : Admits R cfg calls w) : Reached cfg R true (play cfg calls w) := by
  induction calls generalizing w with
  | nil => exact h
  | cons call rest ih => exact ih (h.step (.called ha.1)) ha.2

/-- The receiver on empty directories. -/
def opened (cfg : Config) : World := (World.empty.reopen cfg []).2

theorem reached_opened (cfg : Config) (R : Regime) : Reached cfg R true (opened cfg) := by
  refine Reached.start.step (@Step.opened cfg R _ _ [] ?_)
  obtain ⟨u,hu,-⟩ := Leads.succeeds ((@reopen_outcome cfg True True World.empty id
    (empty_halted cfg True) []).mono (fun _ _ hd => hd) (fun _ _ hd => hd.2.2 trivial rfl))
  exact hu

/-- What a call answers. -/
def answer : Except ReceiverError (Option FileAck) → Option FileAck
  | .ok r => r
  | .error _ => none

theorem eq_of_answer {r : Except ReceiverError (Option FileAck)} {a : FileAck}
    (h : answer r = some a) : r = .ok (some a) := by
  cases r with
  | error e => cases h
  | ok r => exact congrArg Except.ok h

/-! ## A small transfer -/

def sampleConfig : Config := ⟨openSuite,100,100,4⟩

def sampleId : TransferId := wordBlock 16 1

def sampleRoute : Contact where
  address := ⟨.v4 (wordBlock 4 1),80⟩
  relayServiceId := wordBlock 32 1
  queueId := wordBlock 32 2
  epoch := 1
  pushCap := wordBlock 32 3
  leaseExpiry := 60

def sampleContact (version : ℕ) : FileContact where
  profileVersion := version
  transferId := sampleId
  recipientContact := sampleRoute
  fileCap := wordBlock 32 4
  contactExpiry := 50
  maxFileSize := 20
  maxChunkSize := 4
  maxInflightBytes := 16

def unsignedInit (version : ℕ) (file : Bytes) : FileInit where
  profileVersion := version
  transferId := sampleId
  fileSize := file.length
  chunkSize := 2
  fileSha256 := openSuite.sha256 file
  ackRoute := sampleRoute
  initNonce := wordBlock 16 5
  bearerProof := wordBlock 32 0

def sampleInit (version : ℕ) (file : Bytes) : FileInit :=
  {unsignedInit version file with
    bearerProof :=
      match (unsignedInit version file).proofTranscript (sampleContact version) with
      | .ok transcript => openSuite.hmac (wordBlock 32 4) transcript
      | .error _ => wordBlock 32 0}

def sampleFile : Bytes := [1,2,3,4]

def sampleChunk (version : ℕ) : FileChunk := ⟨version,sampleId,0,[1,2]⟩

/-- The contact is offered and the transfer started. -/
def sampleStart (version : ℕ) : List (Call × Script) :=
  [(.offerContact (sampleContact version) 10,[]),
    (.process (.init (sampleInit version sampleFile)) 10,[])]

end Gcoms.FileRuns
