import Gcoms.Commands
import Gcoms.FileRecords
import Gcoms.SortedMaps
import Gcoms.Writeback

/-!
# The receiver of private files

A transfer has an entry in the journal and two names in the storage directory,
the temporary file and the published one. Publication links the second name to
the first file and removes the first name. A chunk is written and synchronized,
then its prefix hash is computed and the journal entry replaced; what the
receiver keeps in memory changes between these steps.

Every call of the file system may fail. A script says which ones do, and whether
a failing call has had its effect, or a part of it, before the failure. After a
crash the directories hold any value written since they were last synchronized,
and a file holds its synchronized part followed by anything. A synchronization
of the storage directory is counted for the transfer at hand only.
-/
namespace Gcoms.FileReceiver
open ByteCodec Primitives Fallible Commands SortedMaps Writeback FileRecords

/-! ## Journal entries -/

inductive TerminalState where
  | active
  | published (digest : Block 32) (completeAck : Bool)
  | failed (code : AckCode)
  deriving DecidableEq

def hexDigit (n : ℕ) : Char := if n < 10 then Char.ofNat (48+n) else Char.ofNat (87+n)

def hex (bs : Bytes) : List Char := bs.flatMap fun b => [hexDigit (b.val/16),hexDigit (b.val%16)]

def tempNameOf (id : TransferId) : List Char := '.'::(hex id.toList++['.','p','a','r','t'])

def finalNameOf (id : TransferId) : List Char := hex id.toList++['.','b','i','n']

/-- Digests and identifiers are kept as bytes; the source stores them in
hexadecimal. Checksum and authentication tag are left out: they are computed and
checked over these fields by `store` itself. -/
structure TransferState where
  version : ℕ
  transferId : TransferId
  authorizationHash : Block 32
  profileVersion : ℕ
  batchChunks : ℕ
  fileSize : ℕ
  chunkSize : ℕ
  fileSha256 : Block 32
  initNonce : Block 16
  tempName : List Char
  finalName : List Char
  committedOffset : ℕ
  committedSha256 : Block 32
  deferredError : Option AckCode
  terminal : TerminalState
  deriving DecidableEq

def journalVersion : ℕ := 3

def SafeLeaf (value : List Char) : Prop :=
  value ≠ [] ∧ value.length ≤ 128 ∧ '/' ∉ value ∧ '\\' ∉ value ∧ value ≠ ['.'] ∧
    value ≠ ['.','.'] ∧ ∀ c ∈ value, c.isAlphanum = true ∨ c ∈ ['.','_','-']

instance (value : List Char) : Decidable (SafeLeaf value) :=
  have : Decidable (∀ c ∈ value, c.isAlphanum = true ∨ c ∈ ['.','_','-']) := List.decidableBAll _ _
  inferInstanceAs (Decidable (_ ∧ _ ∧ _ ∧ _ ∧ _ ∧ _ ∧ _))

def TransferState.new (S : Suite) (authorizationHash : Block 32) (batchChunks : ℕ)
    (init : FileInit) : TransferState where
  version := journalVersion
  transferId := init.transferId
  authorizationHash := authorizationHash
  profileVersion := init.profileVersion
  batchChunks := batchChunks
  fileSize := init.fileSize
  chunkSize := init.chunkSize
  fileSha256 := init.fileSha256
  initNonce := init.initNonce
  tempName := tempNameOf init.transferId
  finalName := finalNameOf init.transferId
  committedOffset := 0
  committedSha256 := S.sha256 []
  deferredError := none
  terminal := .active

/-- The fields an entry must have in every terminal state. -/
structure TransferState.WellFormed (s : TransferState) : Prop where
  profileVersion : s.profileVersion = 1 ∨ s.profileVersion = 2
  batchChunks : s.batchChunks ≠ 0
  chunkSize : s.chunkSize ≠ 0
  committedOffset : s.committedOffset ≤ s.fileSize
  deferredError : s.deferredError ≠ some .ok
  tempName : SafeLeaf s.tempName
  finalName : SafeLeaf s.finalName
  names : s.tempName ≠ s.finalName

def TransferState.validate (s : TransferState) : Except String Unit := do
  require (s.version = journalVersion) "unsupported transfer journal version"
  require (¬(¬(s.profileVersion = 1 ∨ s.profileVersion = 2) ∨ s.batchChunks = 0 ∨
    s.chunkSize = 0 ∨ s.fileSize < s.committedOffset ∨ s.deferredError = some .ok ∨
    (s.deferredError.isSome = true ∧ s.terminal ≠ .active) ∨ ¬SafeLeaf s.tempName ∨
    ¬SafeLeaf s.finalName ∨ s.tempName = s.finalName)) "invalid transfer journal fields"

/-! ## Storage -/

/-- What is stored for one transfer. Both names belong to the same file: a new
temporary file is only made when neither is in use. -/
structure Slot where
  content : Content Byte
  temp : Cell Bool
  final : Cell Bool
  entry : Cell (Option TransferState)

def Slot.blank : Slot := ⟨Content.empty,.settled false,.settled false,.settled none⟩

/-- A failing call has had no effect, or the part of it that `n` says. -/
inductive Fault where
  | early
  | cut (n : ℕ)

abbrev Script := List (Option Fault)

inductive ReceiverError where
  | codec (error : FileCodecError)
  | protocol (message : String)
  | authorization
  | conflict
  | quota
  | io
  | corrupt (message : String)
  | cancelled

def ReceiverError.ackCode : ReceiverError → AckCode
  | .authorization => .auth
  | .conflict => .conflict
  | .quota => .quota
  | .codec _ => .format
  | .protocol _ => .format
  | .io => .io
  | .corrupt _ => .internal
  | .cancelled => .internal

structure ActiveTransfer where
  state : TransferState
  /-- Whether the temporary file is held open. -/
  file : Bool
  cancelled : Bool
  batchIndex : ℕ

/-- One transfer in memory and on disk. `offered` lists the entries that were
passed to the journal. -/
structure Desk where
  transfer : ActiveTransfer
  slot : Slot
  script : Script
  offered : List TransferState

abbrev Op (α : Type) := Cmd Desk ReceiverError α

/-- A call of the file system. -/
def fsCall (act : Slot → Slot) (cut : ℕ → Slot → Slot) (error : ReceiverError) : Op Unit := fun d =>
  match d.script with
  | some .early::rest => (.error error,{d with script := rest})
  | some (.cut n)::rest => (.error error,{d with slot := cut n d.slot, script := rest})
  | _ => (.ok (),{d with slot := act d.slot, script := d.script.tail})

/-- A call that changes nothing, such as opening or reading a file. -/
def look (error : ReceiverError) : Op Unit := fsCall id (fun _ slot => slot) error

def setState (g : TransferState → TransferState) : Op Unit :=
  Cmd.update fun d => {d with transfer := {d.transfer with state := g d.transfer.state}}

def setFile (file : Bool) : Op Unit :=
  Cmd.update fun d => {d with transfer := {d.transfer with file := file}}

def createNew : Op Unit := do
  let slot ← Cmd.read (·.slot)
  Cmd.demand (slot.temp.current = false) .io
  fsCall (fun slot => {slot with content := Content.empty, temp := slot.temp.write true})
    (fun _ slot => {slot with content := Content.empty, temp := slot.temp.write true}) .io

def openExisting : Op Unit := do
  look .io
  let slot ← Cmd.read (·.slot)
  Cmd.demand (slot.temp.current = true) .io

/-- `write_all` at an offset; a failing call may have written a part. -/
def writeAll (offset : ℕ) (data : Bytes) : Op Unit :=
  fsCall (fun slot => {slot with content := slot.content.write offset data})
    (fun n slot => {slot with content := slot.content.write offset (data.take n)}) .io

def syncFile : Op Unit :=
  fsCall (fun slot => {slot with content := slot.content.sync})
    (fun _ slot => {slot with content := slot.content.sync}) .io

def Slot.syncNames (slot : Slot) : Slot :=
  {slot with temp := slot.temp.sync, final := slot.final.sync}

def syncDir : Op Unit := fsCall Slot.syncNames (fun _ slot => slot.syncNames) .io

/-- `set_len` followed by a synchronization of the file. -/
def setLen (n : ℕ) : Op Unit :=
  fsCall (fun slot => {slot with content := (slot.content.truncate n).sync})
    (fun _ slot => {slot with content := slot.content.truncate n}) .io

def removeTemp : Op Unit :=
  fsCall (fun slot => {slot with temp := slot.temp.write false})
    (fun _ slot => {slot with temp := slot.temp.write false}) .io

def removeFinal : Op Unit :=
  fsCall (fun slot => {slot with final := slot.final.write false})
    (fun _ slot => {slot with final := slot.final.write false}) .io

def hardLink : Op Unit := do
  let slot ← Cmd.read (·.slot)
  Cmd.demand (slot.temp.current = true) .io
  Cmd.demand (slot.final.current = false) .conflict
  fsCall (fun slot => {slot with final := slot.final.write true})
    (fun _ slot => {slot with final := slot.final.write true}) .io

/-- The hash of the first `length` bytes of the file under a name. -/
def hashPrefix (S : Suite) (name : Slot → Cell Bool) (length : ℕ) (error : ReceiverError) :
    Op (Block 32) := do
  look error
  let slot ← Cmd.read (·.slot)
  Cmd.demand ((name slot).current = true ∧ length ≤ slot.content.bytes.length) error
  pure (S.sha256 (slot.content.bytes.take length))

def readRange (offset length : ℕ) : Op Bytes := do
  look .io
  let slot ← Cmd.read (·.slot)
  Cmd.demand (slot.temp.current = true ∧ offset+length ≤ slot.content.bytes.length) .io
  pure ((slot.content.bytes.drop offset).take length)

/-- An entry that is in place and synchronized, and one that is only in place. -/
def Slot.stored (slot : Slot) (s : TransferState) : Slot :=
  {slot with entry := (slot.entry.write (some s)).sync}

def Slot.renamed (slot : Slot) (s : TransferState) : Slot :=
  {slot with entry := slot.entry.write (some s)}

/-- `Journal::store`. The entry is written aside and renamed into place; a
failure after the renaming leaves the new entry without synchronization. -/
def storeState : Op Unit := do
  Cmd.update fun d => {d with offered := d.offered++[d.transfer.state]}
  let s ← Cmd.read (·.transfer.state)
  Cmd.attempt (fun _ => .io) s.validate
  fsCall (·.stored s) (fun _ slot => slot.renamed s) .io

/-- `Journal::remove`. -/
def removeState : Op Unit :=
  fsCall (fun slot => {slot with entry := (slot.entry.write none).sync})
    (fun _ slot => {slot with entry := slot.entry.write none}) .io

/-! ## Operations on one transfer -/

structure Config where
  suite : Suite
  diskQuota : ℕ
  maxFileSize : ℕ
  maxChunkSize : ℕ

def ack (s : TransferState) (stage : AckStage) (code : AckCode) : FileAck where
  profileVersion := s.profileVersion
  transferId := s.transferId
  stage := stage
  code := code
  receivedSize := s.committedOffset
  fileSha256 := s.fileSha256

/-- The checkpoint of the second profile counts the record and answers at the
end of a batch, with the deferred error if there is one. -/
def checkpoint (eofBoundary : Bool) : Op (Option FileAck) := do
  let t ← Cmd.read (·.transfer)
  if t.state.profileVersion = profileVersionV2 then do
    if t.state.batchChunks ≤ t.batchIndex+1 ∨ eofBoundary = true then do
      Cmd.update fun d => {d with transfer := {d.transfer with batchIndex := 0}}
      match t.state.deferredError with
      | some code => pure (some (ack t.state .error code))
      | none => pure (some (ack t.state .accepted .ok))
    else do
      Cmd.update fun d => {d with transfer := {d.transfer with batchIndex := t.batchIndex+1}}
      pure none
  else pure (some (ack t.state .accepted .ok))

/-- A chunk before the committed offset has to repeat what is there. -/
def repeated (c : FileChunk) : Op (Option FileAck) := do
  let s ← Cmd.read (·.transfer.state)
  Cmd.demand (c.offset+c.data.length < 2^64) .conflict
  Cmd.demand (c.offset+c.data.length ≤ s.committedOffset) .conflict
  let old ← readRange c.offset c.data.length
  Cmd.demand (old = c.data) .conflict
  checkpoint (decide (c.offset+c.data.length = s.fileSize))

/-- The end of a commit: the offset moves in memory before the hash of the new
part is known and before the journal has the entry. -/
def recordChunk (S : Suite) (length : ℕ) : Op Unit := do
  setState fun s => {s with committedOffset := s.committedOffset+length}
  let s ← Cmd.read (·.transfer.state)
  let digest ← hashPrefix S Slot.temp s.committedOffset .io
  setState fun s => {s with committedSha256 := digest}
  storeState

def commitChunk (S : Suite) (c : FileChunk) : Op Unit := do
  let s ← Cmd.read (·.transfer.state)
  openExisting
  setFile true
  look .io
  writeAll s.committedOffset c.data
  syncFile
  recordChunk S c.data.length

def chunk (cfg : Config) (c : FileChunk) : Op (Option FileAck) := do
  let t ← Cmd.read (·.transfer)
  Cmd.demand (c.profileVersion = t.state.profileVersion)
    (.protocol "file profile version mismatch")
  Cmd.demand (t.cancelled = false) .cancelled
  Cmd.demand (t.state.terminal = .active) .conflict
  Cmd.attempt .codec
    (c.validateStreamBounds c.offset t.state.fileSize t.state.chunkSize cfg.maxChunkSize)
  if t.state.deferredError.isSome = true then checkpoint false
  else if c.offset < t.state.committedOffset then repeated c
  else do
    Cmd.attempt .codec (c.validateStreamBounds t.state.committedOffset t.state.fileSize
      t.state.chunkSize cfg.maxChunkSize)
    commitChunk cfg.suite c
    checkpoint (decide (c.offset+c.data.length = t.state.fileSize))

/-- Synchronizes the temporary file if it is held open. -/
def closeFile : Op Unit := do
  let t ← Cmd.read (·.transfer)
  if t.file = true then do
    setFile false
    syncFile
  else pure ()

/-- The publication of a complete file. -/
def publish (S : Suite) (size : ℕ) (expected : Block 32) : Op Unit := do
  closeFile
  let digest ← hashPrefix S Slot.temp size .io
  Cmd.demand (digest = expected) (.protocol "terminal digest mismatch")
  hardLink
  syncDir
  removeTemp
  syncDir
  setState fun s => {s with terminal := .published digest false}
  storeState

def finishUnpublished (cfg : Config) (f : FileFinish) : Op FileAck := do
  let t ← Cmd.read (·.transfer)
  Cmd.demand (t.cancelled = false) .cancelled
  Cmd.demand (¬(f.fileSize ≠ t.state.fileSize ∨ f.fileSha256 ≠ t.state.fileSha256 ∨
    t.state.committedOffset ≠ f.fileSize)) (.protocol "FileFinish mismatch")
  publish cfg.suite f.fileSize f.fileSha256
  pure (ack t.state .complete .ok)

def finish (cfg : Config) (f : FileFinish) : Op FileAck := do
  let t ← Cmd.read (·.transfer)
  Cmd.demand (f.profileVersion = t.state.profileVersion)
    (.protocol "file profile version mismatch")
  match t.state.terminal with
  | .published _ _ => pure (ack t.state .complete .ok)
  | _ => finishUnpublished cfg f

/-- Whether `error_for` answers at once instead of deferring the error. -/
def ActiveTransfer.Immediate (t : ActiveTransfer) : Prop :=
  t.state.profileVersion ≠ profileVersionV2 ∨ t.state.terminal ≠ .active ∨
    (t.state.committedOffset = t.state.fileSize ∧ t.batchIndex = 0)

instance (t : ActiveTransfer) : Decidable t.Immediate :=
  inferInstanceAs (Decidable (_ ∨ _ ∨ _))

/-- The first error of a batch is kept in the entry. -/
def deferError (code : AckCode) : Op Unit := do
  let s ← Cmd.read (·.transfer.state)
  if s.deferredError = none then do
    setState fun s => {s with deferredError := some code}
    storeState
  else pure ()

def errorUnpublished (error : ReceiverError) : Op (Option FileAck) := do
  let t ← Cmd.read (·.transfer)
  if t.Immediate then pure (some (ack t.state .error error.ackCode))
  else do
    deferError error.ackCode
    if t.state.batchChunks ≤ t.batchIndex+1 then do
      Cmd.update fun d => {d with transfer := {d.transfer with batchIndex := 0}}
      pure (some (ack t.state .error (t.state.deferredError.getD error.ackCode)))
    else do
      Cmd.update fun d => {d with transfer := {d.transfer with batchIndex := t.batchIndex+1}}
      pure none

def errorFor (error : ReceiverError) : Op (Option FileAck) := do
  let t ← Cmd.read (·.transfer)
  match t.state.terminal with
  | .published _ _ => pure (some (ack t.state .complete .ok))
  | _ => errorUnpublished error

def markCompleteAckDelivered : Op Unit := do
  let s ← Cmd.read (·.transfer.state)
  match s.terminal with
  | .published digest _ => do
      setState fun s => {s with terminal := .published digest true}
      storeState
  | _ => Cmd.fail .conflict

def cancel : Op Unit := do
  Cmd.update fun d => {d with transfer :=
    {d.transfer with
      cancelled := true
      file := false
      state := {d.transfer.state with terminal := .failed .internal}}}
  storeState

/-- The files go before the entry, so that an interrupted release resumes. -/
def release : Op Unit := do
  cancel
  removeTemp
  removeFinal
  syncDir
  removeState

/-- The durable part of `init`. -/
def initializeTransfer (cfg : Config) (init : FileInit) (authorizationHash : Block 32)
    (batch : Except FileCodecError ℕ) : Op Unit := do
  createNew
  syncFile
  syncDir
  let batchChunks ← Cmd.attempt .codec batch
  Cmd.update fun d => {d with transfer :=
    ⟨.new cfg.suite authorizationHash batchChunks init,true,false,0⟩}
  storeState

def clearTemp : Op Unit := do
  let slot ← Cmd.read (·.slot)
  if slot.temp.current = true then removeTemp else pure ()

/-- An active entry whose published name exists: the publication is completed. -/
def resumePublication (S : Suite) : Op Unit := do
  let s ← Cmd.read (·.transfer.state)
  let digest ← hashPrefix S Slot.final s.fileSize (.corrupt "published file unreadable")
  let slot ← Cmd.read (·.slot)
  Cmd.demand (slot.content.bytes.length = s.fileSize ∧ s.committedOffset = s.fileSize ∧
    digest = s.fileSha256) (.corrupt "partial publication conflicts with active journal")
  clearTemp
  syncDir
  setState fun s => {s with terminal := .published digest false}
  storeState

/-- An active entry without a published name: the temporary file is cut down to
what the entry says. -/
def resumeTransfer (S : Suite) : Op Unit := do
  let s ← Cmd.read (·.transfer.state)
  look (.corrupt "temporary file unreadable")
  let slot ← Cmd.read (·.slot)
  Cmd.demand (slot.temp.current = true ∧ s.committedOffset ≤ slot.content.bytes.length)
    (.corrupt "temporary file is shorter than journal")
  let digest ← hashPrefix S Slot.temp s.committedOffset (.corrupt "temporary file unreadable")
  Cmd.demand (digest = s.committedSha256) (.corrupt "temporary file digest differs from journal")
  if s.committedOffset < slot.content.bytes.length then do
    openExisting
    setLen s.committedOffset
    syncDir
  else pure ()

/-- What `open` does with one entry of the journal. -/
def recover (S : Suite) : Op Unit := do
  let s ← Cmd.read (·.transfer.state)
  let slot ← Cmd.read (·.slot)
  match s.terminal with
  | .active => if slot.final.current = true then resumePublication S else resumeTransfer S
  | .published digest _ => do
      let actual ← hashPrefix S Slot.final s.fileSize (.corrupt "published file unreadable")
      Cmd.demand (slot.content.bytes.length = s.fileSize ∧ actual = digest)
        (.corrupt "published file differs from journal")
  | .failed _ => Cmd.update fun d => {d with transfer := {d.transfer with cancelled := true}}

/-! ## The receiver -/

/-- A transfer that a contact has started. -/
structure Start where
  contact : FileContact
  init : FileInit
  now : ℕ

/-- The receiver with its storage. `offers`, `authorized`, `starts`, `acked` and
`abandoned` record the contacts that were offered, the transfers that were about
to start, those that did, the greatest offset acknowledged for a transfer, and the
transfers a release was asked for. -/
structure World where
  slots : SortedMap TransferId Slot
  contacts : SortedMap TransferId FileContact
  transfers : SortedMap TransferId ActiveTransfer
  reservedBytes : ℕ
  script : Script
  offered : List TransferState
  offers : List FileContact
  authorized : List Start
  starts : List Start
  acked : TransferId → Option ℕ
  abandoned : Finset TransferId

abbrev Command (α : Type) := Cmd World ReceiverError α

def World.slot (w : World) (id : TransferId) : Slot := (w.slots.find? id).getD Slot.blank

def World.desk (w : World) (id : TransferId) (t : ActiveTransfer) : Desk :=
  ⟨t,w.slot id,w.script,w.offered⟩

/-- Puts the disk part of a desk back. -/
def World.stow (w : World) (id : TransferId) (d : Desk) : World :=
  {w with slots := w.slots.insert id d.slot, script := d.script, offered := d.offered}

/-- Runs an operation for a transfer that is not in memory yet. -/
def onSlot (id : TransferId) (t : ActiveTransfer) (x : Op Unit) : Command ActiveTransfer := fun w =>
  match x (w.desk id t) with
  | (.ok (),d) => (.ok d.transfer,w.stow id d)
  | (.error e,d) => (.error e,w.stow id d)

/-- Runs an operation on a transfer; what it changed in memory stays on failure. -/
def onTransfer {α : Type} (id : TransferId) (x : Op α) : Command α := fun w =>
  match w.transfers.find? id with
  | none => (.error .authorization,w)
  | some t =>
      let (r,d) := x (w.desk id t)
      (r,{w.stow id d with transfers := w.transfers.insert id d.transfer})

def offerContact (cfg : Config) (contact : FileContact) (now : ℕ) : Command Unit := do
  Cmd.attempt .codec (contact.validate now)
  Cmd.demand (¬(cfg.maxFileSize < contact.maxFileSize ∨ cfg.maxChunkSize < contact.maxChunkSize))
    .quota
  let w ← Cmd.read id
  Cmd.demand (¬(w.contacts.contains contact.transferId = true ∨
    w.transfers.contains contact.transferId = true)) .conflict
  Cmd.update fun w => {w with
    contacts := w.contacts.insert contact.transferId contact
    offers := w.offers++[contact]}

def initHash (S : Suite) (init : FileInit) : Except FileCodecError (Block 32) := do
  let encoded ← init.encode
  pure (S.sha256 encoded)

/-- The answer to an `Init` that is repeated. -/
def replayStage : TerminalState → AckStage
  | .published _ _ => .complete
  | _ => .accepted

def batchOf (contact : FileContact) (init : FileInit) : Except FileCodecError ℕ :=
  if init.profileVersion = profileVersionV2 then
    checkpointBatchChunks contact.maxInflightBytes init.chunkSize
  else .ok 1

/-- A transfer before its state has been made. -/
def unmade (S : Suite) (hash : Block 32) (init : FileInit) : ActiveTransfer :=
  ⟨.new S hash 1 init,false,false,0⟩

def World.begin (w : World) (contact : FileContact) (init : FileInit) (now : ℕ)
    (t : ActiveTransfer) : World :=
  {w with
    contacts := w.contacts.erase init.transferId
    reservedBytes := w.reservedBytes+init.fileSize
    transfers := w.transfers.insert init.transferId t
    starts := w.starts++[⟨contact,init,now⟩]}

/-- Nothing has been acknowledged for a transfer that is about to start. -/
def World.restart (w : World) (contact : FileContact) (init : FileInit) (now : ℕ) : World :=
  {w with
    authorized := w.authorized++[⟨contact,init,now⟩]
    acked := Function.update w.acked init.transferId none
    abandoned := w.abandoned.erase init.transferId}

def init (cfg : Config) (init : FileInit) (now : ℕ) : Command FileAck := do
  let hash ← Cmd.attempt .codec (initHash cfg.suite init)
  let w ← Cmd.read id
  match w.transfers.find? init.transferId with
  | some t => do
      Cmd.demand (init.ackRoute.usable now = .ok () ∧ t.state.authorizationHash = hash)
        .authorization
      pure (ack t.state (replayStage t.state.terminal) .ok)
  | none => do
      let contact ← Cmd.obtain .authorization (w.contacts.find? init.transferId)
      Cmd.attempt (fun _ => .authorization) (init.validateAuthorization cfg.suite contact now)
      Cmd.demand (¬(cfg.maxFileSize < init.fileSize ∨ 2^64 ≤ w.reservedBytes+init.fileSize ∨
        cfg.diskQuota < w.reservedBytes+init.fileSize)) .quota
      Cmd.update (·.restart contact init now)
      let t ← onSlot init.transferId (unmade cfg.suite hash init)
        (initializeTransfer cfg init hash (batchOf contact init))
      Cmd.update (·.begin contact init now t)
      pure (ack t.state .accepted .ok)

def World.forget (w : World) (id : TransferId) (size : ℕ) : World :=
  {w with
    reservedBytes := w.reservedBytes-size
    transfers := w.transfers.erase id}

def releaseTransfer (id : TransferId) : Command Unit := do
  Cmd.update fun w => {w with
    contacts := w.contacts.erase id
    abandoned := insert id w.abandoned}
  let w ← Cmd.read (fun w => w)
  match w.transfers.find? id with
  | none => pure ()
  | some t => do
      onTransfer id release
      Cmd.update (·.forget id t.state.fileSize)

inductive Call where
  | offerContact (contact : FileContact) (now : ℕ)
  | clearOfferedContacts
  | process (record : FileRecord) (now : ℕ)
  | errorFor (id : TransferId) (error : ReceiverError)
  | markCompleteAckDelivered (id : TransferId)
  | cancel (id : TransferId)
  | release (id : TransferId)

def process (cfg : Config) (now : ℕ) : FileRecord → Command (Option FileAck)
  | .init i => do
      let a ← init cfg i now
      pure (some a)
  | .chunk c => onTransfer c.transferId (chunk cfg c)
  | .finish f => do
      let a ← onTransfer f.transferId (finish cfg f)
      pure (some a)
  | .ack _ => Cmd.fail (.protocol "receiver does not accept FileAck")

def perform (cfg : Config) : Call → Command (Option FileAck)
  | .offerContact contact now => do
      offerContact cfg contact now
      pure none
  | .clearOfferedContacts => do
      Cmd.update fun w => {w with contacts := SortedMap.empty}
      pure none
  | .process record now => process cfg now record
  | .errorFor id error => do
      let w ← Cmd.read (fun w => w)
      if w.transfers.contains id = true then onTransfer id (errorFor error) else pure none
  | .markCompleteAckDelivered id => do
      onTransfer id markCompleteAckDelivered
      pure none
  | .cancel id => do
      onTransfer id cancel
      pure none
  | .release id => do
      releaseTransfer id
      pure none

/-! ## Opening -/

def World.journal (w : World) : List (TransferId × TransferState) :=
  w.slots.entries.filterMap fun e => e.2.entry.current.map (e.1,·)

def checkLoaded : List (TransferId × TransferState) → Except ReceiverError Unit
  | [] => .ok ()
  | (id,s)::rest => do
      s.validate.mapError .corrupt
      require (s.transferId = id) (.corrupt "journal filename mismatch")
      checkLoaded rest

def World.enroll (w : World) (id : TransferId) (t : ActiveTransfer) : World :=
  {w with
    reservedBytes := w.reservedBytes+t.state.fileSize
    transfers := w.transfers.insert id t}

def recoverAll (cfg : Config) : List (TransferId × TransferState) → Command Unit
  | [] => pure ()
  | (id,s)::rest => do
      let reserved ← Cmd.read (·.reservedBytes)
      Cmd.demand (reserved+s.fileSize < 2^64) .quota
      let t ← onSlot id ⟨s,false,false,0⟩ (recover cfg.suite)
      Cmd.update (·.enroll id t)
      recoverAll cfg rest

/-- Any transfer; the removal of an orphan does not look at it. -/
def noTransfer : ActiveTransfer where
  state :=
    { version := 0, transferId := wordBlock 16 0, authorizationHash := wordBlock 32 0
      profileVersion := 0, batchChunks := 0, fileSize := 0, chunkSize := 0
      fileSha256 := wordBlock 32 0, initNonce := wordBlock 16 0, tempName := [], finalName := []
      committedOffset := 0, committedSha256 := wordBlock 32 0, deferredError := none
      terminal := .active }
  file := false
  cancelled := false
  batchIndex := 0

/-- Removes the temporary files that belong to no transfer. -/
def cleanupOrphans : List TransferId → Command Unit
  | [] => pure ()
  | id::rest => do
      let w ← Cmd.read (fun w => w)
      if w.transfers.contains id = false ∧ (w.slot id).temp.current = true then do
        let _ ← onSlot id noTransfer removeTemp
        cleanupOrphans rest
      else cleanupOrphans rest

def World.fresh (w : World) : World :=
  {w with
    contacts := SortedMap.empty
    transfers := SortedMap.empty
    reservedBytes := 0}

def openReceiver (cfg : Config) : Command Unit := do
  Cmd.update World.fresh
  let loaded ← Cmd.read World.journal
  Cmd.attempt (fun e => e) (checkLoaded loaded)
  recoverAll cfg loaded
  let ids ← Cmd.read (fun w => w.slots.entries.map (·.1))
  cleanupOrphans ids
  let reserved ← Cmd.read (·.reservedBytes)
  Cmd.demand (reserved ≤ cfg.diskQuota) .quota

/-! ## Events -/

/-- What a crash leaves of one transfer. -/
structure Remains where
  tail : Bytes
  temp : Bool
  final : Bool
  entry : Option TransferState

def Slot.crash (slot : Slot) (r : Remains) : Slot where
  content := slot.content.crash r.tail
  temp := slot.temp.crash r.temp
  final := slot.final.crash r.final
  entry := slot.entry.crash r.entry

/-- The receiver stops. A stop that loses nothing leaves the current values. -/
def World.crash (w : World) (remains : TransferId → Remains) : World :=
  {w with slots := w.slots.mapWithKey fun id slot => slot.crash (remains id)}

def World.noteAck (w : World) (a : FileAck) : World :=
  {w with
    acked := Function.update w.acked a.transferId
      (some (max a.receivedSize ((w.acked a.transferId).getD 0)))}

/-- A call on a running receiver, with the acknowledgement it returns noted. -/
def World.call (cfg : Config) (c : Call) (script : Script) (w : World) :
    Except ReceiverError (Option FileAck) × World :=
  match perform cfg c {w with script := script} with
  | (.ok (some a),w') => (.ok (some a),w'.noteAck a)
  | (r,w') => (r,w')

def World.reopen (cfg : Config) (script : Script) (w : World) : Except ReceiverError Unit × World :=
  openReceiver cfg {w with script := script}

/-- A receiver with empty directories that has not been opened yet. -/
def World.empty : World where
  slots := SortedMap.empty
  contacts := SortedMap.empty
  transfers := SortedMap.empty
  reservedBytes := 0
  script := []
  offered := []
  offers := []
  authorized := []
  starts := []
  acked := fun _ => none
  abandoned := ∅

end Gcoms.FileReceiver
