import Gcoms.Commands
import Gcoms.SortedMaps
import Gcoms.SwarmPieces

/-!
# The cache of shared files

A cache keeps, for each share, a journalled state and the files of its pieces. The
journal is sealed and written before the state in memory changes, so one map stands
for both; the files are what a disk can lose or damage. Reading a piece always
verifies it against the root of its manifest.
-/
namespace Gcoms.SwarmCache
open ByteCodec Commands Fallible MerkleTrees SortedMaps SwarmPieces

def maxTransfers : ℕ := 256

def legacyMembershipPause : String := "Conversation membership unavailable; transfer paused"

local instance memberLawfulBEq : LawfulBEq Member := inferInstance

structure CacheConfig where
  quotaBytes : U64
  retentionSecs : U64
  deriving DecidableEq

inductive Status where
  | offered
  | importing
  | downloading
  | paused
  | complete
  | failed
  | cancelled
  deriving DecidableEq

structure State where
  manifest : Manifest
  status : Status
  held : List Bool
  created : U64
  completed : Option U64
  error : Option String
  completedBy : List Member
  duplicateOf : Option ShareId
  deriving DecidableEq

def State.reserved (s : State) : ℕ :=
  if s.duplicateOf.isSome ∨ s.status = .offered ∨ s.status = .cancelled then 4096+s.held.length*8
  else s.manifest.reservation

/-- The files in the directory of a share. -/
structure Files where
  pieces : U32 → Option Bytes
  tree : Option Bytes

def Files.none : Files := ⟨fun _ => .none,.none⟩

def Files.write (f : Files) (index : U32) (file : Bytes) : Files :=
  {f with pieces := Function.update f.pieces index (some file)}

structure Cache where
  config : CacheConfig
  entries : SortedMap ShareId State
  files : ShareId → Files

abbrev Op (α : Type) := Cmd Cache Error α

def used (c : Cache) : ℕ := c.entries.sumBy State.reserved

/-! ## Files of pieces -/

section PieceFiles
variable (C : Crypto)

/-- The file of a piece: the number of hashes in its proof, the proof, the sealed bytes. -/
def pieceFile (data : Bytes) (proof : List Hash) : Bytes :=
  Fin.ofNat 256 proof.length::(proof.flatMap (·.toList)++data)

/-- The hashes in `n` blocks from a place on. -/
def hashesAt (bs : Bytes) : ℕ → ℕ → List Hash
  | 0, _ => []
  | n+1, i => RelayCells.blockAt 32 bs i::hashesAt bs n (i+32)

def readRaw (f : Files) (index : U32) : Outcome (List Hash × Bytes) := do
  -- a missing file is an I/O error in the source
  let bytes ← found .unavailable (f.pieces index)
  require (bytes.length ≤ pieceBytes+28+513) (.invalid "cache entry length")
  let n ← found (.invalid "piece header") (bytes.head?.map Fin.val)
  require (n ≤ 16 ∧ 1+n*32 ≤ bytes.length) (.invalid "piece proof")
  pure (hashesAt bytes n 1,bytes.drop (1+n*32))

/-- The proof from the published index, for a piece stored without one. -/
def publishedProof (f : Files) (m : Manifest) (index : U32) : Outcome (List Hash) := do
  let file ← found .unavailable f.tree
  let width := nextPowerOfTwo m.pieces
  require (file.length = (2*width-1)*32) (.invalid "Merkle index length")
  found .unavailable (indexProof file width index.val)

/-- The proof that a piece is verified with. -/
def proofFor (f : Files) (m : Manifest) (index : U32) (stored : List Hash) : Outcome (List Hash) :=
  if stored = [] ∧ 1 < m.pieces then publishedProof f m index else pure stored

def readPieceWith (f : Files) (m : Manifest) (index : U32) : Outcome (List Hash × Bytes) := do
  let raw ← readRaw f index
  let proof ← proofFor f m index raw.1
  verify C m index raw.2 proof
  pure (proof,raw.2)

/-- Fetches and opens `n` pieces from an index on: the sealed bytes and the content. -/
def scan (m : Manifest) (fetch : U32 → Outcome (List Hash × Bytes)) :
    ℕ → ℕ → Outcome (List Bytes × Bytes)
  | 0, _ => pure ([],[])
  | n+1, i => do
      let raw ← fetch (Fin.ofNat (2^32) i)
      let plain ← m.openPiece C (Fin.ofNat (2^32) i) raw.2
      let rest ← scan m fetch n (i+1)
      pure (raw.2::rest.1,plain++rest.2)

end PieceFiles

/-! ## States -/

section Code
variable (C : Crypto)

def get (id : ShareId) : Op State := do
  let c ← Cmd.read fun c => c
  Cmd.obtain .unavailable (c.entries.find? id)

def replace (s : State) : Op Unit :=
  Cmd.update fun c => {c with entries := c.entries.insert s.manifest.id s}

def setFiles (id : ShareId) (g : Files → Files) : Op Unit :=
  Cmd.update fun c => {c with files := Function.update c.files id (g (c.files id))}

def removePieces (id : ShareId) : Op Unit := setFiles id fun _ => Files.none

def writePiece (id : ShareId) (index : U32) (data : Bytes) (proof : List Hash) : Op Unit :=
  setFiles id fun f => f.write index (pieceFile data proof)

def cancel (id : ShareId) : Op Unit := do
  let s ← get id
  replace {s with status := .cancelled, held := s.held.map fun _ => false, completed := none}
  removePieces id

def remove (id : ShareId) : Op Unit := do
  cancel id
  Cmd.update fun c => {c with entries := c.entries.erase id}

/-! ### Retention and quota -/

def saturatingAdd (a b : U64) : ℕ := min (a.val+b.val) (2^64-1)

def State.expired (s : State) (config : CacheConfig) (now : U64) : Bool :=
  s.completed.any (fun time => saturatingAdd time config.retentionSecs ≤ now.val) ||
    ((s.status = .offered ∨ s.status = .cancelled) &&
      saturatingAdd s.created config.retentionSecs ≤ now.val)

def removeAll : List ShareId → Op Unit
  | [] => pure ()
  | id::rest => do
      remove id
      removeAll rest

def expire (now : U64) : Op Unit := do
  let c ← Cmd.read fun c => c
  removeAll ((c.entries.entries.filter fun e => e.2.expired c.config now).map Prod.fst)

/-- The order of `Option<u64>`. -/
def State.age (s : State) : ℕ := s.completed.elim 0 fun time => time.val+1

/-- `min_by_key`: the first of the least. -/
def firstLeast : List (ShareId × State) → Option (ShareId × State)
  | [] => none
  | e::rest =>
      match firstLeast rest with
      | none => some e
      | some b => if b.2.age < e.2.age then some b else some e

def oldest (c : Cache) : Option ShareId :=
  (firstLeast (c.entries.entries.filter fun e => e.2.status = .complete)).map Prod.fst

/-- The loop of `admit`; every round removes an entry. -/
def evict (bytes : ℕ) : ℕ → Op Unit
  | 0 => Cmd.fail .quota
  | n+1 => do
      let c ← Cmd.read fun c => c
      if c.config.quotaBytes.val < used c+bytes then
        match oldest c with
        | some id => do
            remove id
            evict bytes n
        | none => Cmd.fail .quota
      else pure ()

/-- `admit`. -/
def admitBytes (bytes : ℕ) (now : U64) : Op Unit := do
  expire now
  let c ← Cmd.read fun c => c
  evict bytes (c.entries.size+1)

/-! ### Offers and their states -/

def State.fresh (m : Manifest) (status : Status) (now : U64) : State :=
  ⟨m,status,List.replicate m.pieces false,now,none,none,[],none⟩

def offer (m : Manifest) (now : U64) : Op Unit := do
  Cmd.attempt (fun e => e) (m.validate C)
  let c ← Cmd.read fun c => c
  match c.entries.find? m.id with
  | some old => Cmd.demand (old.manifest = m) .conflict
  | none => do
      Cmd.demand (c.entries.size < maxTransfers) .quota
      Cmd.demand (used c+(4096+m.pieces*8) ≤ c.config.quotaBytes.val) .quota
      replace (State.fresh m .offered now)

/-- An offer gets room for its content. -/
def makeRoom (s : State) (now : U64) : Op Unit :=
  if s.status = .offered then admitBytes (s.manifest.reservation-s.reserved) now else pure ()

/-- The state that `accept` stores: an empty file is complete at once. -/
def State.accepted (s : State) (now : U64) : State :=
  if s.held = [] then {s with status := .complete, error := none, completed := some now}
  else {s with status := .downloading, error := none}

def accept (id : ShareId) (now : U64) : Op Unit := do
  let s ← get id
  if s.status = .complete then pure ()
  else do
    Cmd.demand (s.status ≠ .cancelled ∧ s.status ≠ .importing ∧ s.status ≠ .failed) .unavailable
    makeRoom s now
    replace (s.accepted now)

def receipt (id : ShareId) (member : Member) : Op Unit := do
  let s ← get id
  if member ∈ s.completedBy then pure ()
  else if s.completedBy.length < 500 then replace {s with completedBy := s.completedBy++[member]}
  else pure ()

def failure (id : ShareId) (message : String) : Op Unit := do
  let s ← get id
  replace {s with error := some message,
                  status := if s.status = .downloading then .paused else s.status}

def pause (id : ShareId) : Op Unit := do
  let s ← get id
  if s.status = .downloading ∨ (s.status = .paused ∧ s.error = some legacyMembershipPause) then
    replace {s with status := .paused, error := none}
  else pure ()

/-! ### Imports -/

/-- The manifest of a new import, with a random key. -/
def importManifest (id : ShareId) (scope : Scope) (name : String) (size : U64) (key : Block 32) :
    Manifest :=
  ⟨1,id,scope,name,size,C.sha256 [],emptyRoot C,key⟩

def beginImport (id : ShareId) (scope : Scope) (name : String) (size now : U64) (key : Block 32) :
    Op Unit := do
  let c ← Cmd.read fun c => c
  match c.entries.find? id with
  | some old => do
      Cmd.demand (old.duplicateOf.all (fun target =>
        (c.entries.find? target).any fun s => s.status = .complete) = true) .unavailable
      Cmd.demand ((old.duplicateOf.isSome ∨ old.status = .importing ∨ old.status = .complete) ∧
        old.manifest.scope = scope ∧ old.manifest.name = name ∧ old.manifest.size = size) .conflict
  | none => do
      let m := importManifest C id scope name size key
      Cmd.attempt (fun e => e) (m.validate C)
      Cmd.demand (c.entries.size < maxTransfers ∧
        (c.entries.entries.filter fun e => e.2.status = .importing).length < 2) .quota
      admitBytes m.reservation now
      replace (State.fresh m .importing now)

def importPiece (id : ShareId) (index : U32) (nonce : Block 12) (plain : Bytes) : Op Unit := do
  let s ← get id
  Cmd.demand (s.status = .importing) .conflict
  let n ← Cmd.attempt (fun e => e) (s.manifest.pieceLen index)
  Cmd.demand (plain.length = n) (.invalid "source piece length")
  let c ← Cmd.read fun c => c
  if ((c.files id).pieces index).isSome then do
    let old ← Cmd.attempt (fun e => e) (readRaw (c.files id) index)
    let original ← Cmd.attempt (fun e => e) (s.manifest.openPiece C index old.2)
    Cmd.demand (original = plain) .conflict
    replace {s with held := s.held.set index.val true}
  else do
    let cipher ← Cmd.attempt (fun e => e) (s.manifest.sealPiece C index nonce plain)
    writePiece id index cipher []
    replace {s with held := s.held.set index.val true}

/-- The manifest of the import that this one is an alias of. -/
def canonical (target : ShareId) : Op Manifest := do
  let t ← get target
  Cmd.demand (t.status = .complete ∧ t.duplicateOf = none) .unavailable
  pure t.manifest

/-- The manifest of a finished import: the digest of the content and the root over the sealed
pieces. -/
def published (m : Manifest) (found : List Bytes × Bytes) : Manifest :=
  {m with sha256 := C.sha256 found.2, root := (root (tree C (leaves C 0 found.1))).getD zeroHash}

def finishImport (id : ShareId) (now : U64) : Op Manifest := do
  let s ← get id
  match s.duplicateOf with
  | some target => canonical target
  | none =>
      if s.status = .complete then pure s.manifest
      else do
        Cmd.demand (s.status = .importing ∧ s.held.all (fun b => b) = true) .unavailable
        let c ← Cmd.read fun c => c
        let found ← Cmd.attempt (fun e => e)
          (scan C s.manifest (readRaw (c.files id)) s.held.length 0)
        setFiles id fun f => {f with tree := some (treeFile C (leaves C 0 found.1))}
        replace {s with
          manifest := published C s.manifest found, status := .complete, completed := some now}
        pure (published C s.manifest found)

/-! ### Reading and storing pieces -/

def readPiece (c : Cache) (id : ShareId) (index : U32) : Outcome (List Hash × Bytes) := do
  let s ← found .unavailable (c.entries.find? id)
  require ((s.held[index.val]?).getD false = true ∧ s.status ≠ .cancelled ∧ s.status ≠ .importing)
    .unavailable
  readPieceWith C (c.files id) s.manifest index

def exportPiece (c : Cache) (id : ShareId) (index : U32) : Outcome Bytes := do
  let s ← found .unavailable (c.entries.find? id)
  require (s.status = .complete) .unavailable
  let raw ← readPiece C c id index
  s.manifest.openPiece C index raw.2

/-- With every piece held, `put` checks the digest of the whole. -/
def settle (id : ShareId) (s : State) (now : U64) : Op Unit :=
  if s.held.all (fun b => b) = true then do
    let c ← Cmd.read fun c => c
    let found ← Cmd.attempt (fun e => e)
      (scan C s.manifest (readPieceWith C (c.files id) s.manifest) s.held.length 0)
    if C.sha256 found.2 ≠ s.manifest.sha256 then
      replace {s with status := .failed, error := some "Final file digest mismatch"}
    else replace {s with status := .complete, completed := some now}
  else replace s

def put (id : ShareId) (index : U32) (data : Bytes) (proof : List Hash) (now : U64) : Op Bool := do
  let s ← get id
  Cmd.demand (s.status = .downloading ∨ s.status = .complete) .unavailable
  Cmd.attempt (fun e => e) (verify C s.manifest index data proof)
  if (s.held[index.val]?).getD false = true then pure false
  else do
    writePiece id index data proof
    settle C id {s with held := s.held.set index.val true} now
    pure true

/-- The loop of `reuse_import` over the pieces of a retained share. -/
def exportPieces (c : Cache) (id : ShareId) : ℕ → ℕ → Outcome Bytes
  | 0, _ => pure []
  | n+1, i => do
      let plain ← exportPiece C c id (Fin.ofNat (2^32) i)
      let rest ← exportPieces c id n (i+1)
      pure (plain++rest)

/-- The first complete share with the scope, size and digest of another. -/
def twin (c : Cache) (id : ShareId) (source : State) : Option State :=
  (c.entries.entries.find? fun e => e.2.manifest.id ≠ id ∧ e.2.duplicateOf = none ∧
    e.2.status = .complete ∧ e.2.manifest.scope = source.manifest.scope ∧
    e.2.manifest.size = source.manifest.size ∧
    e.2.manifest.sha256 = source.manifest.sha256).map Prod.snd

def reuseImport (id : ShareId) : Op Manifest := do
  let source ← get id
  match source.duplicateOf with
  | some target => canonical target
  | none => do
      Cmd.demand (source.status = .complete) .unavailable
      let c ← Cmd.read fun c => c
      match twin c id source with
      | none => pure source.manifest
      | some existing => do
          let plain ← Cmd.attempt (fun e => e)
            (exportPieces C c existing.manifest.id existing.manifest.pieces 0)
          Cmd.demand (C.sha256 plain = source.manifest.sha256) (.invalid "retained content digest")
          replace {source with
            duplicateOf := some existing.manifest.id, status := .cancelled, completed := none,
            held := source.held.map fun _ => false}
          removePieces id
          pure existing.manifest

/-- The loop of `import` over an input that is read piece by piece. -/
def importPieces (m : Manifest) (nonces : ℕ → Block 12) : ℕ → ℕ → Bytes → Op Bytes
  | 0, _, input => pure input
  | n+1, i, input => do
      let k ← Cmd.attempt (fun e => e) (m.pieceLen (Fin.ofNat (2^32) i))
      -- a short input is an I/O error in the source
      Cmd.demand (k ≤ input.length) .unavailable
      importPiece C m.id (Fin.ofNat (2^32) i) (nonces i) (input.take k)
      importPieces m nonces n (i+1) (input.drop k)

def importFile (id : ShareId) (scope : Scope) (name : String) (size now : U64) (key : Block 32)
    (nonces : ℕ → Block 12) (input : Bytes) : Op Manifest := do
  beginImport C id scope name size now key
  let s ← get id
  match s.duplicateOf with
  | some target => do
      let t ← get target
      pure t.manifest
  | none =>
      if s.status = .complete then pure s.manifest
      else do
        let extra ← importPieces C s.manifest nonces s.manifest.pieces 0 input
        Cmd.demand (extra = []) (.invalid "source length changed")
        finishImport C id now

/-! ## Opening a cache -/

/-- Whether the bytes behind a journal bit are there. -/
def backed (s : State) (f : Files) (index : U32) : Bool :=
  if s.status = .importing then
    match readRaw f index with
    | .ok raw => (s.manifest.openPiece C index raw.2).toOption.isSome
    | .error _ => false
  else (readPieceWith C f s.manifest index).toOption.isSome

/-- The bits that the recovery scan leaves set. -/
def scanned (s : State) (f : Files) : ℕ → List Bool → List Bool
  | _, [] => []
  | i, b::rest => (b && backed C s f (Fin.ofNat (2^32) i))::scanned s f (i+1) rest

/-- A pause that older engines stored for a missing roster ends. -/
def State.resumed (s : State) : State :=
  if s.status = .paused ∧ s.error = some legacyMembershipPause then
    {s with status := .downloading, error := none}
  else s

def State.repaired (s : State) (f : Files) : State :=
  let held := scanned C s f 0 s.held
  if held = s.held then s
  else {s with held := held, status := if s.status = .importing then .importing else .paused,
               completed := none,
               error := some "Retained pieces failed verification; resume to repair them"}

/-- The files of a share after the cleanup of an interrupted cancellation. -/
def State.cleaned (s : State) (f : Files) : Files :=
  if s.status = .cancelled ∨ s.duplicateOf.isSome then Files.none else f

def reopenAll : List (ShareId × State) → Cache → Outcome Cache
  | [], c => pure c
  | e::rest, c => do
      e.2.manifest.validate C
      require (e.2.manifest.id = e.1 ∧ e.2.held.length = e.2.manifest.pieces ∧
        c.entries.size < maxTransfers) (.invalid "journal bounds")
      let files := e.2.cleaned (c.files e.1)
      reopenAll rest {c with entries := c.entries.insert e.1 (e.2.resumed.repaired C files),
                             files := Function.update c.files e.1 files}

/-- `open` on what a cache left behind; a directory without a journal is removed. -/
def reopen (c : Cache) : Outcome Cache :=
  reopenAll C c.entries.entries {c with
    entries := .empty,
    files := fun id => if (c.entries.find? id).isSome then c.files id else Files.none}

end Code

/-! ## Reading what was written -/

section Files
variable {C : Crypto} {f g : Files} {m : Manifest} {index : U32}

theorem hashesAt_flatMap (pre : Bytes) (proof : List Hash) (post : Bytes) :
    hashesAt (pre++(proof.flatMap (·.toList)++post)) proof.length pre.length = proof := by
  induction proof generalizing pre with
  | nil => rfl
  | cons h proof ih =>
      have hlength : h.toList.length = 32 := h.toList_length
      have hrest := ih (pre++h.toList)
      rw [List.length_append,hlength,List.append_assoc] at hrest
      simp only [List.flatMap_cons,List.length_cons,hashesAt,List.append_assoc]
      rw [hrest,List.cons.injEq]
      refine ⟨?_,rfl⟩
      apply Layouts.block_inj.mp
      rw [RelayCells.blockAt_toList (by simp only [List.length_append,hlength]; omega)]
      exact slice_field pre rfl rfl (by rw [hlength])

theorem readRaw_pieceFile {data : Bytes} {proof : List Hash}
    (hfile : f.pieces index = some (pieceFile data proof)) (hproof : proof.length ≤ 16)
    (hdata : data.length ≤ pieceBytes+28) : readRaw f index = .ok (proof,data) := by
  have hlength : (pieceFile data proof).length = 1+proof.length*32+data.length := by
    rw [pieceFile,List.length_cons,List.length_append,length_flatMap_hashes]
    omega
  have hcount : (Fin.ofNat 256 proof.length).val = proof.length :=
    Nat.mod_eq_of_lt (by omega)
  have hhashes : hashesAt (pieceFile data proof) proof.length 1 = proof :=
    hashesAt_flatMap [Fin.ofNat 256 proof.length] proof data
  have hdrop : (pieceFile data proof).drop (1+proof.length*32) = data := by
    rw [pieceFile,Nat.add_comm,List.drop_succ_cons]
    apply List.drop_left'
    rw [length_flatMap_hashes]
    omega
  simp only [readRaw,sequence_eq_ok,found_eq_ok,require_eq_ok,done_eq_ok]
  refine ⟨_,hfile,(),?_,proof.length,?_,(),?_,?_⟩
  · rw [hlength]
    omega
  · rw [pieceFile,List.head?_cons,Option.map_some,hcount]
  · rw [hlength]
    omega
  · rw [hhashes,hdrop]

theorem readRaw_congr (h : f.pieces index = g.pieces index) : readRaw f index = readRaw g index := by
  simp only [readRaw,h]

theorem readPieceWith_congr (h : f.pieces index = g.pieces index) (htree : f.tree = g.tree) :
    readPieceWith C f m index = readPieceWith C g m index := by
  simp only [readPieceWith,proofFor,publishedProof,readRaw_congr h,htree]

theorem readRaw_write_of_ne {i : U32} (h : i ≠ index) (file : Bytes) :
    readRaw (f.write index file) i = readRaw f i :=
  readRaw_congr (Function.update_of_ne h _ _)

theorem readPieceWith_write_of_ne {i : U32} (h : i ≠ index) (file : Bytes) :
    readPieceWith C (f.write index file) m i = readPieceWith C f m i :=
  readPieceWith_congr (Function.update_of_ne h _ _) rfl

theorem readRaw_write {data : Bytes} {proof : List Hash} (hproof : proof.length ≤ 16)
    (hdata : data.length ≤ pieceBytes+28) :
    readRaw (f.write index (pieceFile data proof)) index = .ok (proof,data) :=
  readRaw_pieceFile (Function.update_self _ _ _) hproof hdata

theorem readRaw_none (index : U32) : readRaw Files.none index = .error .unavailable := rfl

theorem readPieceWith_ok {r : List Hash × Bytes} (h : readPieceWith C f m index = .ok r) :
    verify C m index r.2 r.1 = .ok () ∧ ∃ proof, readRaw f index = .ok (proof,r.2) := by
  simp only [readPieceWith,sequence_eq_ok,done_eq_ok] at h
  obtain ⟨raw,hraw,proof,_,_,hverify,rfl⟩ := h
  exact ⟨hverify,raw.1,hraw⟩

/-- A piece stored with its proof reads back. -/
theorem readPieceWith_stored {data : Bytes} {proof : List Hash}
    (hraw : readRaw f index = .ok (proof,data)) (hverify : verify C m index data proof = .ok ()) :
    readPieceWith C f m index = .ok (proof,data) := by
  obtain ⟨_,hlength,_⟩ := verify_ok hverify
  have hproof : ¬(proof = [] ∧ 1 < m.pieces) := by
    rintro ⟨rfl,hlt⟩
    have hpos := Nat.clog_pos Nat.one_lt_two hlt
    rw [List.length_nil] at hlength
    omega
  simp only [readPieceWith,sequence_eq_ok,done_eq_ok]
  exact ⟨(proof,data),hraw,proof,by rw [proofFor,if_neg hproof]; rfl,(),hverify,rfl⟩

/-- A piece of a published share reads back with its proof from the index. -/
theorem readPieceWith_published {l : List Bytes} {data plain : Bytes}
    (hraw : readRaw f index = .ok ([],data)) (hl : l[index.val]? = some data)
    (hpieces : l.length = m.pieces) (htree : f.tree = some (treeFile C (leaves C 0 l)))
    (hroot : root (tree C (leaves C 0 l)) = some m.root)
    (hplain : m.openPiece C index data = .ok plain) :
    ∃ proof, readPieceWith C f m index = .ok (proof,data) := by
  obtain ⟨p,hp,hlength,hclimb⟩ := indexProof_climb (C := C) hl
  rw [hpieces] at hp hlength
  have hend : climb (branch C) (leaf C index data) index.val p = m.root :=
    Option.some.inj (hclimb.symm.trans hroot)
  have hverify := verify_of hlength hend hplain
  refine ⟨p,?_⟩
  simp only [readPieceWith,sequence_eq_ok,done_eq_ok]
  refine ⟨([],data),hraw,p,?_,(),hverify,rfl⟩
  by_cases hmany : 1 < m.pieces
  · rw [proofFor,if_pos ⟨rfl,hmany⟩]
    have hne : leaves C 0 l ≠ [] := by
      rw [← List.length_pos_iff,leaves_length]
      omega
    have hfile : (treeFile C (leaves C 0 l)).length = (2*nextPowerOfTwo m.pieces-1)*32 := by
      rw [treeFile,length_flatMap_hashes,tree_eq_layers hne,leaves_length,
        length_flatten_layers (by rw [padded_length,leaves_length]),hpieces,nextPowerOfTwo]
      omega
    simp only [publishedProof,sequence_eq_ok,found_eq_ok,require_eq_ok]
    exact ⟨_,htree,(),hfile,hp⟩
  · rw [proofFor,if_neg (fun h => hmany h.2)]
    have hzero : Nat.clog 2 m.pieces = 0 := Nat.clog_of_right_le_one (by omega) 2
    rw [hzero,List.length_eq_zero_iff] at hlength
    rw [hlength]
    rfl

theorem toOption_isSome {α : Type} {x : Outcome α} : x.toOption.isSome = true ↔ ∃ a, x = .ok a := by
  cases x with
  | error e => simp [Except.toOption]
  | ok a => simp [Except.toOption]

theorem backed_iff {s : State} (h : s.status ≠ .importing) :
    backed C s f index = true ↔ ∃ r, readPieceWith C f s.manifest index = .ok r := by
  rw [backed,if_neg h,toOption_isSome]

theorem backed_importing {s : State} (h : s.status = .importing) :
    backed C s f index = true ↔ ∃ raw plain, readRaw f index = .ok raw ∧
      s.manifest.openPiece C index raw.2 = .ok plain := by
  rw [backed,if_pos h]
  cases hraw : readRaw f index with
  | error e => simp
  | ok raw =>
      simp only [toOption_isSome]
      constructor
      · rintro ⟨plain,hplain⟩
        exact ⟨raw,plain,rfl,hplain⟩
      · rintro ⟨raw',plain,hraw',hplain⟩
        obtain rfl := Except.ok.inj hraw'
        exact ⟨plain,hplain⟩

end Files

/-! ## Reading whole files -/

section Scans
variable {C : Crypto} {m : Manifest} {fetch fetch' : U32 → Outcome (List Hash × Bytes)}

theorem scan_ok {n i : ℕ} {r : List Bytes × Bytes} (h : scan C m fetch n i = .ok r) :
    r.1.length = n ∧ ∀ k < n, ∃ raw plain, fetch (Fin.ofNat (2^32) (i+k)) = .ok raw ∧
      r.1[k]? = some raw.2 ∧ m.openPiece C (Fin.ofNat (2^32) (i+k)) raw.2 = .ok plain := by
  induction n generalizing i r with
  | zero =>
      obtain rfl : ([],[]) = r := by simpa [scan,done_eq_ok] using h
      exact ⟨rfl,fun k hk => absurd hk (Nat.not_lt_zero k)⟩
  | succ n ih =>
      simp only [scan,sequence_eq_ok,done_eq_ok] at h
      obtain ⟨raw,hraw,plain,hplain,rest,hrest,rfl⟩ := h
      obtain ⟨hlength,hall⟩ := ih hrest
      refine ⟨by rw [List.length_cons,hlength],?_⟩
      intro k hk
      cases k with
      | zero => exact ⟨raw,plain,hraw,rfl,hplain⟩
      | succ k =>
          obtain ⟨raw',plain',hraw',hget,hplain'⟩ := hall k (Nat.lt_of_succ_lt_succ hk)
          rw [Nat.add_assoc,Nat.add_comm 1 k] at hraw' hplain'
          exact ⟨raw',plain',hraw',hget,hplain'⟩

theorem scan_exists {n i : ℕ} (h : ∀ k < n, ∃ raw plain, fetch (Fin.ofNat (2^32) (i+k)) = .ok raw ∧
    m.openPiece C (Fin.ofNat (2^32) (i+k)) raw.2 = .ok plain) :
    ∃ r, scan C m fetch n i = .ok r := by
  induction n generalizing i with
  | zero => exact ⟨([],[]),rfl⟩
  | succ n ih =>
      obtain ⟨raw,plain,hraw,hplain⟩ := h 0 (Nat.succ_pos n)
      obtain ⟨rest,hrest⟩ := ih (i := i+1) (fun k hk => by
        have hnext := h (k+1) (Nat.succ_lt_succ hk)
        rw [Nat.add_comm k 1,← Nat.add_assoc] at hnext
        exact hnext)
      refine ⟨(raw.2::rest.1,plain++rest.2),?_⟩
      simp only [scan,sequence_eq_ok,done_eq_ok]
      exact ⟨raw,hraw,plain,hplain,rest,hrest,rfl⟩

/-- Scans that fetch the same sealed bytes have the same result. -/
theorem scan_eq {n i : ℕ} {r r' : List Bytes × Bytes} (h : scan C m fetch n i = .ok r)
    (h' : scan C m fetch' n i = .ok r')
    (hsame : ∀ k < n, ∀ raw raw', fetch (Fin.ofNat (2^32) (i+k)) = .ok raw →
      fetch' (Fin.ofNat (2^32) (i+k)) = .ok raw' → raw.2 = raw'.2) : r = r' := by
  induction n generalizing i r r' with
  | zero =>
      obtain rfl : ([],[]) = r := by simpa [scan,done_eq_ok] using h
      simpa [scan,done_eq_ok] using h'
  | succ n ih =>
      simp only [scan,sequence_eq_ok,done_eq_ok] at h h'
      obtain ⟨raw,hraw,plain,hplain,rest,hrest,rfl⟩ := h
      obtain ⟨raw',hraw',plain',hplain',rest',hrest',rfl⟩ := h'
      have hdata := hsame 0 (Nat.succ_pos n) raw raw' hraw hraw'
      rw [← hdata,hplain] at hplain'
      have heq := ih hrest hrest' (fun k hk a a' ha ha' => by
        rw [Nat.add_assoc,Nat.add_comm 1 k] at ha ha'
        exact hsame (k+1) (Nat.succ_lt_succ hk) a a' ha ha')
      rw [← hdata,Except.ok.inj hplain',heq]

theorem pieces_lt (hsize : m.size.val ≤ maxFileBytes) : m.pieces ≤ 40960 := by
  have h : (m.size.val+pieceBytes-1)/pieceBytes ≤ (maxFileBytes+pieceBytes-1)/pieceBytes :=
    Nat.div_le_div_right (by omega)
  exact h.trans (by decide)

end Scans

/-! ## What the small operations do -/

section Operations
variable {α : Type} {c : Cache}

theorem leads_get {id : ShareId} {f : State → Op α} {Q : α → Cache → Prop} {E : Error → Cache → Prop}
    (hf : ∀ s, c.entries.find? id = some s → Leads (f s) c Q E)
    (h : c.entries.find? id = none → E .unavailable c) : Leads (get id >>= f) c Q E := by
  unfold Leads
  simp only [get,bind_run,Cmd.read,Cmd.obtain]
  cases hfind : c.entries.find? id with
  | none => exact h hfind
  | some s => exact hf s hfind

theorem get_bind_ok {id : ShareId} {f : State → Op α} {a : α} {c' : Cache} :
    (get id >>= f) c = (.ok a,c') ↔ ∃ s, c.entries.find? id = some s ∧ f s c = (.ok a,c') := by
  simp only [get,bind_run,Cmd.read,Cmd.obtain]
  cases hfind : c.entries.find? id with
  | none => simp
  | some s => simp

/-- The operation keeps `P`, whether it succeeds or fails. -/
def Keeps (P : Cache → Prop) (x : Op α) (c : Cache) : Prop := Leads x c (fun _ => P) fun _ => P

namespace Keeps
variable {β : Type} {P : Cache → Prop}

theorem pure (a : α) (hc : P c) : Keeps P (Pure.pure a : Op α) c := hc

theorem fail (e : Error) (hc : P c) : Keeps P (Cmd.fail e : Op α) c := hc

theorem update {g : Cache → Cache} (hc : P (g c)) : Keeps P (Cmd.update g : Op Unit) c := hc

theorem update_bind {g : Cache → Cache} {f : Unit → Op β} (h : Keeps P (f ()) (g c)) :
    Keeps P (Cmd.update g >>= f) c := h

theorem read_bind {f : Cache → Op β} (h : Keeps P (f c) c) :
    Keeps P (Cmd.read (fun c => c) >>= f) c := h

theorem demand {q : Prop} [Decidable q] (e : Error) (hc : P c) : Keeps P (Cmd.demand q e) c :=
  Leads.demand (fun _ => hc) fun _ => hc

theorem demand_bind {q : Prop} [Decidable q] {e : Error} {f : Unit → Op β} (hc : P c)
    (hf : q → Keeps P (f ()) c) : Keeps P (Cmd.demand q e >>= f) c :=
  Leads.demand_bind hf fun _ => hc

theorem attempt_bind {wrap : Error → Error} {x : Outcome α} {f : α → Op β} (hc : P c)
    (hf : ∀ a, x = .ok a → Keeps P (f a) c) : Keeps P (Cmd.attempt wrap x >>= f) c :=
  Leads.attempt_bind hf fun _ _ => hc

theorem ite {q : Prop} [Decidable q] {x y : Op β} (hx : q → Keeps P x c) (hy : ¬q → Keeps P y c) :
    Keeps P (if q then x else y) c :=
  Leads.ite hx hy

theorem bind {x : Op α} {f : α → Op β} (hx : Keeps P x c) (hf : ∀ a c', P c' → Keeps P (f a) c') :
    Keeps P (x >>= f) c :=
  Leads.bind (hx.mono (fun a c' hc' => hf a c' hc') fun _ _ h => h)

theorem get_bind {id : ShareId} {f : State → Op α} (hc : P c)
    (hf : ∀ s, c.entries.find? id = some s → Keeps P (f s) c) : Keeps P (get id >>= f) c :=
  leads_get hf fun _ => hc

theorem state {x : Op α} (h : Keeps P x c) : P (x c).2 := Leads.state (P := P) h

end Keeps

/-- The cache without a share. -/
def removed (c : Cache) (id : ShareId) : Cache :=
  {c with entries := c.entries.erase id, files := Function.update c.files id Files.none}

theorem erase_insert (m : SortedMap ShareId State) (id : ShareId) (s : State) :
    (m.insert id s).erase id = m.erase id := by
  apply SortedMap.ext_find?
  intro k
  by_cases hk : k = id
  · rw [hk,SortedMap.find?_erase_self,SortedMap.find?_erase_self]
  · rw [SortedMap.find?_erase_of_ne _ hk,SortedMap.find?_erase_of_ne _ hk,
      SortedMap.find?_insert_of_ne _ _ hk]

theorem remove_run {id : ShareId} (hkey : ∀ s, c.entries.find? id = some s → s.manifest.id = id) :
    remove id c = if (c.entries.find? id).isSome then (.ok (),removed c id)
      else (.error .unavailable,c) := by
  simp only [remove,cancel,get,bind_run,Cmd.read,Cmd.obtain]
  cases hfind : c.entries.find? id with
  | none => rfl
  | some s =>
      simp only [replace,removePieces,setFiles,Cmd.update,hkey s hfind,erase_insert,removed,
        Option.isSome_some,if_true]

/-- What every removal keeps is kept by the operations that only remove. -/
structure Removable (P : Cache → Prop) : Prop where
  key : ∀ c id s, P c → c.entries.find? id = some s → s.manifest.id = id
  removed : ∀ c id s, P c → c.entries.find? id = some s → P (removed c id)

namespace Removable
variable {P : Cache → Prop}

theorem remove (hP : Removable P) (hc : P c) (id : ShareId) : Keeps P (remove id) c := by
  unfold Keeps Leads
  rw [remove_run fun s hs => hP.key c id s hc hs]
  cases hfind : c.entries.find? id with
  | none => exact hc
  | some s => exact hP.removed c id s hc hfind

theorem removeAll (hP : Removable P) (ids : List ShareId) (hc : P c) :
    Keeps P (removeAll ids) c := by
  induction ids generalizing c with
  | nil => exact hc
  | cons id ids ih => exact (hP.remove hc id).bind fun _ c' hc' => ih hc'

theorem expire (hP : Removable P) (hc : P c) (now : U64) : Keeps P (expire now) c :=
  Keeps.read_bind (hP.removeAll _ hc)

theorem evict (hP : Removable P) (bytes n : ℕ) (hc : P c) : Keeps P (evict bytes n) c := by
  induction n generalizing c with
  | zero => exact hc
  | succ n ih =>
      apply Keeps.read_bind
      apply Keeps.ite
      · intro _
        cases oldest c with
        | none => exact hc
        | some id => exact (hP.remove hc id).bind fun _ c' hc' => ih hc'
      · intro _
        exact hc

theorem admitBytes (hP : Removable P) (bytes : ℕ) (now : U64) (hc : P c) :
    Keeps P (admitBytes bytes now) c :=
  (hP.expire hc now).bind fun _ _ hc' => Keeps.read_bind (hP.evict bytes _ hc')

end Removable

end Operations

end Gcoms.SwarmCache
