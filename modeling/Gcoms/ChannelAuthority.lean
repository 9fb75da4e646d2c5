import Gcoms.Commands
import Gcoms.Fallible
import Gcoms.Layouts
import Gcoms.RelayCells

/-!
# Ownership of a channel

The owner of a channel is named by a chain of signatures. Its root is signed by
the key that the channel id commits to and names the first owner; each transfer
names a new owner and is signed by the one before it over the digest of the
whole chain so far. A member keeps one chain and replaces it only by a longer
one that adds a single transfer.

SHA-256, ML-DSA and Ed25519 are parameters. A `Setting` fixes them together with
the signatures that were ever made, so that unforgeability says that what
verifies was made, and with the byte strings that are hashed, on which the hash
does not collide.
-/
namespace Gcoms.ChannelAuthority
open ByteCodec Fallible Commands RelayCells Layouts

def rootKeyBytes : ℕ := 1952
def rootHeaderBytes : ℕ := rootKeyBytes+32+2
def maxRootBytes : ℕ := rootHeaderBytes+2+4096
def transferBytes : ℕ := 96
def maxTransfers : ℕ := 32
def channelMax : ℕ := 5000
def welcomeMagic : Bytes := ascii "GCMW1"

inductive MlsError where
  | encoding | unauthorized | memberNotFound
  deriving DecidableEq, Repr

structure Crypto where
  sha256 : Bytes → Block 32
  /-- `gcoms_crypto::verify_signature`. -/
  verifyRoot : (key message signature : Bytes) → Bool
  /-- Ed25519 under the key of a leaf. -/
  verifyLeaf : (message : Bytes) → (key : Block 32) → (signature : Bytes) → Bool

structure Group where
  groupId : Bytes
  members : List Bytes
  deriving DecidableEq

/-- What a session holds of the authority over its channel; no chain is the empty one. -/
structure Ctx where
  group : Group
  ownerPseudonym : Option (Block 32)
  adminPseudonyms : List (Block 32)
  authorityChain : Bytes
  deriving DecidableEq

section Code
variable (C : Crypto)

def channelGroupId (ownerPublicKey : Bytes) : Block 32 := C.sha256 (ascii "gc1/channel"++ownerPublicKey)

def rootPayload (root : Bytes) : Bytes := ascii "gcoms/channel-authority/root/v1"++root

def transferPayload (previous : Bytes) (next : Block 32) : Bytes :=
  ascii "gcoms/channel-authority/transfer/v1"++((C.sha256 previous).toList++next.toList)

def rootSize (chain : Bytes) : Except MlsError ℕ := do
  require (rootHeaderBytes+2 ≤ chain.length) .encoding
  let size := wordAt 2 chain rootHeaderBytes
  require (size ≠ 0 ∧ size ≤ 4096) .encoding
  require (rootHeaderBytes+2+size ≤ chain.length) .encoding
  pure (rootHeaderBytes+2+size)

/-- The loop of `verify` over `n` transfers from `start` on. -/
def walk (chain : Bytes) : ℕ → ℕ → Block 32 → Except MlsError (Block 32)
  | 0,_,owner => pure owner
  | n+1,start,owner => do
      let next := blockAt 32 chain start
      require (next ≠ owner ∧ C.verifyLeaf (transferPayload C (chain.take start) next) owner
        (slice chain (start+32) (start+96)) = true) .unauthorized
      walk chain n (start+96) next

def verify (chain : Bytes) (group : Group) : Except MlsError (Block 32 × ℕ) := do
  let root ← rootSize chain
  require ((chain.length-root)%transferBytes = 0 ∧
    chain.length ≤ root+maxTransfers*transferBytes) .encoding
  require ((channelGroupId C (chain.take rootKeyBytes)).toList = group.groupId ∧
    C.verifyRoot (chain.take rootKeyBytes) (rootPayload (chain.take rootHeaderBytes))
      (slice chain (rootHeaderBytes+2) root) = true) .unauthorized
  let capacity := wordAt 2 chain (rootHeaderBytes-2)
  require (2 ≤ capacity ∧ capacity ≤ channelMax) .encoding
  let owner ← walk C chain ((chain.length-root)/transferBytes) root (blockAt 32 chain rootKeyBytes)
  require (owner.toList ∈ group.members) .memberNotFound
  pure (owner,capacity)

abbrev Op (α : Type) := Cmd Ctx MlsError α

def storeAuthority (chain : Bytes) (owner : Block 32) : Op Unit :=
  Cmd.update (fun s => {s with
    authorityChain := chain
    ownerPseudonym := some owner
    adminPseudonyms := []})

def installOwner (chain : Bytes) : Op Unit := do
  let s ← Cmd.read id
  let verified ← Cmd.attempt id (verify C chain s.group)
  if s.authorityChain = chain then pure ()
  else if s.authorityChain = [] then do
    let root ← Cmd.attempt id (rootSize chain)
    Cmd.demand (chain.length = root+transferBytes ∧ s.ownerPseudonym.map List.Vector.toList =
      some (slice chain rootKeyBytes (rootKeyBytes+32))) .unauthorized
    storeAuthority chain verified.1
  else do
    Cmd.demand (chain.length = s.authorityChain.length+transferBytes ∧ s.authorityChain <+: chain)
      .unauthorized
    storeAuthority chain verified.1

def installOwnerFrom (actor : Block 32) (chain : Bytes) : Op Unit := do
  let s ← Cmd.read id
  let verified ← Cmd.attempt id (verify C chain s.group)
  Cmd.demand (s.ownerPseudonym = some actor ∨ verified.1 = actor) .unauthorized
  installOwner C chain

/-- `Ctx::propose_owner` at the leaf `own`, whose signer returned `signature`. -/
def proposeOwner (own next : Block 32) (signature : Bytes) : Op Bytes := do
  let s ← Cmd.read id
  Cmd.demand (s.ownerPseudonym = some own ∧ next ≠ own) .unauthorized
  let verified ← Cmd.attempt id (verify C s.authorityChain s.group)
  let root ← Cmd.attempt id (rootSize s.authorityChain)
  Cmd.demand (some verified.1 = s.ownerPseudonym ∧
    s.authorityChain.length < root+maxTransfers*transferBytes) .unauthorized
  let _ ← Cmd.attempt id (verify C (s.authorityChain++(next.toList++signature)) s.group)
  pure (s.authorityChain++(next.toList++signature))

/-- The root that a creator signs: its header, and behind it the counted signature. -/
def rootHeader (identity : Bytes) (own : Block 32) (capacity : ℕ) : Bytes :=
  identity++(own.toList++bigEndian 2 capacity)

def rootChain (header signature : Bytes) : Bytes :=
  header++(bigEndian 2 signature.length++signature)

/-- `OwnerSession::propose_owner` of the creator, who signs a root when there is none. -/
def createAndPropose (identity : Bytes) (capacity : ℕ) (own next : Block 32)
    (rootSignature signature : Bytes) : Op Bytes := do
  let s ← Cmd.read id
  if s.authorityChain = [] then do
    Cmd.demand (s.ownerPseudonym = some own) .unauthorized
    Cmd.demand (capacity < 2^16) .encoding
    Cmd.demand (rootSignature.length < 2^16) .encoding
    storeAuthority (rootChain (rootHeader identity own capacity) rootSignature) own
    proposeOwner C own next signature
  else proposeOwner C own next signature

def wrapWelcome (s : Ctx) (welcome : Bytes) : Except MlsError Bytes :=
  if s.authorityChain = [] then pure welcome
  else do
    require (s.authorityChain.length < 2^16) .encoding
    pure (welcomeMagic++(bigEndian 2 s.authorityChain.length++(s.authorityChain++welcome)))

def splitWelcome (welcome : Bytes) : Except MlsError (Bytes × Option Bytes) :=
  if welcome.take 5 = welcomeMagic then do
    require (7 ≤ welcome.length) .encoding
    let size := wordAt 2 welcome 5
    require (size ≤ maxRootBytes+maxTransfers*transferBytes) .encoding
    require (7+size ≤ welcome.length) .encoding
    pure (welcome.drop (7+size),some (slice welcome 7 (7+size)))
  else pure (welcome,none)

def restoreJoinAuthority (chain : Option Bytes) : Op Unit :=
  match chain with
  | none => pure ()
  | some chain => do
      let s ← Cmd.read id
      let verified ← Cmd.attempt id (verify C chain s.group)
      storeAuthority chain verified.1

end Code

/-- A Welcome that carries a chain splits into the chain and the plain Welcome. -/
theorem splitWelcome_wrapWelcome {s : Ctx} {welcome wrapped : Bytes}
    (hsize : s.authorityChain.length ≤ maxRootBytes+maxTransfers*transferBytes)
    (hchain : s.authorityChain ≠ []) (h : wrapWelcome s welcome = .ok wrapped) :
    splitWelcome wrapped = .ok (welcome,some s.authorityChain) := by
  rw [wrapWelcome,if_neg hchain] at h
  simp only [sequence_eq_ok,require_eq_ok,done_eq_ok] at h
  obtain ⟨_,hlen,rfl⟩ := h
  have hmagic : welcomeMagic.length = 5 := by decide
  have hword : wordAt 2 (welcomeMagic++(bigEndian 2 s.authorityChain.length++
      (s.authorityChain++welcome))) 5 = s.authorityChain.length := by
    rw [wordAt,slice_field welcomeMagic rfl hmagic (by simp)]
    exact readBigEndian_bigEndian 2 _ (by omega)
  have hslice : slice (welcomeMagic++(bigEndian 2 s.authorityChain.length++
      (s.authorityChain++welcome))) 7 (7+s.authorityChain.length) = s.authorityChain :=
    slice_field (welcomeMagic++bigEndian 2 s.authorityChain.length) (List.append_assoc ..).symm
      (by simp [hmagic]) rfl
  have hdrop : (welcomeMagic++(bigEndian 2 s.authorityChain.length++
      (s.authorityChain++welcome))).drop (7+s.authorityChain.length) = welcome := by
    rw [← List.append_assoc,← List.append_assoc]
    exact List.drop_left' (by simp [hmagic]; omega)
  have htake : (welcomeMagic++(bigEndian 2 s.authorityChain.length++
      (s.authorityChain++welcome))).take 5 = welcomeMagic := List.take_left' hmagic
  rw [splitWelcome,if_pos htake]
  simp only [sequence_eq_ok,require_eq_ok,done_eq_ok,hword,hslice,hdrop]
  refine ⟨(),?_,(),hsize,(),?_,trivial⟩
  · simp [hmagic]
    omega
  · simp [hmagic]
    omega

/-! ## Signed chains -/

structure RootSigning where
  key : Bytes
  header : Bytes
  signature : Bytes

structure TransferSigning where
  owner : Block 32
  previous : Bytes
  next : Block 32
  signature : Bytes

/-- The primitives with the signatures that were made and the strings that are hashed. What
verifies was made with exactly this signature, and hashed strings do not collide. -/
structure Setting where
  crypto : Crypto
  hashed : Set Bytes
  roots : Set RootSigning
  transfers : Set TransferSigning
  collision_free : Set.InjOn crypto.sha256 hashed
  root_made : ∀ key header signature, crypto.verifyRoot key (rootPayload header) signature = true →
    ⟨key,header,signature⟩ ∈ roots
  transfer_made : ∀ owner previous next signature,
    crypto.verifyLeaf (transferPayload crypto previous next) owner signature = true →
      ∃ t ∈ transfers, t.owner = owner ∧ t.signature = signature ∧
        transferPayload crypto t.previous t.next = transferPayload crypto previous next
  transfers_hashed : ∀ t ∈ transfers, t.previous ∈ hashed

/-- What `verify` hashes of a chain. -/
def Setting.Hashes (S : Setting) (chain : Bytes) : Prop :=
  ascii "gc1/channel"++chain.take rootKeyBytes ∈ S.hashed ∧ ∀ n, chain.take n ∈ S.hashed

/-- A chain with the owner it names. -/
structure Standing where
  chain : Bytes
  owner : Block 32

section Chains
variable (S : Setting)

/-- A root of the channel, signed by the key that the channel id commits to. -/
def IsRoot (groupId : Bytes) (a : Standing) : Prop :=
  ∃ (key : Bytes) (capacity : ℕ) (signature : Bytes), key.length = rootKeyBytes ∧
    (channelGroupId S.crypto key).toList = groupId ∧ ascii "gc1/channel"++key ∈ S.hashed ∧
    signature.length < 2^16 ∧ ⟨key,rootHeader key a.owner capacity,signature⟩ ∈ S.roots ∧
    a.chain = rootChain (rootHeader key a.owner capacity) signature

/-- One transfer, signed by the owner before it over the whole chain before it. -/
def Transfer (a b : Standing) : Prop :=
  ∃ signature : Bytes, signature.length = 64 ∧ b.owner ≠ a.owner ∧
    ⟨a.owner,a.chain,b.owner,signature⟩ ∈ S.transfers ∧
    b.chain = a.chain++(b.owner.toList++signature)

def Delegated (groupId : Bytes) (a : Standing) : Prop :=
  ∃ r, IsRoot S groupId r ∧ Relation.ReflTransGen (Transfer S) r a

end Chains

section Verification
variable {S : Setting} {chain : Bytes}

theorem take_eq_slice (chain : Bytes) (n : ℕ) : chain.take n = slice chain 0 n := by
  simp [slice]

theorem transfer_of_verified {start : ℕ} {owner : Block 32} (hhash : S.Hashes chain)
    (hlen : start+96 ≤ chain.length) (hne : blockAt 32 chain start ≠ owner)
    (hver : S.crypto.verifyLeaf (transferPayload S.crypto (chain.take start)
      (blockAt 32 chain start)) owner (slice chain (start+32) (start+96)) = true) :
    Transfer S ⟨chain.take start,owner⟩ ⟨chain.take (start+96),blockAt 32 chain start⟩ := by
  obtain ⟨⟨o,q,n,sig⟩,ht,rfl,rfl,hpayload⟩ := S.transfer_made _ _ _ _ hver
  simp only [transferPayload,List.append_cancel_left_eq,block_append_inj,block_inj] at hpayload
  obtain ⟨hsha,rfl⟩ := hpayload
  obtain rfl := S.collision_free (S.transfers_hashed _ ht) (hhash.2 start) hsha
  refine ⟨_,?_,hne,ht,?_⟩
  · rw [slice_length (by omega)]
    omega
  · simp only [take_eq_slice]
    rw [blockAt_toList (by omega),slice_append_slice (by omega) (by omega),
      slice_append_slice (by omega) (by omega)]

/-- A walk of one more transfer ends with that transfer. -/
theorem walk_last {n start : ℕ} {owner last : Block 32} (hhash : S.Hashes chain)
    (hlen : start+96*(n+1) ≤ chain.length)
    (h : walk S.crypto chain (n+1) start owner = .ok last) :
    ∃ o, Relation.ReflTransGen (Transfer S) ⟨chain.take start,owner⟩
        ⟨chain.take (start+96*n),o⟩ ∧
      Transfer S ⟨chain.take (start+96*n),o⟩ ⟨chain.take (start+96*(n+1)),last⟩ := by
  induction n generalizing start owner with
  | zero =>
      simp only [walk,sequence_eq_ok,require_eq_ok,done_eq_ok] at h
      obtain ⟨_,⟨hne,hver⟩,rfl⟩ := h
      exact ⟨owner,.refl,transfer_of_verified hhash (by omega) hne hver⟩
  | succ n ih =>
      rw [walk] at h
      simp only [sequence_eq_ok,require_eq_ok] at h
      obtain ⟨_,⟨hne,hver⟩,hrest⟩ := h
      have hfirst := transfer_of_verified hhash (by omega) hne hver
      obtain ⟨o,hpath,hlast⟩ := ih (by omega) hrest
      have h₁ : start+96+96*n = start+96*(n+1) := by omega
      have h₂ : start+96+96*(n+1) = start+96*(n+1+1) := by omega
      rw [h₁] at hpath hlast
      rw [h₂] at hlast
      exact ⟨o,.head hfirst hpath,hlast⟩

theorem walk_path {n start : ℕ} {owner last : Block 32} (hhash : S.Hashes chain)
    (hlen : start+96*n ≤ chain.length) (h : walk S.crypto chain n start owner = .ok last) :
    Relation.ReflTransGen (Transfer S) ⟨chain.take start,owner⟩ ⟨chain.take (start+96*n),last⟩ := by
  cases n with
  | zero =>
      obtain rfl := done_eq_ok.mp h
      exact .refl
  | succ n =>
      obtain ⟨o,hpath,hlast⟩ := walk_last hhash hlen h
      exact hpath.tail hlast

theorem rootSize_ok {root : ℕ} (h : rootSize chain = .ok root) :
    root = rootHeaderBytes+2+wordAt 2 chain rootHeaderBytes ∧ root ≤ chain.length ∧
      rootHeaderBytes+2 ≤ root := by
  simp only [rootSize,sequence_eq_ok,require_eq_ok,done_eq_ok] at h
  obtain ⟨_,_,_,_,_,hlen,rfl⟩ := h
  exact ⟨rfl,hlen,by omega⟩

/-- The parts of the root that `verify` reads, put together again. -/
theorem root_layout {root : ℕ} (h : rootSize chain = .ok root) :
    chain.take rootHeaderBytes = rootHeader (chain.take rootKeyBytes) (blockAt 32 chain rootKeyBytes)
        (wordAt 2 chain (rootHeaderBytes-2)) ∧
      chain.take root = rootChain (chain.take rootHeaderBytes)
        (slice chain (rootHeaderBytes+2) root) := by
  obtain ⟨hroot,hlen,hle⟩ := rootSize_ok h
  simp only [rootHeaderBytes,rootKeyBytes] at hroot hle ⊢
  constructor
  · simp only [rootHeader,take_eq_slice]
    rw [blockAt_toList (by omega),bigEndian_wordAt (by omega),slice_append_slice (by omega) (by omega),
      slice_append_slice (by omega) (by omega)]
  · simp only [rootChain,take_eq_slice]
    have hsize : (slice chain (1952+32+2+2) root).length = wordAt 2 chain (1952+32+2) := by
      rw [slice_length hlen]
      omega
    rw [hsize,bigEndian_wordAt (by omega),slice_append_slice (by omega) (by omega),
      slice_append_slice (by omega) (by omega)]

/-- What an accepted chain is made of. -/
theorem verify_ok {group : Group} {owner : Block 32} {capacity : ℕ} (hhash : S.Hashes chain)
    (h : verify S.crypto chain group = .ok (owner,capacity)) :
    ∃ root n, rootSize chain = .ok root ∧ chain.length = root+96*n ∧
      IsRoot S group.groupId ⟨chain.take root,blockAt 32 chain rootKeyBytes⟩ ∧
      walk S.crypto chain n root (blockAt 32 chain rootKeyBytes) = .ok owner := by
  simp only [verify,sequence_eq_ok,require_eq_ok,done_eq_ok,Prod.mk.injEq] at h
  obtain ⟨root,hroot,_,⟨hmod,_⟩,_,⟨hgroup,hver⟩,_,hcap,_,hwalk,_,_,rfl,rfl⟩ := h
  obtain ⟨hsize,hlen,hle⟩ := rootSize_ok hroot
  obtain ⟨hheader,hchain⟩ := root_layout hroot
  refine ⟨root,_,hroot,?_,?_,hwalk⟩
  · simp only [transferBytes] at hmod ⊢
    omega
  · have hsigned := S.root_made _ _ _ hver
    rw [hheader] at hsigned
    refine ⟨chain.take rootKeyBytes,_,_,?_,hgroup,hhash.1,?_,hsigned,?_⟩
    · rw [List.length_take]
      simp only [rootHeaderBytes] at hle
      omega
    · have hword := wordAt_lt (n := 2) (show rootHeaderBytes+2 ≤ chain.length by omega)
      rw [slice_length hlen]
      omega
    · rw [← hheader]
      exact hchain

theorem verify_delegated {group : Group} {owner : Block 32} {capacity : ℕ} (hhash : S.Hashes chain)
    (h : verify S.crypto chain group = .ok (owner,capacity)) :
    Delegated S group.groupId ⟨chain,owner⟩ := by
  obtain ⟨root,n,_,hlen,hroot,hwalk⟩ := verify_ok hhash h
  have hpath := walk_path hhash hlen.ge hwalk
  rw [List.take_of_length_le hlen.le] at hpath
  exact ⟨_,hroot,hpath⟩

end Verification

/-! ## The owner that a chain names -/

/-- Where the root of a chain ends. -/
def rootEnd (chain : Bytes) : ℕ := rootHeaderBytes+2+wordAt 2 chain rootHeaderBytes

/-- The owner field of the root, or the last transfer. -/
def ownerOf (chain : Bytes) : Block 32 :=
  if chain.length = rootEnd chain then blockAt 32 chain rootKeyBytes
  else blockAt 32 chain (chain.length-transferBytes)

theorem blockAt_field {n i : ℕ} (pre : Bytes) (b : Block n) (post : Bytes) {bs : Bytes}
    (h : bs = pre++(b.toList++post)) (hi : pre.length = i) : blockAt n bs i = b := by
  apply block_inj.mp
  rw [blockAt_toList (by simp [h,← hi])]
  exact slice_field pre h hi (by simp)

theorem wordAt_append {n i : ℕ} {xs : Bytes} (ys : Bytes) (h : i+n ≤ xs.length) :
    wordAt n (xs++ys) i = wordAt n xs i := by
  rw [wordAt,wordAt,slice,slice,List.drop_append_of_le_length (by omega),
    List.take_append_of_le_length (by simp; omega)]

section Owners
variable {S : Setting} {groupId : Bytes}

theorem isRoot_ends {a : Standing} (h : IsRoot S groupId a) :
    rootHeaderBytes+2 ≤ a.chain.length ∧ a.chain.length = rootEnd a.chain ∧
      a.owner = ownerOf a.chain := by
  obtain ⟨key,capacity,signature,hkey,-,-,hsig,-,hchain⟩ := h
  have hheader : (rootHeader key a.owner capacity).length = rootHeaderBytes := by
    simp [rootHeader,hkey,rootHeaderBytes]
  have hend : rootEnd a.chain = rootHeaderBytes+2+signature.length := by
    rw [rootEnd,hchain,wordAt,rootChain,slice_field _ rfl hheader (by simp),
      readBigEndian_bigEndian 2 _ (by omega)]
  have hlen : a.chain.length = rootHeaderBytes+2+signature.length := by
    rw [hchain,rootChain]
    simp [hheader]
    omega
  refine ⟨by omega,hlen.trans hend.symm,?_⟩
  rw [ownerOf,if_pos (hlen.trans hend.symm)]
  refine (blockAt_field key a.owner (bigEndian 2 capacity++(bigEndian 2 signature.length++signature))
    ?_ hkey).symm
  rw [hchain,rootChain,rootHeader]
  simp only [List.append_assoc]

theorem delegated_ends {a : Standing} (h : Delegated S groupId a) :
    rootHeaderBytes+2 ≤ a.chain.length ∧ rootEnd a.chain ≤ a.chain.length ∧
      a.owner = ownerOf a.chain := by
  obtain ⟨r,hr,hpath⟩ := h
  induction hpath with
  | refl =>
      obtain ⟨h₁,h₂,h₃⟩ := isRoot_ends hr
      exact ⟨h₁,h₂.ge,h₃⟩
  | @tail b c _ hstep ih =>
      obtain ⟨hb,hend,-⟩ := ih
      obtain ⟨signature,hsig,-,-,hchain⟩ := hstep
      have hend' : rootEnd c.chain = rootEnd b.chain := by
        rw [rootEnd,rootEnd,hchain,wordAt_append _ hb]
      have hlen : c.chain.length = b.chain.length+transferBytes := by
        rw [hchain]
        simp [hsig,transferBytes]
      refine ⟨by omega,by omega,?_⟩
      have hpos : 0 < transferBytes := by decide
      rw [ownerOf,if_neg (by omega)]
      exact (blockAt_field b.chain c.owner signature hchain (by omega)).symm

theorem delegated_owner_unique {chain : Bytes} {o o' : Block 32}
    (h : Delegated S groupId ⟨chain,o⟩) (h' : Delegated S groupId ⟨chain,o'⟩) : o = o' :=
  (delegated_ends h).2.2.trans (delegated_ends h').2.2.symm

theorem path_extends {a b : Standing} (h : Relation.ReflTransGen (Transfer S) a b) :
    a.chain <+: b.chain := by
  induction h with
  | refl => exact List.prefix_rfl
  | tail _ hstep ih =>
      obtain ⟨_,_,_,_,hchain⟩ := hstep
      exact ih.trans (hchain ▸ List.prefix_append _ _)

/-- Along a path the chain grows, so equal lengths mean no transfer at all. -/
theorem path_eq_of_length {a b : Standing} (h : Relation.ReflTransGen (Transfer S) a b)
    (hlen : a.chain.length = b.chain.length) : a = b := by
  cases h with
  | refl => rfl
  | @tail c _ hpath hstep =>
      obtain ⟨signature,hsig,_,_,hchain⟩ := hstep
      have hle := (path_extends hpath).length_le
      rw [hchain] at hlen
      simp only [List.length_append,List.Vector.toList_length] at hlen
      omega

end Owners

/-! ## Agreement of chains -/

/-- The root of the channel is signed once. -/
def RootOnce (S : Setting) (groupId : Bytes) : Prop :=
  ∀ r ∈ S.roots, ∀ r' ∈ S.roots, (channelGroupId S.crypto r.key).toList = groupId →
    r.key = r'.key → r = r'

/-- No owner signs two transfers over one chain. -/
def TransferOnce (S : Setting) : Prop :=
  ∀ t ∈ S.transfers, ∀ t' ∈ S.transfers, t.owner = t'.owner → t.previous = t'.previous → t = t'

section Agreement
variable {S : Setting} {groupId : Bytes}

theorem root_unique (honce : RootOnce S groupId) {a b : Standing} (ha : IsRoot S groupId a)
    (hb : IsRoot S groupId b) : a = b := by
  obtain ⟨key,capacity,signature,hkey,hgroup,hhash,-,hsigned,hchain⟩ := ha
  obtain ⟨key',capacity',signature',hkey',hgroup',hhash',-,hsigned',hchain'⟩ := hb
  have hsha : channelGroupId S.crypto key = channelGroupId S.crypto key' :=
    block_inj.mp (hgroup.trans hgroup'.symm)
  obtain rfl : key = key' := List.append_cancel_left (S.collision_free hhash hhash' hsha)
  have heq := honce _ hsigned _ hsigned' hgroup rfl
  simp only [RootSigning.mk.injEq,true_and] at heq
  obtain ⟨hheader,rfl⟩ := heq
  have howner : a.owner = b.owner := by
    simp only [rootHeader,List.append_cancel_left_eq,block_append_inj] at hheader
    exact hheader.1
  cases a
  cases b
  simp_all

theorem transfer_unique (honce : TransferOnce S) : Relator.RightUnique (Transfer S) := by
  rintro a b c ⟨signature,-,-,hsigned,hchain⟩ ⟨signature',-,-,hsigned',hchain'⟩
  have heq := honce _ hsigned _ hsigned' rfl rfl
  simp only [TransferSigning.mk.injEq,true_and] at heq
  cases b
  cases c
  simp_all

theorem delegated_comparable (hroot : RootOnce S groupId) (htransfer : TransferOnce S)
    {a b : Standing} (ha : Delegated S groupId a) (hb : Delegated S groupId b) :
    Relation.ReflTransGen (Transfer S) a b ∨ Relation.ReflTransGen (Transfer S) b a := by
  obtain ⟨r,hr,hpath⟩ := ha
  obtain ⟨q,hq,hpath'⟩ := hb
  obtain rfl := root_unique hroot hr hq
  exact Relation.ReflTransGen.total_of_right_unique (transfer_unique htransfer) hpath hpath'

end Agreement

/-! ## Sessions -/

/-- A session of a member at the leaf `own`. The creator of the channel also holds the
identity that signs the root and the capacity. -/
structure Session where
  ctx : Ctx
  own : Block 32
  creator : Option (Bytes × ℕ)

def Session.proposeOwner (C : Crypto) (s : Session) (next : Block 32)
    (rootSignature signature : Bytes) : Op Bytes :=
  match s.creator with
  | some (identity,capacity) =>
      createAndPropose C identity capacity s.own next rootSignature signature
  | none => ChannelAuthority.proposeOwner C s.own next signature

/-- A new channel, or a join through a Welcome with whatever chain it carries. -/
inductive Start (S : Setting) : Session → Prop
  | create (identity : Bytes) (capacity : ℕ) (own : Block 32)
      (hlen : identity.length = rootKeyBytes) (hhash : ascii "gc1/channel"++identity ∈ S.hashed) :
      Start S ⟨⟨⟨(channelGroupId S.crypto identity).toList,[own.toList]⟩,some own,[],[]⟩,own,
        some (identity,capacity)⟩
  | join (own : Block 32) (group : Group) (leaf : Option (Block 32)) (welcome rest : Bytes)
      (authority : Option Bytes) (ctx : Ctx) (hsplit : splitWelcome welcome = .ok (rest,authority))
      (hhash : ∀ chain ∈ authority, S.Hashes chain)
      (hrestore : restoreJoinAuthority S.crypto authority ⟨group,leaf,[],[]⟩ = (.ok (),ctx)) :
      Start S ⟨ctx,own,none⟩

/-- What happens to a session: the roster and the administrators change, chains arrive from
anybody, and the session proposes a transfer. -/
inductive Step (S : Setting) : Session → Session → Prop
  | roster (s : Session) (members : List Bytes) :
      Step S s {s with ctx := {s.ctx with group := {s.ctx.group with members := members}}}
  | setAdmins (s : Session) (admins : List (Block 32)) :
      Step S s {s with ctx := {s.ctx with adminPseudonyms := admins}}
  | installOwner (s : Session) (chain : Bytes) (hhash : S.Hashes chain) :
      Step S s {s with ctx := (installOwner S.crypto chain s.ctx).2}
  | installOwnerFrom (s : Session) (actor : Block 32) (chain : Bytes) (hhash : S.Hashes chain) :
      Step S s {s with ctx := (installOwnerFrom S.crypto actor chain s.ctx).2}
  | proposeOwner (s : Session) (next : Block 32) (rootSignature signature : Bytes)
      (hsigned : ∀ identity capacity, s.creator = some (identity,capacity) →
        ⟨identity,rootHeader identity s.own capacity,rootSignature⟩ ∈ S.roots) :
      Step S s {s with ctx := (s.proposeOwner S.crypto next rootSignature signature s.ctx).2}

def Reached (S : Setting) (s : Session) : Prop :=
  ∃ s₀, Start S s₀ ∧ Relation.ReflTransGen (Step S) s₀ s

/-- The owner is the one that the stored chain names, and the chain belongs to the channel. -/
structure Inv (S : Setting) (s : Session) : Prop where
  stored : s.ctx.authorityChain ≠ [] → ∃ owner, s.ctx.ownerPseudonym = some owner ∧
    Delegated S s.ctx.group.groupId ⟨s.ctx.authorityChain,owner⟩
  creator : ∀ identity capacity, s.creator = some (identity,capacity) →
    identity.length = rootKeyBytes ∧ ascii "gc1/channel"++identity ∈ S.hashed ∧
      (channelGroupId S.crypto identity).toList = s.ctx.group.groupId

/-- The stored chain, or a root for the present owner, grew by one transfer. -/
def Extended (S : Setting) (s s' : Ctx) : Prop :=
  ∃ a b, s.ownerPseudonym = some a.owner ∧
    (s.authorityChain = [] → IsRoot S s.group.groupId a) ∧
    (s.authorityChain ≠ [] → a.chain = s.authorityChain) ∧ Transfer S a b ∧
    Delegated S s.group.groupId b ∧
    s' = {s with authorityChain := b.chain, ownerPseudonym := some b.owner, adminPseudonyms := []}

section Install
variable {S : Setting} {chain : Bytes}

/-- The last transfer of an accepted chain with at least one. -/
theorem verify_last {group : Group} {owner : Block 32} {capacity root : ℕ} (hhash : S.Hashes chain)
    (h : verify S.crypto chain group = .ok (owner,capacity)) (hroot : rootSize chain = .ok root)
    (hlen : root+transferBytes ≤ chain.length) :
    ∃ o, Delegated S group.groupId ⟨chain.take (chain.length-transferBytes),o⟩ ∧
      Transfer S ⟨chain.take (chain.length-transferBytes),o⟩ ⟨chain,owner⟩ ∧
      (chain.length = root+transferBytes → o = blockAt 32 chain rootKeyBytes ∧
        IsRoot S group.groupId ⟨chain.take root,o⟩) := by
  obtain ⟨root',n,hroot',hn,hr,hwalk⟩ := verify_ok hhash h
  obtain rfl := Except.ok.inj (hroot.symm.trans hroot')
  simp only [transferBytes] at hlen ⊢
  obtain ⟨m,rfl⟩ : ∃ m, n = m+1 := ⟨n-1,by omega⟩
  obtain ⟨o,hpath,hlast⟩ := walk_last hhash hn.ge hwalk
  have hm : root+96*m = chain.length-96 := by omega
  rw [List.take_of_length_le hn.le] at hlast
  rw [hm] at hpath hlast
  refine ⟨o,⟨_,hr,hpath⟩,hlast,fun hone => ?_⟩
  obtain rfl : m = 0 := by omega
  simp only [walk,sequence_eq_ok,require_eq_ok,done_eq_ok] at hwalk
  have heq := path_eq_of_length hpath (by simp; omega)
  simp only [Standing.mk.injEq] at heq
  rw [← heq.2]
  exact ⟨rfl,hr⟩

/-- An installation that is accepted stores the chain it had or extends it. -/
theorem installOwner_ok {s s' : Ctx} (hhash : S.Hashes chain)
    (hstored : s.authorityChain ≠ [] → ∃ owner, s.ownerPseudonym = some owner ∧
      Delegated S s.group.groupId ⟨s.authorityChain,owner⟩)
    (h : installOwner S.crypto chain s = (.ok (),s')) : s' = s ∨ Extended S s s' := by
  simp only [installOwner,read_id_bind,attempt_bind_ok] at h
  obtain ⟨⟨owner,capacity⟩,hver,h⟩ := h
  have hdel := verify_delegated hhash hver
  by_cases hsame : s.authorityChain = chain
  · rw [if_pos hsame] at h
    exact .inl (pure_ok.mp h).2.symm
  rw [if_neg hsame] at h
  by_cases hnone : s.authorityChain = []
  · rw [if_pos hnone] at h
    simp only [attempt_bind_ok,demand_bind_ok,storeAuthority,update_ok] at h
    obtain ⟨root,hroot,⟨hlen,howner⟩,rfl⟩ := h
    obtain ⟨o,_,htransfer,hfirst⟩ := verify_last hhash hver hroot hlen.ge
    obtain ⟨rfl,hr⟩ := hfirst hlen
    obtain ⟨hsize,hle,hhead⟩ := rootSize_ok hroot
    have hroot' : chain.length-transferBytes = root := by omega
    rw [hroot'] at htransfer
    have hcurrent : s.ownerPseudonym = some (blockAt 32 chain rootKeyBytes) := by
      rw [← blockAt_toList (by simp only [rootHeaderBytes] at hhead; omega)] at howner
      cases hp : s.ownerPseudonym with
      | none => simp [hp] at howner
      | some p =>
          rw [hp,Option.map_some,Option.some.injEq,block_inj] at howner
          rw [howner]
    exact .inr ⟨_,_,hcurrent,fun _ => hr,fun hne => absurd hnone hne,htransfer,hdel,rfl⟩
  · rw [if_neg hnone] at h
    simp only [demand_bind_ok,storeAuthority,update_ok] at h
    obtain ⟨⟨hlen,hpre⟩,rfl⟩ := h
    obtain ⟨current,hcurrent,hcur⟩ := hstored hnone
    obtain ⟨root,n,hroot,hn,-,-⟩ := verify_ok hhash hver
    have hprev : chain.take (chain.length-transferBytes) = s.authorityChain := by
      rw [hlen,Nat.add_sub_cancel]
      exact (List.prefix_iff_eq_take.mp hpre).symm
    -- the root ends inside the stored chain, so the new chain has a last transfer
    have hend : root+transferBytes ≤ chain.length := by
      obtain ⟨hsize,-,-⟩ := rootSize_ok hroot
      obtain ⟨h₁,h₂,-⟩ := delegated_ends hcur
      obtain ⟨rest,rfl⟩ := hpre
      simp only [rootEnd] at h₁ h₂
      rw [wordAt_append _ h₁] at hsize
      omega
    obtain ⟨o,ho,htransfer,-⟩ := verify_last hhash hver hroot hend
    rw [hprev] at ho htransfer
    obtain rfl := delegated_owner_unique ho hcur
    exact .inr ⟨_,_,hcurrent,fun he => absurd he hnone,fun _ => rfl,htransfer,hdel,rfl⟩

theorem installOwner_refused {C : Crypto} {s : Ctx} :
    Aborts (fun _ s' => s' = s) (installOwner C chain) s := by
  refine Aborts.read_bind (Aborts.attempt_bind (fun _ _ => rfl) fun verified _ => ?_)
  split_ifs
  · exact Aborts.pure _
  · exact Aborts.attempt_bind (fun _ _ => rfl)
      fun _ _ => Aborts.demand_bind (fun _ => rfl) fun _ => Aborts.update
  · exact Aborts.demand_bind (fun _ => rfl) fun _ => Aborts.update

theorem installOwnerFrom_refused {C : Crypto} {actor : Block 32} {s : Ctx} :
    Aborts (fun _ s' => s' = s) (installOwnerFrom C actor chain) s :=
  Aborts.read_bind (Aborts.attempt_bind (fun _ _ => rfl)
    fun _ _ => Aborts.demand_bind (fun _ => rfl) fun _ => installOwner_refused)

/-- `x` from `s` ends in a state that is `s` or extends it. -/
def Settles (S : Setting) (x : Op Unit) (s : Ctx) : Prop := (x s).2 = s ∨ Extended S s (x s).2

theorem settles_of {x : Op Unit} {s : Ctx} (hrefused : Aborts (fun _ s' => s' = s) x s)
    (hok : ∀ s', x s = (.ok (),s') → s' = s ∨ Extended S s s') : Settles S x s := by
  unfold Settles
  cases hx : x s with
  | mk r s₁ =>
      cases r with
      | error e => exact .inl (hrefused e s₁ hx)
      | ok u => exact hok s₁ hx

theorem installOwner_settles {s : Session} (hs : Inv S s) (hhash : S.Hashes chain) :
    Settles S (installOwner S.crypto chain) s.ctx :=
  settles_of installOwner_refused fun _ => installOwner_ok hhash hs.stored

theorem installOwnerFrom_settles {s : Session} {actor : Block 32} (hs : Inv S s)
    (hhash : S.Hashes chain) : Settles S (installOwnerFrom S.crypto actor chain) s.ctx := by
  refine settles_of installOwnerFrom_refused fun s' h => ?_
  simp only [installOwnerFrom,read_id_bind,attempt_bind_ok,demand_bind_ok] at h
  obtain ⟨_,_,_,h⟩ := h
  exact installOwner_ok hhash hs.stored h

end Install

/-! ## Runs -/

section Runs
variable {S : Setting}

theorem inv_of_settles {s : Session} {x : Op Unit} (hs : Inv S s) (h : Settles S x s.ctx) :
    Inv S {s with ctx := (x s.ctx).2} := by
  obtain h | ⟨a,b,-,-,-,-,hdel,h⟩ := h
  · rw [h]
    exact hs
  · rw [h]
    exact ⟨fun _ => ⟨b.owner,rfl,hdel⟩,hs.creator⟩

theorem proposeOwner_state {C : Crypto} {own next : Block 32} {signature : Bytes} (s : Ctx) :
    (proposeOwner C own next signature s).2 = s := by
  refine Leads.state (P := fun s' => s' = s) ?_
  refine Leads.read_bind (Leads.demand_bind (fun _ => ?_) fun _ => rfl)
  refine Leads.attempt_bind (fun _ _ => ?_) fun _ _ => rfl
  refine Leads.attempt_bind (fun _ _ => ?_) fun _ _ => rfl
  refine Leads.demand_bind (fun _ => ?_) fun _ => rfl
  exact Leads.attempt_bind (fun _ _ => rfl) fun _ _ => rfl

/-- The creator stores a root that it signed, and nothing else changes a state here. -/
theorem createAndPropose_state {C : Crypto} {identity : Bytes} {capacity : ℕ} {own next : Block 32}
    {rootSignature signature : Bytes} (s : Ctx) :
    (createAndPropose C identity capacity own next rootSignature signature s).2 = s ∨
      s.authorityChain = [] ∧ rootSignature.length < 2^16 ∧ s.ownerPseudonym = some own ∧
      (createAndPropose C identity capacity own next rootSignature signature s).2 = {s with
        authorityChain := rootChain (rootHeader identity own capacity) rootSignature
        ownerPseudonym := some own
        adminPseudonyms := []} := by
  refine Leads.state (P := fun s' => s' = s ∨ s.authorityChain = [] ∧ rootSignature.length < 2^16 ∧
    s.ownerPseudonym = some own ∧ s' = {s with
      authorityChain := rootChain (rootHeader identity own capacity) rootSignature
      ownerPseudonym := some own
      adminPseudonyms := []}) ?_
  refine Leads.read_bind (Leads.ite (fun hnone => ?_) fun _ => ?_)
  · refine Leads.demand_bind (fun howner => ?_) fun _ => .inl rfl
    refine Leads.demand_bind (fun _ => ?_) fun _ => .inl rfl
    refine Leads.demand_bind (fun hsig => Leads.update_bind ?_) fun _ => .inl rfl
    have hstate := @proposeOwner_state C own next signature {s with
      authorityChain := rootChain (rootHeader identity own capacity) rootSignature
      ownerPseudonym := some own
      adminPseudonyms := []}
    unfold Leads
    cases hp : proposeOwner C own next signature {s with
      authorityChain := rootChain (rootHeader identity own capacity) rootSignature
      ownerPseudonym := some own
      adminPseudonyms := []} with
    | mk r s₁ =>
        rw [hp] at hstate
        cases r <;> exact .inr ⟨hnone,hsig,howner,hstate⟩
  · have hstate := @proposeOwner_state C own next signature s
    unfold Leads
    cases hp : proposeOwner C own next signature s with
    | mk r s₁ =>
        rw [hp] at hstate
        cases r <;> exact .inl hstate

theorem inv_propose {s : Session} {next : Block 32} {rootSignature signature : Bytes} (hs : Inv S s)
    (hsigned : ∀ identity capacity, s.creator = some (identity,capacity) →
      ⟨identity,rootHeader identity s.own capacity,rootSignature⟩ ∈ S.roots) :
    Inv S {s with ctx := (s.proposeOwner S.crypto next rootSignature signature s.ctx).2} := by
  unfold Session.proposeOwner
  cases hc : s.creator with
  | none =>
      simp only [proposeOwner_state]
      exact ⟨hs.stored,by simp⟩
  | some c =>
      obtain ⟨identity,capacity⟩ := c
      simp only
      obtain ⟨hlen,hhash,hgroup⟩ := hs.creator identity capacity hc
      have hcreator : ∀ i c, some (identity,capacity) = some (i,c) → i.length = rootKeyBytes ∧
          ascii "gc1/channel"++i ∈ S.hashed ∧
            (channelGroupId S.crypto i).toList = s.ctx.group.groupId := by
        rintro i c h
        obtain ⟨rfl,rfl⟩ := Prod.mk.inj (Option.some.inj h)
        exact ⟨hlen,hhash,hgroup⟩
      obtain h | ⟨_,hsig,_,h⟩ := @createAndPropose_state S.crypto identity capacity s.own next
        rootSignature signature s.ctx
      · rw [h]
        exact ⟨hs.stored,hcreator⟩
      · rw [h]
        refine ⟨fun _ => ⟨s.own,rfl,_,?_,.refl⟩,hcreator⟩
        exact ⟨identity,capacity,rootSignature,hlen,hgroup,hhash,hsig,hsigned _ _ hc,rfl⟩

theorem inv_start {s : Session} (h : Start S s) : Inv S s := by
  cases h with
  | create identity capacity own hlen hhash =>
      refine ⟨fun h => absurd rfl h,fun i c hc => ?_⟩
      obtain ⟨rfl,rfl⟩ := Prod.mk.inj (Option.some.inj hc)
      exact ⟨hlen,hhash,rfl⟩
  | join own group leaf welcome rest authority ctx hsplit hhash hrestore =>
      refine ⟨fun hne => ?_,by simp⟩
      cases authority with
      | none =>
          obtain ⟨-,rfl⟩ := pure_ok.mp hrestore
          exact absurd rfl hne
      | some chain =>
          simp only [restoreJoinAuthority,read_id_bind,attempt_bind_ok,storeAuthority,update_ok]
            at hrestore
          obtain ⟨⟨owner,capacity⟩,hver,rfl⟩ := hrestore
          exact ⟨owner,rfl,verify_delegated (hhash chain rfl) hver⟩

theorem inv_step {s s' : Session} (hs : Inv S s) (h : Step S s s') : Inv S s' := by
  cases h with
  | roster members => exact ⟨hs.stored,hs.creator⟩
  | setAdmins admins => exact ⟨hs.stored,hs.creator⟩
  | installOwner chain hhash => exact inv_of_settles hs (installOwner_settles hs hhash)
  | installOwnerFrom actor chain hhash => exact inv_of_settles hs (installOwnerFrom_settles hs hhash)
  | proposeOwner next rootSignature signature hsigned => exact inv_propose hs hsigned

theorem inv_reached {s : Session} (h : Reached S s) : Inv S s := by
  obtain ⟨s₀,h₀,hrun⟩ := h
  induction hrun with
  | refl => exact inv_start h₀
  | tail _ hstep ih => exact inv_step ih hstep

/-- What stays the same: the channel, and of a stored chain everything it holds. -/
def Keeps (s s' : Ctx) : Prop :=
  s'.group.groupId = s.group.groupId ∧ (s.authorityChain ≠ [] → s.authorityChain <+: s'.authorityChain)

theorem keeps_of_settles {s : Ctx} {x : Op Unit} (h : Settles S x s) : Keeps s (x s).2 := by
  obtain h | ⟨a,b,-,-,hprev,⟨_,_,_,_,hchain⟩,-,h⟩ := h
  · rw [h]
    exact ⟨rfl,fun _ => List.prefix_rfl⟩
  · rw [h]
    refine ⟨rfl,fun hne => ?_⟩
    rw [← hprev hne]
    exact hchain ▸ List.prefix_append _ _

theorem keeps_step {s s' : Session} (hs : Inv S s) (h : Step S s s') : Keeps s.ctx s'.ctx := by
  cases h with
  | roster members => exact ⟨rfl,fun _ => List.prefix_rfl⟩
  | setAdmins admins => exact ⟨rfl,fun _ => List.prefix_rfl⟩
  | installOwner chain hhash => exact keeps_of_settles (installOwner_settles hs hhash)
  | installOwnerFrom actor chain hhash => exact keeps_of_settles (installOwnerFrom_settles hs hhash)
  | proposeOwner next rootSignature signature hsigned =>
      unfold Session.proposeOwner
      cases s.creator with
      | none =>
          simp only [proposeOwner_state]
          exact ⟨rfl,fun _ => List.prefix_rfl⟩
      | some c =>
          obtain h | ⟨hnone,_,_,h⟩ := @createAndPropose_state S.crypto c.1 c.2 s.own next
            rootSignature signature s.ctx
          · simp only [h]
            exact ⟨rfl,fun _ => List.prefix_rfl⟩
          · simp only [h]
            exact ⟨rfl,fun hne => absurd hnone hne⟩

theorem keeps_run {s s' : Session} (hs : Inv S s) (h : Relation.ReflTransGen (Step S) s s') :
    Inv S s' ∧ Keeps s.ctx s'.ctx := by
  induction h with
  | refl => exact ⟨hs,rfl,fun _ => List.prefix_rfl⟩
  | tail _ hstep ih =>
      obtain ⟨hinv,hgroup,hchain⟩ := ih
      obtain ⟨hgroup',hchain'⟩ := keeps_step hinv hstep
      refine ⟨inv_step hinv hstep,hgroup'.trans hgroup,fun hne => ?_⟩
      have hpre := hchain hne
      have hne' : _ ≠ [] := fun he => hne (List.prefix_nil.mp (he ▸ hpre))
      exact hpre.trans (hchain' hne')

end Runs

/-! ## One chain -/

def rootKey (chain : Bytes) : Bytes := chain.take rootKeyBytes

def capacityOf (chain : Bytes) : ℕ := wordAt 2 chain (rootHeaderBytes-2)

/-- The two calls that install a chain. -/
def Installs (C : Crypto) (chain : Bytes) (x : Op Unit) : Prop :=
  x = installOwner C chain ∨ ∃ actor, x = installOwnerFrom C actor chain

/-- The ownership of a channel follows one signed chain. -/
structure Governed (S : Setting) : Prop where
  extended : ∀ s, Reached S s → ∀ chain x, S.Hashes chain → Installs S.crypto chain x →
    (x s.ctx).2.ownerPseudonym ≠ s.ctx.ownerPseudonym → Extended S s.ctx (x s.ctx).2
  refused : ∀ s chain x e, Installs S.crypto chain x → (x s).1 = .error e → (x s).2 = s
  fixed : ∀ s s', Reached S s → Relation.ReflTransGen (Step S) s s' →
    s'.ctx.group.groupId = s.ctx.group.groupId ∧ (s.ctx.authorityChain ≠ [] →
      (channelGroupId S.crypto (rootKey s.ctx.authorityChain)).toList = s.ctx.group.groupId ∧
      rootKey s'.ctx.authorityChain = rootKey s.ctx.authorityChain ∧
      capacityOf s'.ctx.authorityChain = capacityOf s.ctx.authorityChain)
  agreed : ∀ s s', Reached S s → Reached S s' → s.ctx.group.groupId = s'.ctx.group.groupId →
    RootOnce S s.ctx.group.groupId → TransferOnce S →
      (s.ctx.authorityChain <+: s'.ctx.authorityChain ∨
        s'.ctx.authorityChain <+: s.ctx.authorityChain) ∧
      (s.ctx.authorityChain ≠ [] → s.ctx.authorityChain.length = s'.ctx.authorityChain.length →
        s.ctx.ownerPseudonym = s'.ctx.ownerPseudonym)

section Governed
variable {S : Setting}

theorem take_of_extends {n : ℕ} {xs ys : Bytes} (h : xs <+: ys) (hn : n ≤ xs.length) :
    ys.take n = xs.take n := by
  obtain ⟨rest,rfl⟩ := h
  exact List.take_append_of_le_length hn

theorem isRoot_key {groupId : Bytes} {a : Standing} (h : IsRoot S groupId a) :
    (channelGroupId S.crypto (rootKey a.chain)).toList = groupId := by
  obtain ⟨key,capacity,signature,hkey,hgroup,-,-,-,hchain⟩ := h
  have hroot : rootKey a.chain = key := by
    rw [rootKey,hchain,rootChain,rootHeader,List.append_assoc]
    exact List.take_left' hkey
  rw [hroot,hgroup]

theorem delegated_key {groupId : Bytes} {a : Standing} (h : Delegated S groupId a) :
    (channelGroupId S.crypto (rootKey a.chain)).toList = groupId := by
  obtain ⟨r,hr,hpath⟩ := h
  have hlen := (isRoot_ends hr).1
  rw [rootKey,take_of_extends (path_extends hpath) (by simp only [rootHeaderBytes] at hlen; omega)]
  exact isRoot_key hr

theorem settles_of_installs {s : Session} {chain : Bytes} {x : Op Unit} (hs : Inv S s)
    (hhash : S.Hashes chain) (h : Installs S.crypto chain x) : Settles S x s.ctx := by
  obtain rfl | ⟨actor,rfl⟩ := h
  · exact installOwner_settles hs hhash
  · exact installOwnerFrom_settles hs hhash

theorem refused_of_installs {C : Crypto} {s : Ctx} {chain : Bytes} {x : Op Unit}
    (h : Installs C chain x) : Aborts (fun _ s' => s' = s) x s := by
  obtain rfl | ⟨actor,rfl⟩ := h
  · exact installOwner_refused
  · exact installOwnerFrom_refused

theorem fixed_of_inv {s s' : Session} (hs : Inv S s) (hrun : Relation.ReflTransGen (Step S) s s')
    (hne : s.ctx.authorityChain ≠ []) :
    (channelGroupId S.crypto (rootKey s.ctx.authorityChain)).toList = s.ctx.group.groupId ∧
      rootKey s'.ctx.authorityChain = rootKey s.ctx.authorityChain ∧
      capacityOf s'.ctx.authorityChain = capacityOf s.ctx.authorityChain := by
  obtain ⟨owner,-,hdel⟩ := hs.stored hne
  have hpre := (keeps_run hs hrun).2.2 hne
  have hlen : rootHeaderBytes+2 ≤ s.ctx.authorityChain.length := (delegated_ends hdel).1
  have hhead : rootHeaderBytes = 1986 := rfl
  refine ⟨delegated_key hdel,take_of_extends hpre (by simp only [rootKeyBytes]; omega),?_⟩
  obtain ⟨rest,hrest⟩ := hpre
  rw [capacityOf,capacityOf,← hrest]
  exact wordAt_append rest (by omega)

/-- Chains of one channel are prefixes of one another, and chains of equal length name
one owner. -/
theorem agreed_of_inv {s s' : Session} (hs : Inv S s) (hs' : Inv S s')
    (hgroup : s.ctx.group.groupId = s'.ctx.group.groupId) (hroot : RootOnce S s.ctx.group.groupId)
    (htransfer : TransferOnce S) :
    (s.ctx.authorityChain <+: s'.ctx.authorityChain ∨
        s'.ctx.authorityChain <+: s.ctx.authorityChain) ∧
      (s.ctx.authorityChain ≠ [] → s.ctx.authorityChain.length = s'.ctx.authorityChain.length →
        s.ctx.ownerPseudonym = s'.ctx.ownerPseudonym) := by
  by_cases hnone : s.ctx.authorityChain = []
  · exact ⟨.inl (hnone ▸ List.nil_prefix),fun hne => absurd hnone hne⟩
  by_cases hnone' : s'.ctx.authorityChain = []
  · refine ⟨.inr (hnone' ▸ List.nil_prefix),fun _ hlen => ?_⟩
    rw [hnone',List.length_nil,List.length_eq_zero_iff] at hlen
    exact absurd hlen hnone
  obtain ⟨owner,howner,hdel⟩ := hs.stored hnone
  obtain ⟨owner',howner',hdel'⟩ := hs'.stored hnone'
  rw [← hgroup] at hdel'
  have hpath := delegated_comparable hroot htransfer hdel hdel'
  refine ⟨hpath.imp path_extends path_extends,fun _ hlen => ?_⟩
  rw [howner,howner']
  obtain hpath | hpath := hpath
  · rw [(Standing.mk.inj (path_eq_of_length hpath hlen)).2]
  · rw [(Standing.mk.inj (path_eq_of_length hpath hlen.symm)).2]

end Governed

/-- Installing, joining and proposing keep the ownership of a channel on one signed chain. -/
theorem ownership_follows_one_chain (S : Setting) : Governed S where
  extended s hs chain x hhash hx hne := by
    obtain h | h := settles_of_installs (inv_reached hs) hhash hx
    · exact absurd (congrArg Ctx.ownerPseudonym h) hne
    · exact h
  refused s chain x e hx he := by
    have h := @refused_of_installs S.crypto s chain x hx
    cases hr : x s with
    | mk r s₁ =>
        rw [hr] at he
        obtain rfl : r = .error e := he
        exact h e s₁ hr
  fixed s s' hs hrun :=
    ⟨(keeps_run (inv_reached hs) hrun).2.1,fixed_of_inv (inv_reached hs) hrun⟩
  agreed s s' hs hs' hgroup hroot htransfer :=
    agreed_of_inv (inv_reached hs) (inv_reached hs') hgroup hroot htransfer

/-! A channel with one transfer. -/

def sampleKey : Bytes := List.replicate rootKeyBytes 0

def sampleRoot : Bytes := rootChain (rootHeader sampleKey (wordBlock 32 1) 8) [7]

def sampleSignature : Bytes := List.replicate 64 9

def sampleChain : Bytes := sampleRoot++((wordBlock 32 2).toList++sampleSignature)

/-- Strings are told apart by their length and by whether they name a channel. -/
def sampleHash (x : Bytes) : Block 32 :=
  wordBlock 32 (2*x.length+if x.head? = some 103 then 1 else 0)

def samplePayload : Bytes :=
  ascii "gcoms/channel-authority/transfer/v1"++((sampleHash sampleRoot).toList++
    (wordBlock 32 2).toList)

def sampleCrypto : Crypto where
  sha256 := sampleHash
  verifyRoot key message signature := decide (key = sampleKey ∧
    message = rootPayload (rootHeader sampleKey (wordBlock 32 1) 8) ∧ signature = [7])
  verifyLeaf message key signature := decide (message = samplePayload ∧ key = wordBlock 32 1 ∧
    signature = sampleSignature)

theorem samplePayload_eq : transferPayload sampleCrypto sampleRoot (wordBlock 32 2) = samplePayload := by
  rw [transferPayload,samplePayload]
  rfl

theorem sampleHash_inj {x y : Bytes} (hx : x.length < 2^64) (hy : y.length < 2^64)
    (h : sampleHash x = sampleHash y) :
    x.length = y.length ∧ (x.head? = some 103 ↔ y.head? = some 103) := by
  have heq := bigEndian_injective (by split_ifs <;> omega) (by split_ifs <;> omega)
    (congrArg List.Vector.toList h)
  split_ifs at heq with h₁ h₂ h₂
  · exact ⟨by omega,iff_of_true h₁ h₂⟩
  · omega
  · omega
  · exact ⟨by omega,iff_of_false h₁ h₂⟩

theorem sampleChain_length : sampleChain.length = 2085 := by decide +kernel

theorem head_of_sampleChain {x : Bytes} (h : x <+: sampleChain) : x.head? ≠ some 103 := by
  intro hx
  obtain ⟨rest,hrest⟩ := h
  have hhead : sampleChain.head? = some 0 := by decide +kernel
  rw [← hrest,List.head?_append,hx] at hhead
  simp at hhead

def sampleTransfer : TransferSigning := ⟨wordBlock 32 1,sampleRoot,wordBlock 32 2,sampleSignature⟩

theorem sample_verifyLeaf {message signature : Bytes} {key : Block 32}
    (h : sampleCrypto.verifyLeaf message key signature = true) :
    message = samplePayload ∧ key = wordBlock 32 1 ∧ signature = sampleSignature :=
  of_decide_eq_true h

def sampleSetting : Setting where
  crypto := sampleCrypto
  hashed := {x | x <+: sampleChain ∨ x = ascii "gc1/channel"++sampleKey}
  roots := {⟨sampleKey,rootHeader sampleKey (wordBlock 32 1) 8,[7]⟩}
  transfers := {sampleTransfer}
  collision_free := by
    have hlen : (ascii "gc1/channel"++sampleKey).length < 2^64 := by decide +kernel
    have hhead : (ascii "gc1/channel"++sampleKey).head? = some 103 := by decide +kernel
    have hchain : ∀ x, x <+: sampleChain → x.length < 2^64 := fun x hx => by
      have hle := hx.length_le
      rw [sampleChain_length] at hle
      omega
    rintro x (hx | rfl) y (hy | rfl) h
    · have heq := (sampleHash_inj (hchain x hx) (hchain y hy) h).1
      rw [List.prefix_iff_eq_take.mp hx,List.prefix_iff_eq_take.mp hy,heq]
    · exact absurd ((sampleHash_inj (hchain x hx) hlen h).2.mpr hhead) (head_of_sampleChain hx)
    · exact absurd ((sampleHash_inj hlen (hchain y hy) h).2.mp hhead) (head_of_sampleChain hy)
    · rfl
  root_made key header signature h := by
    obtain ⟨rfl,hpayload,rfl⟩ := of_decide_eq_true h
    rw [List.append_cancel_left hpayload]
    rfl
  transfer_made owner previous next signature h := by
    obtain ⟨hpayload,hkey,hsignature⟩ := sample_verifyLeaf h
    refine ⟨sampleTransfer,Set.mem_singleton _,hkey.symm,hsignature.symm,?_⟩
    rw [hpayload]
    exact samplePayload_eq
  transfers_hashed t ht := by
    rw [Set.mem_singleton_iff.mp ht]
    exact .inl (List.prefix_append _ _)

/-- The transfer is accepted by a member that knows the creator only. -/
theorem ownership_follows_one_chain_sample : Governed sampleSetting ∧
    (installOwner sampleCrypto sampleChain ⟨⟨(channelGroupId sampleCrypto sampleKey).toList,
      [(wordBlock 32 2).toList]⟩,some (wordBlock 32 1),[],[]⟩).2.ownerPseudonym =
        some (wordBlock 32 2) :=
  ⟨ownership_follows_one_chain sampleSetting,by decide +kernel⟩

end Gcoms.ChannelAuthority
