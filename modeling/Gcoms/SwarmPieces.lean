import Gcoms.ByteStrings
import Gcoms.Fallible
import Gcoms.Layouts
import Gcoms.MerkleTrees
import Gcoms.Primitives
import Gcoms.RelayCells

/-!
# Pieces of a shared file

A shared file is cut into pieces, each sealed under the key of its manifest. The
manifest holds the root of a hash tree over the sealed pieces; a piece travels
with its path in the tree. What is proved here about collisions is stated for the
messages that are hashed, since no hash is injective on all of them.
-/
namespace Gcoms.SwarmPieces
open ByteCodec ByteStrings Fallible Layouts MerkleTrees Primitives

def pieceBytes : ℕ := 256*1024

def maxFileBytes : ℕ := 10*1024*1024*1024

abbrev ShareId := Block 16

abbrev Hash := Block 32

abbrev Member := Block 32

inductive Error where
  | invalid (what : String)
  | quota
  | unavailable
  | unauthorized
  | conflict
  deriving DecidableEq

abbrev Outcome := Except Error

/-- SHA-256 and AES-256-GCM, whose ciphertexts are sixteen bytes longer than their
plaintexts. -/
structure Crypto where
  sha256 : Bytes → Hash
  aes256 : Aead 32
  decrypt_length : ∀ key nonce aad ct msg, aes256.decrypt key nonce aad ct = some msg →
    ct.length = msg.length+16

structure Scope where
  channel : Block 32
  participants : List Member
  deriving DecidableEq

namespace Scope

def validate (s : Scope) : Outcome Unit :=
  match s.participants with
  | [] => pure ()
  | [a,b] => require (a < b) (.invalid "conversation scope")
  | _ => .error (.invalid "conversation scope")

def permits (s : Scope) (member : Member) : Bool := s.participants.isEmpty || member ∈ s.participants

end Scope

structure Manifest where
  version : Byte
  id : ShareId
  scope : Scope
  name : String
  size : U64
  sha256 : Hash
  root : Hash
  key : Block 32
  deriving DecidableEq

/-! ## Hashes -/

section Hashes
variable (C : Crypto)

def emptyRoot : Hash := C.sha256 (ascii "GComs/empty-file/v1")

def leafMessage (index : U32) (data : Bytes) : Bytes := 0::(bigEndian 4 index.val++data)

def branchMessage (p : Hash × Hash) : Bytes := 1::(p.1.toList++p.2.toList)

def leaf (index : U32) (data : Bytes) : Hash := C.sha256 (leafMessage index data)

def branch (left right : Hash) : Hash := C.sha256 (branchMessage (left,right))

def zeroHash : Hash := wordBlock 32 0

def nextPowerOfTwo (n : ℕ) : ℕ := 2^Nat.clog 2 n

/-- `resize`. -/
def padded (leaves : List Hash) : List Hash :=
  leaves++List.replicate (nextPowerOfTwo leaves.length-leaves.length) zeroHash

/-- The loop adds a layer while the last one has more than one node; there are never
more layers than leaves. -/
def tree (leaves : List Hash) : List (List Hash) :=
  if leaves = [] then [[emptyRoot C]]
  else grow (branch C) (padded leaves).length (padded leaves)

end Hashes

namespace Manifest

def isControl (c : Char) : Bool := c.toNat < 32 || (127 ≤ c.toNat && c.toNat ≤ 159)

def ValidName (name : String) : Prop :=
  name ≠ "" ∧ name.utf8ByteSize ≤ 255 ∧
    name.toList.all (fun c => !(isControl c || c == '/' || c == '\\')) = true ∧
    name ≠ "." ∧ name ≠ ".."

instance decidableValidName (name : String) : Decidable (ValidName name) :=
  inferInstanceAs (Decidable (name ≠ "" ∧ name.utf8ByteSize ≤ 255 ∧
    name.toList.all (fun c => !(isControl c || c == '/' || c == '\\')) = true ∧
    name ≠ "." ∧ name ≠ ".."))

def pieces (m : Manifest) : ℕ := (m.size.val+pieceBytes-1)/pieceBytes

def validate (C : Crypto) (m : Manifest) : Outcome Unit := do
  m.scope.validate
  require (m.version = 1 ∧ m.size.val ≤ maxFileBytes ∧ ValidName m.name ∧ m.id ≠ wordBlock 16 0)
    (.invalid "manifest")
  require (m.size = 0 → m.sha256 = C.sha256 [] ∧ m.root = emptyRoot C) (.invalid "empty file digest")

def pieceLen (m : Manifest) (index : U32) : Outcome ℕ := do
  require (index.val < m.pieces) (.invalid "piece index")
  pure (min (m.size.val-index.val*pieceBytes) pieceBytes)

def cipherLen (m : Manifest) (index : U32) : Outcome ℕ := do
  let n ← m.pieceLen index
  pure (n+28)

def reservation (m : Manifest) : ℕ := m.size.val+m.pieces*1024+4096

def aad (m : Manifest) (index : U32) : Bytes :=
  ascii "GComs/piece/v1"++[0]++m.id.toList++m.scope.channel.toList++bigEndian 8 m.size.val++
    bigEndian 4 index.val++m.scope.participants.flatMap (·.toList)

section Sealing
variable (C : Crypto)

/-- `seal`, with the random nonce as an argument. -/
def sealPiece (m : Manifest) (index : U32) (nonce : Block 12) (data : Bytes) : Outcome Bytes := do
  let n ← m.pieceLen index
  require (data.length = n) (.invalid "piece length")
  pure (nonce.toList++C.aes256.encrypt m.key nonce (m.aad index) data)

def openPiece (m : Manifest) (index : U32) (data : Bytes) : Outcome Bytes := do
  let n ← m.cipherLen index
  require (data.length = n) (.invalid "ciphertext length")
  found (.invalid "piece authentication")
    (C.aes256.decrypt m.key (RelayCells.blockAt 12 data 0) (m.aad index) (data.drop 12))

end Sealing

end Manifest

def verify (C : Crypto) (m : Manifest) (index : U32) (data : Bytes) (proof : List Hash) :
    Outcome Unit := do
  let n ← m.cipherLen index
  require (data.length = n ∧ proof.length = Nat.log 2 (nextPowerOfTwo m.pieces))
    (.invalid "Merkle proof length")
  require (climb (branch C) (leaf C index data) index.val proof = m.root) (.invalid "Merkle proof")
  let _ ← m.openPiece C index data
  pure ()

/-- The messages that `verify` hashes. -/
def hashedBy (C : Crypto) (index : U32) (data : Bytes) (proof : List Hash) : List Bytes :=
  leafMessage index data::(climbed (branch C) (leaf C index data) index.val proof).map branchMessage

/-! ## Lengths -/

section Lengths
variable {C : Crypto} {m : Manifest} {index : U32}

theorem log_nextPowerOfTwo (n : ℕ) : Nat.log 2 (nextPowerOfTwo n) = Nat.clog 2 n :=
  Nat.log_pow Nat.one_lt_two _

theorem pieceLen_of_lt (h : index.val < m.pieces) :
    m.pieceLen index = .ok (min (m.size.val-index.val*pieceBytes) pieceBytes) := by
  simp only [Manifest.pieceLen,require,if_pos h]
  rfl

theorem pieceLen_ok {n : ℕ} (h : m.pieceLen index = .ok n) :
    index.val < m.pieces ∧ n = min (m.size.val-index.val*pieceBytes) pieceBytes := by
  simp only [Manifest.pieceLen,sequence_eq_ok,require_eq_ok,done_eq_ok] at h
  obtain ⟨_,hlt,rfl⟩ := h
  exact ⟨hlt,rfl⟩

theorem cipherLen_ok {n : ℕ} (h : m.cipherLen index = .ok n) :
    index.val < m.pieces ∧ n = min (m.size.val-index.val*pieceBytes) pieceBytes+28 := by
  simp only [Manifest.cipherLen,sequence_eq_ok,done_eq_ok] at h
  obtain ⟨k,hk,rfl⟩ := h
  obtain ⟨hlt,rfl⟩ := pieceLen_ok hk
  exact ⟨hlt,rfl⟩

/-- A sealed piece opens to itself. -/
theorem open_seal {nonce : Block 12} {data sealed : Bytes}
    (h : m.sealPiece C index nonce data = .ok sealed) : m.openPiece C index sealed = .ok data := by
  simp only [Manifest.sealPiece,sequence_eq_ok,require_eq_ok,done_eq_ok] at h
  obtain ⟨n,hn,_,hlength,rfl⟩ := h
  have hnonce : nonce.toList.length = 12 := nonce.toList_length
  have hcipher := C.aes256.encrypt_length m.key nonce (m.aad index) data
  simp only [Manifest.openPiece,sequence_eq_ok,require_eq_ok,found_eq_ok]
  refine ⟨n+28,?_,(),?_,?_⟩
  · simp only [Manifest.cipherLen,sequence_eq_ok,done_eq_ok]
    exact ⟨n,hn,rfl⟩
  · rw [List.length_append,hnonce,hcipher]
    omega
  · have hblock : RelayCells.blockAt 12
        (nonce.toList++C.aes256.encrypt m.key nonce (m.aad index) data) 0 = nonce := by
      apply block_inj.mp
      rw [RelayCells.blockAt_toList (by rw [List.length_append,hnonce]; omega)]
      exact slice_field [] (List.nil_append _) rfl (by simp [hnonce])
    rw [hblock,List.drop_append_of_le_length hnonce.ge,List.drop_of_length_le hnonce.le,
      List.nil_append]
    exact C.aes256.decrypt_encrypt _ _ _ _

theorem verify_ok {data : Bytes} {proof : List Hash} (h : verify C m index data proof = .ok ()) :
    index.val < m.pieces ∧ proof.length = Nat.clog 2 m.pieces ∧
      climb (branch C) (leaf C index data) index.val proof = m.root ∧
      ∃ plain, m.openPiece C index data = .ok plain := by
  simp only [verify,sequence_eq_ok,require_eq_ok,done_eq_ok] at h
  obtain ⟨n,hn,_,⟨_,hproof⟩,_,hroot,plain,hplain,_⟩ := h
  exact ⟨(cipherLen_ok hn).1,hproof.trans (log_nextPowerOfTwo _),hroot,plain,hplain⟩

theorem verify_of {data plain : Bytes} {proof : List Hash}
    (hproof : proof.length = Nat.clog 2 m.pieces)
    (hroot : climb (branch C) (leaf C index data) index.val proof = m.root)
    (hplain : m.openPiece C index data = .ok plain) : verify C m index data proof = .ok () := by
  have hopen := hplain
  simp only [Manifest.openPiece,sequence_eq_ok,require_eq_ok] at hopen
  obtain ⟨n,hn,_,hlength,_⟩ := hopen
  simp only [verify,sequence_eq_ok,require_eq_ok,done_eq_ok]
  exact ⟨n,hn,(),⟨hlength,hproof.trans (log_nextPowerOfTwo _).symm⟩,(),hroot,plain,hplain,trivial⟩

end Lengths

/-! ## One piece for each index -/

section Unique
variable {C : Crypto} {m : Manifest} {index : U32}

theorem leafMessage_inj {i j : U32} {d d' : Bytes} (h : leafMessage i d = leafMessage j d') :
    d = d' := by
  rw [leafMessage,leafMessage,List.cons.injEq] at h
  exact (List.append_inj h.2 (by simp)).2

theorem branchMessage_injective : Function.Injective branchMessage := by
  rintro ⟨a,b⟩ ⟨c,d⟩ h
  rw [branchMessage,branchMessage,List.cons.injEq] at h
  obtain ⟨h₁,h₂⟩ := List.append_inj h.2 (by simp)
  exact Prod.ext (block_inj.mp h₁) (block_inj.mp h₂)

/-- Without a collision among the messages hashed, two climbs from one index to one root
began at one piece. -/
theorem climb_leaf_unique {S : Set Bytes} (hfree : Set.InjOn C.sha256 S) {d d' : Bytes}
    {p p' : List Hash} (hlength : p.length = p'.length) (hS : ∀ x ∈ hashedBy C index d p, x ∈ S)
    (hS' : ∀ x ∈ hashedBy C index d' p', x ∈ S)
    (h : climb (branch C) (leaf C index d) index.val p =
      climb (branch C) (leaf C index d') index.val p') : d = d' ∧ p = p' := by
  obtain ⟨hleaf,hp⟩ := climb_inj hlength (fun x hx y hy hxy => by
    have hmem : branchMessage x ∈ S := hS _ (List.mem_cons_of_mem _ (List.mem_map_of_mem hx))
    have hmem' : branchMessage y ∈ S := hS' _ (List.mem_cons_of_mem _ (List.mem_map_of_mem hy))
    exact branchMessage_injective (hfree hmem hmem' hxy)) h
  have hmessage := hfree (hS _ List.mem_cons_self) (hS' _ List.mem_cons_self) hleaf
  exact ⟨leafMessage_inj hmessage,hp⟩

theorem verify_unique {S : Set Bytes} (hfree : Set.InjOn C.sha256 S) {d d' : Bytes}
    {p p' : List Hash} (h : verify C m index d p = .ok ()) (h' : verify C m index d' p' = .ok ())
    (hS : ∀ x ∈ hashedBy C index d p, x ∈ S) (hS' : ∀ x ∈ hashedBy C index d' p', x ∈ S) :
    d = d' ∧ p = p' := by
  obtain ⟨_,hlength,hroot,_⟩ := verify_ok h
  obtain ⟨_,hlength',hroot',_⟩ := verify_ok h'
  exact climb_leaf_unique hfree (hlength.trans hlength'.symm) hS hS' (hroot.trans hroot'.symm)

end Unique

/-! ## The published index -/

section Index
variable {C : Crypto}

/-- The hashes of the sealed pieces, from an index on. -/
def leaves (C : Crypto) : ℕ → List Bytes → List Hash
  | _, [] => []
  | i, data::rest => leaf C (Fin.ofNat (2^32) i) data::leaves C (i+1) rest

@[simp] theorem leaves_length (i : ℕ) (l : List Bytes) : (leaves C i l).length = l.length := by
  induction l generalizing i with
  | nil => rfl
  | cons d l ih => simp [leaves,ih]

theorem leaves_getElem? {i k : ℕ} {l : List Bytes} {d : Bytes} (h : l[k]? = some d) :
    (leaves C i l)[k]? = some (leaf C (Fin.ofNat (2^32) (i+k)) d) := by
  induction l generalizing i k with
  | nil => simp at h
  | cons e l ih =>
      cases k with
      | zero =>
          obtain rfl : e = d := by simpa using h
          rfl
      | succ k =>
          have hrest := ih (i := i+1) (k := k) (by simpa using h)
          rw [leaves,List.getElem?_cons_succ,hrest,Nat.add_assoc,Nat.add_comm 1 k]

theorem padded_length {l : List Hash} : (padded l).length = 2^Nat.clog 2 l.length := by
  have hle := Nat.le_pow_clog Nat.one_lt_two l.length
  rw [padded,List.length_append,List.length_replicate,nextPowerOfTwo]
  omega

theorem padded_getElem? {l : List Hash} {k : ℕ} {h : Hash} (hk : l[k]? = some h) :
    (padded l)[k]? = some h := by
  obtain ⟨hlt,_⟩ := List.getElem?_eq_some_iff.mp hk
  rw [padded,List.getElem?_append_left hlt]
  exact hk

theorem tree_eq_layers {l : List Hash} (hl : l ≠ []) :
    tree C l = layers (branch C) (Nat.clog 2 l.length) (padded l) := by
  rw [tree,if_neg hl]
  exact grow_eq_layers padded_length (by
    rw [padded_length]
    exact Nat.lt_two_pow_self.le)

/-- The file of the index: the hashes of all layers. -/
def treeFile (C : Crypto) (l : List Hash) : Bytes := (tree C l).flatten.flatMap (·.toList)

/-- The hash at a place of the file. -/
def lookHash (file : Bytes) (i : ℕ) : Option Hash :=
  if 32*i+32 ≤ file.length then some (RelayCells.blockAt 32 file (32*i)) else none

theorem length_flatMap_hashes (l : List Hash) : (l.flatMap (·.toList)).length = 32*l.length := by
  induction l with
  | nil => rfl
  | cons h l ih =>
      rw [List.flatMap_cons,List.length_append,ih,List.length_cons,List.Vector.toList_length]
      omega

theorem lookHash_flatMap {l : List Hash} {i : ℕ} {h : Hash} (hi : l[i]? = some h) :
    lookHash (l.flatMap (·.toList)) i = some h := by
  obtain ⟨hlt,rfl⟩ := List.getElem?_eq_some_iff.mp hi
  have hfits : 32*i+32 ≤ (l.flatMap (·.toList)).length := by
    rw [length_flatMap_hashes]
    omega
  rw [lookHash,if_pos hfits,Option.some.injEq]
  apply block_inj.mp
  rw [RelayCells.blockAt_toList hfits]
  have hsplit : l.flatMap (·.toList) = (l.take i).flatMap (·.toList)++
      (l[i].toList++(l.drop (i+1)).flatMap (·.toList)) := by
    conv_lhs => rw [← List.take_append_drop i l,List.drop_eq_getElem_cons hlt]
    rw [List.flatMap_append,List.flatMap_cons]
  apply slice_field _ hsplit
  · rw [length_flatMap_hashes,List.length_take,min_eq_left hlt.le]
  · rw [List.Vector.toList_length]

/-- The layers of a tree of height `k` have `2^(k+1)-1` nodes. -/
theorem length_flatten_layers {k : ℕ} {l : List Hash} (h : l.length = 2^k) :
    (layers (branch C) k l).flatten.length = 2*2^k-1 := by
  induction k generalizing l with
  | zero => simpa [layers] using h
  | succ k ih =>
      rw [layers,List.flatten_cons,List.length_append,ih (length_pairs_pow h),h,pow_succ]
      have hpos := Nat.two_pow_pos k
      omega

/-- `read_piece_with` walks the file of the index from the leaf to the root. -/
def indexProof (file : Bytes) (width node : ℕ) : Option (List Hash) :=
  siblings (lookHash file) width 0 width node

/-- The walk through the published index gives a proof that ends in the root. -/
theorem indexProof_climb {l : List Bytes} {i : U32} {data : Bytes} (hi : l[i.val]? = some data) :
    ∃ p, indexProof (treeFile C (leaves C 0 l)) (nextPowerOfTwo l.length) i.val = some p ∧
      p.length = Nat.clog 2 l.length ∧
      root (tree C (leaves C 0 l)) = some (climb (branch C) (leaf C i data) i.val p) := by
  have hlt : i.val < l.length := (List.getElem?_eq_some_iff.mp hi).1
  have hne : leaves C 0 l ≠ [] := by
    rw [← List.length_pos_iff,leaves_length]
    omega
  have htree := tree_eq_layers (C := C) hne
  rw [leaves_length] at htree
  have hpadded : (padded (leaves C 0 l)).length = 2^Nat.clog 2 l.length := by
    rw [padded_length,leaves_length]
  have hlook : ∀ j x, (layers (branch C) (Nat.clog 2 l.length) (padded (leaves C 0 l))).flatten[j]? =
      some x → lookHash (treeFile C (leaves C 0 l)) (0+j) = some x := by
    intro j x hx
    rw [treeFile,htree,Nat.zero_add]
    exact lookHash_flatMap hx
  have hfuel : Nat.clog 2 l.length ≤ nextPowerOfTwo l.length := Nat.lt_two_pow_self.le
  obtain ⟨p,hp,hpath⟩ := siblings_path hpadded hfuel
    (hlt.trans_le (Nat.le_pow_clog Nat.one_lt_two _)) hlook
  have hleaf : (padded (leaves C 0 l))[i.val]? = some (leaf C i data) := by
    apply padded_getElem?
    have h := leaves_getElem? (C := C) (i := 0) hi
    rw [Nat.zero_add] at h
    rw [h,Option.some.injEq]
    congr 1
    exact Fin.ext (Nat.mod_eq_of_lt i.isLt)
  refine ⟨p,hp,hpath.length,?_⟩
  rw [htree]
  exact hpath.climb_eq hpadded hleaf

end Index

/-! ## What the index decides -/

end Gcoms.SwarmPieces
