import Gcoms.Commands
import Gcoms.Fallible
import Gcoms.Layouts
import Gcoms.NewestEntries
import Gcoms.SortedMaps

/-!
# Display metadata of a channel

The topic of a channel and the nicknames of its members travel as authenticated
packets: single updates from their authors, and snapshots that an administrator
takes of its own state for a newcomer. Both are merged into the stored metadata,
the topic by its sequence number and its author, a nickname by its sequence
number. The stored form and the packets are JSON; the serializer, base64 and the
transfer of ownership come from elsewhere and are parameters.
-/
namespace Gcoms.ChannelMetadata
open ByteCodec Commands Fallible Layouts NewestEntries SortedMaps

def maxUpdateBytes : ℕ := 16*1024

/-- The limit of `set_channel_metadata`. -/
def maxMetadataBytes : ℕ := 16*1024

local instance blockLawfulBEq : LawfulBEq (Block 32) := inferInstance

inductive ChannelChange where
  | topic (text : String)
  | nickname (text : String)
  | transfer (next : Block 32)
  | leave
  | close
  deriving DecidableEq

structure Value where
  sequence : U64
  text : String
  deriving DecidableEq

structure Metadata where
  topic : Value
  topicActor : String
  nicknames : SortedMap String Value
  leaving : Finset String
  closed : Bool
  deriving DecidableEq

def Metadata.initial : Metadata := ⟨⟨0,""⟩,"",.empty,∅,false⟩

structure Update where
  version : Byte
  sequence : U64
  change : ChannelChange
  deriving DecidableEq

inductive Packet where
  | update (u : Update)
  | ownership (encoded : String)
  | snapshot (metadata : Metadata)
  deriving DecidableEq

/-- What a session knows of its channel, with the stored encoding of the metadata. -/
structure ChannelRole where
  own : Block 32
  roster : List (Block 32)
  owner : Option (Block 32)
  admins : List (Block 32)
  metadata : Bytes
  deriving DecidableEq

/-- Serialization and the transfer of ownership, which changes the owner and the
administrators and nothing else. -/
structure Env where
  encodePacket : Packet → Bytes
  decodePacket : Bytes → Option Packet
  encodeMetadata : Metadata → Bytes
  decodeMetadata : Bytes → Option Metadata
  encodeB64 : Bytes → String
  decodeB64 : String → Option Bytes
  proposeOwner : ChannelRole → Block 32 → Except String Bytes
  installOwner : ChannelRole → Block 32 → Bytes → Except String ChannelRole
  decode_encodePacket : ∀ p, decodePacket (encodePacket p) = some p
  decode_encodeMetadata : ∀ m, decodeMetadata (encodeMetadata m) = some m
  encodeMetadata_ne_nil : ∀ m, encodeMetadata m ≠ []
  installOwner_metadata : ∀ r actor chain r', installOwner r actor chain = .ok r' →
    r'.metadata = r.metadata

/-! ## Texts and identities -/

def hexDigit (n : ℕ) : Char := if n < 10 then Char.ofNat (48+n) else Char.ofNat (87+n)

/-- `id`: the member key in lower-case hexadecimal. -/
def memberId (member : Block 32) : String :=
  String.ofList (member.toList.flatMap (fun b => [hexDigit (b.val/16),hexDigit (b.val%16)]))

def isAsciiHexdigit (c : Char) : Bool :=
  ('0' ≤ c && c ≤ '9') || ('a' ≤ c && c ≤ 'f') || ('A' ≤ c && c ≤ 'F')

/-- The characters of the Unicode category Cc. -/
def isControl (c : Char) : Bool := c.toNat < 32 || (127 ≤ c.toNat && c.toNat ≤ 159)

/-- The characters with the Unicode property White_Space. -/
def isWhitespace (c : Char) : Bool :=
  (9 ≤ c.toNat && c.toNat ≤ 13) || c.toNat == 0x20 || c.toNat == 0x85 || c.toNat == 0xa0 ||
    c.toNat == 0x1680 || (0x2000 ≤ c.toNat && c.toNat ≤ 0x200a) || c.toNat == 0x2028 ||
    c.toNat == 0x2029 || c.toNat == 0x202f || c.toNat == 0x205f || c.toNat == 0x3000

def checkText (text : String) (maximum : ℕ) (empty : Bool) : Except String Unit :=
  let least := if empty then 0 else 1
  require (text.utf8ByteSize ≤ maximum ∧ (empty = true ∨ text.toList.all isWhitespace = false) ∧
    text.toList.any isControl = false)
    s!"Use {least}–{maximum} UTF-8 bytes without control characters"

def ChannelChange.validate : ChannelChange → Except String Unit
  | .transfer _ | .leave | .close => pure ()
  | .topic text => checkText text 512 true
  | .nickname text => checkText text 64 false

/-! ## Merging -/

/-- Whether the first stamp of a topic is later than the second. -/
def Later (sequence : U64) (actor : String) (sequence' : U64) (actor' : String) : Prop :=
  sequence' < sequence ∨ sequence' = sequence ∧ actor' < actor

instance decidableLater (s : U64) (a : String) (s' : U64) (a' : String) :
    Decidable (Later s a s' a') :=
  inferInstanceAs (Decidable (s' < s ∨ s' = s ∧ a' < a))

def Metadata.mergeTopic (m : Metadata) (value : Value) (actor : String) : Metadata :=
  if Later value.sequence actor m.topic.sequence m.topicActor then
    {m with topic := value, topicActor := actor}
  else m

def mergeNickname (names : SortedMap String Value) (key : String) (value : Value) :
    SortedMap String Value :=
  if (names.find? key).all (fun old => decide (old.sequence < value.sequence)) then
    names.insert key value
  else names

/-- The loop over the nicknames of a snapshot. -/
def mergeNicknames (names : SortedMap String Value) (incoming : List (String × Value)) :
    SortedMap String Value :=
  incoming.foldl (fun names e => mergeNickname names e.1 e.2) names

def Metadata.mergeSnapshot (m incoming : Metadata) : Metadata :=
  let merged := m.mergeTopic incoming.topic incoming.topicActor
  {merged with nicknames := mergeNicknames m.nicknames incoming.nicknames.entries}

namespace ChannelRole

def channelAdmin (r : ChannelRole) (member : Block 32) : Bool :=
  r.owner = some member || member ∈ r.admins

def known (r : ChannelRole) (key : String) : Bool := r.roster.any (fun m => memberId m = key)

end ChannelRole

def Metadata.applyUpdate (m : Metadata) (r : ChannelRole) (actor : Block 32) (u : Update) :
    Except String Metadata :=
  let m := {m with leaving := m.leaving.filter (fun key => r.known key = true)}
  match u.change with
  | .close => do
      require (r.owner = some actor) "Only the channel owner can close it"
      pure {m with closed := true}
  | .leave => do
      require (r.owner ≠ some actor) "Transfer ownership or close the channel before leaving"
      pure {m with leaving := insert (memberId actor) m.leaving}
  | .transfer _ => .error "Ownership requires a signed delegation"
  | .topic text => do
      require (r.channelAdmin actor = true)
        "Only the channel owner or an administrator can change its topic"
      pure (m.mergeTopic ⟨u.sequence,text⟩ (memberId actor))
  | .nickname text =>
      let current := m.nicknames.retain (fun key _ => r.known key)
      pure {m with nicknames := mergeNickname current (memberId actor) ⟨u.sequence,text⟩}

def validateNicknames (r : ChannelRole) : List (String × Value) → Except String Unit
  | [] => pure ()
  | e::rest => do
      (ChannelChange.nickname e.2.text).validate
      require (e.2.sequence ≠ 0 ∧ r.known e.1 = true) "Unknown nickname identity"
      validateNicknames r rest

def Metadata.validateSnapshot (m : Metadata) (r : ChannelRole) : Except String Unit := do
  (ChannelChange.topic m.topic.text).validate
  require (m.topic.sequence = 0 ∨ m.topicActor.toList.length = 64 ∧
    m.topicActor.toList.all isAsciiHexdigit = true) "Unknown topic authority"
  validateNicknames r m.nicknames.entries

/-! ## Packets -/

section Code
variable (E : Env)

abbrev Op (α : Type) := Cmd ChannelRole String α

def read (r : ChannelRole) : Except String Metadata :=
  if r.metadata = [] then pure Metadata.initial
  else found "Invalid retained channel metadata" (E.decodeMetadata r.metadata)

def setChannelMetadata (bytes : Bytes) : Op Unit := do
  Cmd.demand (bytes.length ≤ maxMetadataBytes) "malformed encoding"
  Cmd.update (fun r => {r with metadata := bytes})

def receiveOwnership (actor : Block 32) (encoded : String) : Op Unit := do
  let chain ← Cmd.obtain "Invalid ownership encoding" (E.decodeB64 encoded)
  Cmd.demand (E.encodeB64 chain = encoded) "Noncanonical ownership encoding"
  let r ← Cmd.read id
  let r' ← Cmd.attempt id (E.installOwner r actor chain)
  Cmd.update (fun _ => r')

def receiveSnapshot (actor : Block 32) (incoming : Metadata) : Op Unit := do
  let r ← Cmd.read id
  Cmd.demand (r.channelAdmin actor = true)
    "Only channel administrators can seed display metadata"
  Cmd.attempt id (incoming.validateSnapshot r)
  let m ← Cmd.attempt id (read E r)
  setChannelMetadata (E.encodeMetadata (m.mergeSnapshot incoming))

def receiveUpdate (actor : Block 32) (u : Update) : Op Unit := do
  Cmd.demand (u.version = 1 ∧ u.sequence ≠ 0) "Unsupported channel metadata version or counter"
  Cmd.attempt id u.change.validate
  let r ← Cmd.read id
  Cmd.demand (actor ∈ r.roster) "Unknown channel member"
  let m ← Cmd.attempt id (read E r)
  let merged ← Cmd.attempt id (m.applyUpdate r actor u)
  setChannelMetadata (E.encodeMetadata merged)

def receive (actor : Block 32) (wire : Bytes) : Op Unit := do
  Cmd.demand (wire.length ≤ maxUpdateBytes) "Channel metadata exceeds limit"
  let r ← Cmd.read id
  let m ← Cmd.attempt id (read E r)
  Cmd.demand (m.closed = false) "This channel is closed"
  let packet ← Cmd.obtain "Invalid channel metadata update" (E.decodePacket wire)
  match packet with
  | .ownership encoded => receiveOwnership E actor encoded
  | .snapshot incoming => receiveSnapshot E actor incoming
  | .update u => receiveUpdate E actor u

/-- `checked_add(1)`. -/
def successor (n : U64) : Option U64 := if h : n.val+1 < 2^64 then some ⟨n.val+1,h⟩ else none

/-- The sequence number that a change follows. -/
def previous (m : Metadata) (actor : Block 32) : ChannelChange → U64
  | .topic _ => m.topic.sequence
  | .nickname _ => ((m.nicknames.find? (memberId actor)).map Value.sequence).getD 0
  | _ => 0

def prepareUpdate (m : Metadata) (actor : Block 32) (change : ChannelChange) : Op Bytes := do
  let sequence ← Cmd.obtain "Channel metadata counter exhausted"
    (successor (previous m actor change))
  let wire := E.encodePacket (.update ⟨1,sequence,change⟩)
  receive E actor wire
  pure wire

def prepare (change : ChannelChange) : Op Bytes := do
  Cmd.attempt id change.validate
  let r ← Cmd.read id
  let m ← Cmd.attempt id (read E r)
  Cmd.demand (m.closed = false) "This channel is closed"
  match change with
  | .transfer next => do
      let chain ← Cmd.attempt id (E.proposeOwner r next)
      let wire := E.encodePacket (.ownership (E.encodeB64 chain))
      receive E r.own wire
      pure wire
  | change => prepareUpdate E m r.own change

def snapshot (r : ChannelRole) : Except String Bytes := do
  let m ← read E r
  let wire := E.encodePacket (.snapshot
    {m with nicknames := m.nicknames.retain (fun key _ => r.known key)})
  require (wire.length ≤ maxUpdateBytes) "Channel metadata exceeds limit"
  pure wire

end Code

/-! ## What a state reflects -/

theorem hexDigit_injective {a b : ℕ} (ha : a < 16) (hb : b < 16) (h : hexDigit a = hexDigit b) :
    a = b := by
  interval_cases a <;> interval_cases b <;> first | rfl | exact absurd h (by decide)

theorem hexDigits_injective : ∀ {xs ys : Bytes},
    xs.flatMap (fun b => [hexDigit (b.val/16),hexDigit (b.val%16)]) =
      ys.flatMap (fun b => [hexDigit (b.val/16),hexDigit (b.val%16)]) → xs = ys := by
  intro xs
  induction xs with
  | nil =>
      intro ys h
      cases ys with
      | nil => rfl
      | cons y ys => simp at h
  | cons x xs ih =>
      intro ys h
      cases ys with
      | nil => simp at h
      | cons y ys =>
          simp only [List.flatMap_cons,List.cons_append,List.nil_append,List.cons.injEq] at h
          have hx := x.isLt
          have hy := y.isLt
          have hhigh := hexDigit_injective (by omega) (by omega) h.1
          have hlow := hexDigit_injective (by omega) (by omega) h.2.1
          have hxy : x = y := Fin.ext (by omega)
          rw [hxy,ih h.2.2]

theorem memberId_injective {a b : Block 32} (h : memberId a = memberId b) : a = b := by
  have hlist := congrArg String.toList h
  simp only [memberId,String.toList_ofList] at hlist
  exact block_inj.mp (hexDigits_injective hlist)

theorem hexDigit_isHex {n : ℕ} (h : n < 16) : isAsciiHexdigit (hexDigit n) = true := by
  interval_cases n <;> decide

theorem hexDigits_spec (xs : Bytes) :
    (xs.flatMap (fun b => [hexDigit (b.val/16),hexDigit (b.val%16)])).length = 2*xs.length ∧
      (xs.flatMap (fun b => [hexDigit (b.val/16),hexDigit (b.val%16)])).all isAsciiHexdigit =
        true := by
  induction xs with
  | nil => simp
  | cons x xs ih =>
      have hx := x.isLt
      have hhigh := hexDigit_isHex (n := x.val/16) (by omega)
      have hlow := hexDigit_isHex (n := x.val%16) (by omega)
      simp only [List.flatMap_cons,List.cons_append,List.nil_append,List.length_cons,List.all_cons,
        hhigh,hlow,Bool.true_and,ih.2,and_true,ih.1]
      omega

theorem memberId_spec (a : Block 32) : (memberId a).toList.length = 64 ∧
    (memberId a).toList.all isAsciiHexdigit = true := by
  simp only [memberId,String.toList_ofList]
  have h := hexDigits_spec a.toList
  rw [List.Vector.toList_length] at h
  exact h

/-- The topic as a register; sequence zero is no topic. -/
def Metadata.topicEntry (m : Metadata) : Option (Value × String) :=
  if m.topic.sequence = 0 then none else some (m.topic,m.topicActor)

def topicStamp (e : Value × String) : U64 ×ₗ String := toLex (e.1.sequence,e.2)

/-- An update with its author. -/
abbrev Authored := Block 32 × Update

/-- The topics among some updates. -/
def topics (R : Set Authored) : Set (Value × String) :=
  {e | ∃ a u, (a,u) ∈ R ∧ u.change = .topic e.1.text ∧ u.sequence = e.1.sequence ∧ e.2 = memberId a}

/-- The nicknames of one member among some updates. -/
def nicknames (R : Set Authored) (k : Block 32) : Set Value :=
  {v | ∃ u, (k,u) ∈ R ∧ u.change = .nickname v.text ∧ u.sequence = v.sequence}

theorem topics_union (R Q : Set Authored) : topics (R ∪ Q) = topics R ∪ topics Q := by
  ext e
  constructor
  · rintro ⟨a,u,h | h,hu⟩
    · exact .inl ⟨a,u,h,hu⟩
    · exact .inr ⟨a,u,h,hu⟩
  · rintro (⟨a,u,h,hu⟩ | ⟨a,u,h,hu⟩)
    · exact ⟨a,u,.inl h,hu⟩
    · exact ⟨a,u,.inr h,hu⟩

theorem nicknames_union (R Q : Set Authored) (k : Block 32) :
    nicknames (R ∪ Q) k = nicknames R k ∪ nicknames Q k := by
  ext v
  constructor
  · rintro ⟨u,h | h,hu⟩
    · exact .inl ⟨u,h,hu⟩
    · exact .inr ⟨u,h,hu⟩
  · rintro (⟨u,h,hu⟩ | ⟨u,h,hu⟩)
    · exact ⟨u,.inl h,hu⟩
    · exact ⟨u,.inr h,hu⟩

/-- The metadata holds the newest topic and nicknames of the updates `R`. -/
structure Reflects (roster : List (Block 32)) (R : Set Authored) (m : Metadata) : Prop where
  opened : m.closed = false
  topic : Newest topicStamp (topics R) m.topicEntry
  blank : m.topic.sequence = 0 → m.topic.text = "" ∧ m.topicActor = ""
  nickname : ∀ k ∈ roster, Newest Value.sequence (nicknames R k) (m.nicknames.find? (memberId k))
  known : ∀ key v, m.nicknames.find? key = some v → ∃ k ∈ roster, memberId k = key

/-! ### Merging is taking the newer -/

theorem not_later_blank (s : U64) (a : String) : ¬Later 0 "" s a := by
  rintro (h | ⟨-,h⟩)
  · exact absurd h (by simp)
  · exact absurd (String.lt_iff_toList_lt.mp h) (by simp)

theorem mergeTopic_entry {m : Metadata} {value : Value} {actor : String}
    (hblank : value.sequence = 0 → actor = "") :
    (m.mergeTopic value actor).topicEntry = newer topicStamp m.topicEntry
      (if value.sequence = 0 then none else some (value,actor)) := by
  by_cases hv : value.sequence = 0
  · have hkeep : ¬Later value.sequence actor m.topic.sequence m.topicActor := by
      rw [hv,hblank hv]
      exact not_later_blank _ _
    rw [Metadata.mergeTopic,if_neg hkeep,if_pos hv]
    cases m.topicEntry <;> rfl
  · rw [if_neg hv]
    by_cases hm : m.topic.sequence = 0
    · have hlater : Later value.sequence actor m.topic.sequence m.topicActor := by
        rw [hm]
        exact .inl (Fin.pos_of_ne_zero hv)
      rw [Metadata.mergeTopic,if_pos hlater,Metadata.topicEntry,Metadata.topicEntry,if_neg hv,
        if_pos hm]
      rfl
    · have hstamp : topicStamp (m.topic,m.topicActor) < topicStamp (value,actor) ↔
          Later value.sequence actor m.topic.sequence m.topicActor := Prod.Lex.toLex_lt_toLex
      have hentry : m.topicEntry = some (m.topic,m.topicActor) := if_neg hm
      rw [hentry,newer]
      by_cases hlater : Later value.sequence actor m.topic.sequence m.topicActor
      · rw [if_pos (hstamp.mpr hlater),Metadata.mergeTopic,if_pos hlater,Metadata.topicEntry,
          if_neg hv]
      · rw [if_neg (fun h => hlater (hstamp.mp h)),Metadata.mergeTopic,if_neg hlater,hentry]

theorem mergeNickname_find? (names : SortedMap String Value) (key k : String) (value : Value) :
    (mergeNickname names key value).find? k =
      if k = key then newer Value.sequence (names.find? key) (some value) else names.find? k := by
  unfold mergeNickname
  cases hfind : names.find? key with
  | none =>
      simp only [Option.all_none,if_true]
      rw [SortedMap.find?_insert]
      rfl
  | some old =>
      simp only [Option.all_some,decide_eq_true_eq]
      by_cases hlt : old.sequence < value.sequence
      · rw [if_pos hlt,SortedMap.find?_insert]
        by_cases hk : k = key
        · rw [if_pos hk,if_pos hk,newer,if_pos hlt]
        · rw [if_neg hk,if_neg hk]
      · rw [if_neg hlt]
        by_cases hk : k = key
        · rw [if_pos hk,newer,if_neg hlt,hk,hfind]
        · rw [if_neg hk]

theorem mergeNicknames_find? (entries : List (String × Value)) (names : SortedMap String Value)
    (hsorted : entries.Pairwise (fun a b => a.1 < b.1)) (k : String) :
    (mergeNicknames names entries).find? k = newer Value.sequence (names.find? k)
      ((entries.find? (fun e => e.1 = k)).map Prod.snd) := by
  induction entries generalizing names with
  | nil =>
      simp only [mergeNicknames,List.foldl_nil,List.find?_nil,Option.map_none]
      cases names.find? k <;> rfl
  | cons e entries ih =>
      rw [List.pairwise_cons] at hsorted
      have hrest := ih (mergeNickname names e.1 e.2) hsorted.2
      simp only [mergeNicknames,List.foldl_cons] at hrest ⊢
      rw [hrest,mergeNickname_find?]
      by_cases hk : k = e.1
      · -- the key does not occur again
        have hnone : entries.find? (fun a => a.1 = k) = none := by
          apply List.find?_eq_none.mpr
          intro a ha
          have hlt := hsorted.1 a ha
          rw [← hk] at hlt
          simpa using hlt.ne'
        rw [hnone,if_pos hk,List.find?_cons_of_pos (by simp [hk]),hk]
        simp only [Option.map_none,Option.map_some]
        cases newer Value.sequence (names.find? e.1) (some e.2) <;> rfl
      · rw [if_neg hk,List.find?_cons_of_neg (by simpa using fun h => hk h.symm)]

theorem mergeSnapshot_nickname (m incoming : Metadata) (k : String) :
    (m.mergeSnapshot incoming).nicknames.find? k =
      newer Value.sequence (m.nicknames.find? k) (incoming.nicknames.find? k) :=
  mergeNicknames_find? _ _ incoming.nicknames.sorted k

/-! ### One update, one snapshot -/

/-- What a change needs of its author. -/
def Allowed (r : ChannelRole) (actor : Block 32) : ChannelChange → Prop
  | .topic _ => r.channelAdmin actor = true
  | .nickname _ => True
  | .leave => r.owner ≠ some actor
  | .transfer _ => False
  | .close => False

/-- An update as `prepare` makes it. -/
structure Honest (r : ChannelRole) (p : Authored) : Prop where
  version : p.2.version = 1
  sequence : p.2.sequence ≠ 0
  valid : p.2.change.validate = .ok ()
  member : p.1 ∈ r.roster
  allowed : Allowed r p.1 p.2.change

theorem topics_singleton {p : Authored} {text : String} (h : p.2.change = .topic text) :
    topics {p} = {(⟨p.2.sequence,text⟩,memberId p.1)} := by
  ext e
  constructor
  · rintro ⟨a,u,hmem,hchange,hseq,hactor⟩
    obtain rfl := Set.mem_singleton_iff.mp hmem
    rw [h] at hchange
    obtain ⟨⟨sequence,text'⟩,actor⟩ := e
    simp only [ChannelChange.topic.injEq] at hchange hseq hactor
    rw [Set.mem_singleton_iff,hchange,← hseq,hactor]
  · intro he
    rw [Set.mem_singleton_iff.mp he]
    exact ⟨p.1,p.2,rfl,h,rfl,rfl⟩

theorem topics_singleton_of_ne {p : Authored} (h : ∀ text, p.2.change ≠ .topic text) :
    topics {p} = ∅ := by
  apply Set.eq_empty_of_forall_notMem
  rintro e ⟨a,u,hmem,hchange,-⟩
  obtain rfl := Set.mem_singleton_iff.mp hmem
  exact h _ hchange

theorem nicknames_singleton {p : Authored} {text : String} (h : p.2.change = .nickname text) :
    nicknames {p} p.1 = {⟨p.2.sequence,text⟩} := by
  ext v
  constructor
  · rintro ⟨u,hmem,hchange,hseq⟩
    obtain rfl : u = p.2 := congrArg Prod.snd (Set.mem_singleton_iff.mp hmem)
    rw [h] at hchange
    obtain ⟨sequence,text'⟩ := v
    simp only [ChannelChange.nickname.injEq] at hchange hseq
    rw [Set.mem_singleton_iff,hchange,← hseq]
  · intro hv
    rw [Set.mem_singleton_iff.mp hv]
    exact ⟨p.2,rfl,h,rfl⟩

theorem nicknames_singleton_of_ne {p : Authored} {k : Block 32}
    (h : k = p.1 → ∀ text, p.2.change ≠ .nickname text) : nicknames {p} k = ∅ := by
  apply Set.eq_empty_of_forall_notMem
  rintro v ⟨u,hmem,hchange,-⟩
  have hp := Set.mem_singleton_iff.mp hmem
  subst hp
  exact h rfl _ hchange

theorem mergeTopic_nicknames (m : Metadata) (value : Value) (actor : String) :
    (m.mergeTopic value actor).nicknames = m.nicknames := by
  unfold Metadata.mergeTopic
  split_ifs <;> rfl

theorem mergeTopic_closed (m : Metadata) (value : Value) (actor : String) :
    (m.mergeTopic value actor).closed = m.closed := by
  unfold Metadata.mergeTopic
  split_ifs <;> rfl

theorem mergeTopic_blank {m : Metadata} {value : Value} {actor : String}
    (hm : m.topic.sequence = 0 → m.topic.text = "" ∧ m.topicActor = "")
    (hv : value.sequence = 0 → value.text = "" ∧ actor = "") :
    (m.mergeTopic value actor).topic.sequence = 0 →
      (m.mergeTopic value actor).topic.text = "" ∧ (m.mergeTopic value actor).topicActor = "" := by
  unfold Metadata.mergeTopic
  split_ifs
  · exact hv
  · exact hm

/-- Nothing about the display changes when only the leaving members do. -/
theorem Reflects.leaving {roster : List (Block 32)} {R : Set Authored} {m : Metadata}
    (h : Reflects roster R m) (leaving : Finset String) :
    Reflects roster R {m with leaving := leaving} :=
  ⟨h.opened,h.topic,h.blank,h.nickname,h.known⟩

theorem Reflects.retain {r : ChannelRole} {R : Set Authored} {m : Metadata}
    (h : Reflects r.roster R m) : m.nicknames.retain (fun key _ => r.known key) = m.nicknames := by
  apply SortedMap.ext_find?
  intro key
  rw [SortedMap.find?_retain]
  cases hfind : m.nicknames.find? key with
  | none => rfl
  | some v =>
      obtain ⟨k,hk,hid⟩ := h.known key v hfind
      have hknown : r.known key = true := List.any_eq_true.mpr ⟨k,hk,by simp [hid]⟩
      simp [Option.filter,hknown]

theorem Reflects.withTopic {roster : List (Block 32)} {R : Set Authored} {m : Metadata}
    (h : Reflects roster R m) {p : Authored} {text : String} (hseq : p.2.sequence ≠ 0)
    (hchange : p.2.change = .topic text) :
    Reflects roster (R ∪ {p}) (m.mergeTopic ⟨p.2.sequence,text⟩ (memberId p.1)) where
  opened := by rw [mergeTopic_closed,h.opened]
  topic := by
    rw [topics_union,topics_singleton hchange,mergeTopic_entry (fun h0 => absurd h0 hseq),if_neg hseq]
    exact h.topic.newer (newest_singleton _)
  blank := mergeTopic_blank h.blank (fun h0 => absurd h0 hseq)
  nickname k hk := by
    rw [nicknames_union,nicknames_singleton_of_ne (fun _ t ht => by simp [hchange] at ht),
      Set.union_empty,mergeTopic_nicknames]
    exact h.nickname k hk
  known key v hv := h.known key v (by rwa [mergeTopic_nicknames] at hv)

theorem Reflects.withNickname {roster : List (Block 32)} {R : Set Authored} {m : Metadata}
    (h : Reflects roster R m) {p : Authored} {text : String} (hmember : p.1 ∈ roster)
    (hchange : p.2.change = .nickname text) :
    Reflects roster (R ∪ {p}) {m with
      nicknames := mergeNickname m.nicknames (memberId p.1) ⟨p.2.sequence,text⟩} where
  opened := h.opened
  topic := by
    rw [topics_union,topics_singleton_of_ne (fun t ht => by simp [hchange] at ht),Set.union_empty]
    exact h.topic
  blank := h.blank
  nickname k hk := by
    rw [nicknames_union]
    simp only
    rw [mergeNickname_find?]
    by_cases hkey : memberId k = memberId p.1
    · obtain rfl := memberId_injective hkey
      rw [if_pos rfl,nicknames_singleton hchange]
      exact (h.nickname _ hk).newer (newest_singleton _)
    · have hne : k = p.1 → ∀ text, p.2.change ≠ .nickname text :=
        fun heq => absurd (congrArg memberId heq) hkey
      rw [if_neg hkey,nicknames_singleton_of_ne hne,Set.union_empty]
      exact h.nickname k hk
  known key v hv := by
    simp only at hv
    rw [mergeNickname_find?] at hv
    by_cases hkey : key = memberId p.1
    · exact ⟨p.1,hmember,hkey.symm⟩
    · rw [if_neg hkey] at hv
      exact h.known key v hv

theorem Reflects.withLeave {roster : List (Block 32)} {R : Set Authored} {m : Metadata}
    (h : Reflects roster R m) {p : Authored} (hchange : p.2.change = .leave) :
    Reflects roster (R ∪ {p}) m where
  opened := h.opened
  topic := by
    rw [topics_union,topics_singleton_of_ne (fun t ht => by simp [hchange] at ht),Set.union_empty]
    exact h.topic
  blank := h.blank
  nickname k hk := by
    rw [nicknames_union,nicknames_singleton_of_ne (fun _ t ht => by simp [hchange] at ht),
      Set.union_empty]
    exact h.nickname k hk
  known := h.known

/-- An honest update is accepted and adds itself to what the metadata reflects. -/
theorem applyUpdate_reflects {r : ChannelRole} {R : Set Authored} {m : Metadata} {p : Authored}
    (h : Reflects r.roster R m) (hp : Honest r p) :
    ∃ m', m.applyUpdate r p.1 p.2 = .ok m' ∧ Reflects r.roster (R ∪ {p}) m' := by
  have hallowed := hp.allowed
  have hleft := h.leaving (m.leaving.filter (fun key => r.known key = true))
  unfold Metadata.applyUpdate
  cases hchange : p.2.change with
  | topic text =>
      rw [hchange] at hallowed
      exact ⟨_,sequence_eq_ok.mpr ⟨(),require_eq_ok.mpr hallowed,rfl⟩,
        hleft.withTopic hp.sequence hchange⟩
  | nickname text =>
      have hnick := hleft.withNickname hp.member hchange
      rw [← hleft.retain] at hnick
      exact ⟨_,rfl,hnick⟩
  | leave =>
      rw [hchange] at hallowed
      exact ⟨_,sequence_eq_ok.mpr ⟨(),require_eq_ok.mpr hallowed,rfl⟩,
        (hleft.withLeave hchange).leaving _⟩
  | transfer next =>
      rw [hchange] at hallowed
      exact hallowed.elim
  | close =>
      rw [hchange] at hallowed
      exact hallowed.elim

theorem topicEntry_eq (m : Metadata) :
    m.topicEntry = if m.topic.sequence = 0 then none else some (m.topic,m.topicActor) := rfl

/-- A snapshot adds everything that it reflects. -/
theorem mergeSnapshot_reflects {roster : List (Block 32)} {R Q : Set Authored} {m n : Metadata}
    (h : Reflects roster R m) (hn : Reflects roster Q n) :
    Reflects roster (R ∪ Q) (m.mergeSnapshot n) where
  opened := (mergeTopic_closed _ _ _).trans h.opened
  topic := by
    rw [topics_union]
    have hentry : (m.mergeSnapshot n).topicEntry = newer topicStamp m.topicEntry n.topicEntry := by
      rw [topicEntry_eq n,← mergeTopic_entry (fun h0 => (hn.blank h0).2)]
      rfl
    rw [hentry]
    exact h.topic.newer hn.topic
  blank := mergeTopic_blank h.blank hn.blank
  nickname k hk := by
    rw [nicknames_union,mergeSnapshot_nickname]
    exact (h.nickname k hk).newer (hn.nickname k hk)
  known key v hv := by
    rw [mergeSnapshot_nickname] at hv
    cases hm : m.nicknames.find? key with
    | some old => exact h.known key old hm
    | none =>
        rw [hm] at hv
        exact hn.known key v hv

theorem validateNicknames_ok {r : ChannelRole} {entries : List (String × Value)}
    (h : ∀ e ∈ entries, (ChannelChange.nickname e.2.text).validate = .ok () ∧ e.2.sequence ≠ 0 ∧
      r.known e.1 = true) : validateNicknames r entries = .ok () := by
  induction entries with
  | nil => rfl
  | cons e entries ih =>
      obtain ⟨hvalid,hseq,hknown⟩ := h e List.mem_cons_self
      have hrest := ih (fun a ha => h a (List.mem_cons_of_mem _ ha))
      exact sequence_eq_ok.mpr ⟨(),hvalid,sequence_eq_ok.mpr
        ⟨(),require_eq_ok.mpr ⟨hseq,hknown⟩,hrest⟩⟩

/-- A snapshot of honest updates passes the checks of its receiver. -/
theorem validateSnapshot_ok {r : ChannelRole} {Q : Set Authored} {n : Metadata}
    (hn : Reflects r.roster Q n) (hQ : ∀ p ∈ Q, Honest r p) : n.validateSnapshot r = .ok () := by
  have htopic : (ChannelChange.topic n.topic.text).validate = .ok () ∧ (n.topic.sequence = 0 ∨
      n.topicActor.toList.length = 64 ∧ n.topicActor.toList.all isAsciiHexdigit = true) := by
    by_cases hzero : n.topic.sequence = 0
    · rw [(hn.blank hzero).1]
      exact ⟨by decide,.inl hzero⟩
    · have hentry : (n.topic,n.topicActor) ∈ n.topicEntry := by
        rw [topicEntry_eq,if_neg hzero]
        rfl
      obtain ⟨a,u,hu,hchange,-,hactor⟩ := hn.topic.1 _ hentry
      simp only at hchange hactor
      have hvalid := (hQ (a,u) hu).valid
      simp only [hchange] at hvalid
      rw [hactor]
      exact ⟨hvalid,.inr (memberId_spec a)⟩
  have hnames : validateNicknames r n.nicknames.entries = .ok () := by
    apply validateNicknames_ok
    intro e he
    have hfind := SortedMap.mem_iff_find?.mp he
    obtain ⟨k,hk,hid⟩ := hn.known _ _ hfind
    rw [← hid] at hfind
    obtain ⟨u,hu,hchange,hseq⟩ := (hn.nickname k hk).1 _ hfind
    have hhonest := hQ (k,u) hu
    have hvalid := hhonest.valid
    simp only [hchange] at hvalid
    exact ⟨hvalid,hseq ▸ hhonest.sequence,List.any_eq_true.mpr ⟨k,hk,by simp [hid]⟩⟩
  exact sequence_eq_ok.mpr ⟨(),htopic.1,sequence_eq_ok.mpr
    ⟨(),require_eq_ok.mpr htopic.2,hnames⟩⟩

theorem Honest.move {r r' : ChannelRole} {p : Authored} (h : Honest r p)
    (hroster : r'.roster = r.roster) (howner : r'.owner = r.owner) (hadmins : r'.admins = r.admins) :
    Honest r' p := by
  refine ⟨h.version,h.sequence,h.valid,hroster ▸ h.member,?_⟩
  have hallowed := h.allowed
  cases hchange : p.2.change with
  | topic text =>
      simp only [hchange,Allowed,ChannelRole.channelAdmin] at hallowed ⊢
      rwa [howner,hadmins]
  | nickname text => trivial
  | leave =>
      simp only [hchange,Allowed] at hallowed ⊢
      rwa [howner]
  | transfer next =>
      rw [hchange] at hallowed
      exact hallowed.elim
  | close =>
      rw [hchange] at hallowed
      exact hallowed.elim

/-! ## Receiving -/

section Receiving
variable {E : Env} {r r' : ChannelRole} {m : Metadata}

theorem read_stored (E : Env) (r : ChannelRole) (m : Metadata) :
    read E {r with metadata := E.encodeMetadata m} = .ok m := by
  rw [read,if_neg (E.encodeMetadata_ne_nil m)]
  exact found_eq_ok.mpr (E.decode_encodeMetadata m)

theorem read_congr (E : Env) (h : r'.metadata = r.metadata) : read E r' = read E r := by
  rw [read,read,h]

/-- A store that is refused leaves the role as it was. -/
theorem setChannelMetadata_run (bytes : Bytes) (r : ChannelRole) :
    setChannelMetadata bytes r = if bytes.length ≤ maxMetadataBytes then
      (.ok (),{r with metadata := bytes}) else (.error "malformed encoding",r) := by
  by_cases h : bytes.length ≤ maxMetadataBytes
  · rw [if_pos h,setChannelMetadata,demand_bind_of h]
    rfl
  · rw [if_neg h,setChannelMetadata,demand_bind_of_not h]

theorem receive_run {actor : Block 32} {packet : Packet}
    (hsize : (E.encodePacket packet).length ≤ maxUpdateBytes) (hread : read E r = .ok m)
    (hopen : m.closed = false) : receive E actor (E.encodePacket packet) r =
      (match packet with
      | .ownership encoded => receiveOwnership E actor encoded
      | .snapshot incoming => receiveSnapshot E actor incoming
      | .update u => receiveUpdate E actor u) r := by
  rw [receive,demand_bind_of hsize,read_id_bind,hread,bind_run,Cmd.attempt]
  simp only
  rw [demand_bind_of hopen,E.decode_encodePacket,bind_run,Cmd.obtain]

theorem receiveUpdate_run {p : Authored} {m' : Metadata} (hread : read E r = .ok m)
    (hp : Honest r p) (happly : m.applyUpdate r p.1 p.2 = .ok m') :
    receiveUpdate E p.1 p.2 r = setChannelMetadata (E.encodeMetadata m') r := by
  rw [receiveUpdate,demand_bind_of ⟨hp.version,hp.sequence⟩,hp.valid,bind_run,Cmd.attempt]
  simp only
  rw [read_id_bind,demand_bind_of hp.member,hread,bind_run,Cmd.attempt]
  simp only
  rw [happly,bind_run,Cmd.attempt]

theorem receiveSnapshot_run {actor : Block 32} {n : Metadata} (hread : read E r = .ok m)
    (hadmin : r.channelAdmin actor = true) (hvalid : n.validateSnapshot r = .ok ()) :
    receiveSnapshot E actor n r = setChannelMetadata (E.encodeMetadata (m.mergeSnapshot n)) r := by
  rw [receiveSnapshot,read_id_bind,demand_bind_of hadmin,hvalid,bind_run,Cmd.attempt]
  simp only
  rw [hread,bind_run,Cmd.attempt]

/-- An update that was accepted is an honest one. -/
theorem receiveUpdate_ok {p : Authored} (hread : read E r = .ok m)
    (hdisplay : ∀ next, p.2.change ≠ .transfer next) (hclose : p.2.change ≠ .close)
    (h : receiveUpdate E p.1 p.2 r = (.ok (),r')) : Honest r p := by
  simp only [receiveUpdate,demand_bind_ok,attempt_bind_ok,read_id_bind,hread,Except.ok.injEq,
    exists_eq_left'] at h
  obtain ⟨⟨hversion,hseq⟩,⟨⟩,hvalid,hmember,m',happly,-⟩ := h
  refine ⟨hversion,hseq,hvalid,hmember,?_⟩
  unfold Metadata.applyUpdate at happly
  cases hchange : p.2.change with
  | topic text =>
      simp only [hchange,sequence_eq_ok,require_eq_ok] at happly
      obtain ⟨_,hadmin,-⟩ := happly
      exact hadmin
  | nickname text => trivial
  | leave =>
      simp only [hchange,sequence_eq_ok,require_eq_ok] at happly
      obtain ⟨_,howner,-⟩ := happly
      exact howner
  | transfer next => exact absurd hchange (hdisplay next)
  | close => exact absurd hchange hclose

/-- What a role holds after `packet`, whether it was stored or not. -/
structure Absorbs (E : Env) (r : ChannelRole) (R Q : Set Authored) (x : Op Unit) : Prop where
  outcome : (∃ m', x r = (.ok (),{r with metadata := E.encodeMetadata m'}) ∧
      Reflects r.roster (R ∪ Q) m') ∨ x r = (.error "malformed encoding",r)

theorem absorbs_update {R : Set Authored} {p : Authored} (hread : read E r = .ok m)
    (h : Reflects r.roster R m) (hp : Honest r p)
    (hsize : (E.encodePacket (.update p.2)).length ≤ maxUpdateBytes) :
    Absorbs E r R {p} (receive E p.1 (E.encodePacket (.update p.2))) := by
  obtain ⟨m',happly,hreflects⟩ := applyUpdate_reflects h hp
  constructor
  rw [receive_run hsize hread h.opened]
  simp only
  rw [receiveUpdate_run hread hp happly,setChannelMetadata_run]
  split_ifs
  · exact .inl ⟨m',rfl,hreflects⟩
  · exact .inr rfl

theorem absorbs_snapshot {R Q : Set Authored} {actor : Block 32} {n : Metadata}
    (hread : read E r = .ok m) (h : Reflects r.roster R m) (hn : Reflects r.roster Q n)
    (hQ : ∀ p ∈ Q, Honest r p) (hadmin : r.channelAdmin actor = true)
    (hsize : (E.encodePacket (.snapshot n)).length ≤ maxUpdateBytes) :
    Absorbs E r R Q (receive E actor (E.encodePacket (.snapshot n))) := by
  constructor
  rw [receive_run hsize hread h.opened]
  simp only
  rw [receiveSnapshot_run hread hadmin (validateSnapshot_ok hn hQ),setChannelMetadata_run]
  split_ifs
  · exact .inl ⟨_,rfl,mergeSnapshot_reflects h hn⟩
  · exact .inr rfl

end Receiving

/-! ### Packets of members without rights -/

/-- The topic and the nicknames of everybody else are the same. -/
structure Spared (actor : Block 32) (m m' : Metadata) : Prop where
  topic : m'.topic = m.topic
  topicActor : m'.topicActor = m.topicActor
  nickname : ∀ key, key ≠ memberId actor → m'.nicknames.find? key = m.nicknames.find? key

theorem Spared.refl (actor : Block 32) (m : Metadata) : Spared actor m m :=
  ⟨rfl,rfl,fun _ _ => rfl⟩

theorem applyUpdate_spared {r : ChannelRole} {R : Set Authored} {m m' : Metadata}
    {actor : Block 32} {u : Update} (h : Reflects r.roster R m)
    (hactor : r.channelAdmin actor = false) (happly : m.applyUpdate r actor u = .ok m') :
    Spared actor m m' := by
  unfold Metadata.applyUpdate at happly
  cases hchange : u.change with
  | topic text =>
      simp only [hchange,sequence_eq_ok,require_eq_ok,hactor,Bool.false_eq_true,false_and,
        exists_false] at happly
  | nickname text =>
      simp only [hchange,done_eq_ok] at happly
      rw [← happly]
      refine ⟨rfl,rfl,fun key hkey => ?_⟩
      simp only
      rw [h.retain,mergeNickname_find?,if_neg hkey]
  | leave =>
      simp only [hchange,sequence_eq_ok,require_eq_ok,done_eq_ok] at happly
      obtain ⟨_,_,rfl⟩ := happly
      exact ⟨rfl,rfl,fun _ _ => rfl⟩
  | transfer next => simp [hchange] at happly
  | close =>
      simp only [hchange,sequence_eq_ok,require_eq_ok,done_eq_ok] at happly
      obtain ⟨_,_,rfl⟩ := happly
      exact ⟨rfl,rfl,fun _ _ => rfl⟩

/-- Whatever such a member sends, in any bytes, spares the display of the others. -/
theorem receive_spared {E : Env} {r : ChannelRole} {R : Set Authored} {m : Metadata}
    {actor : Block 32} (wire : Bytes) (hread : read E r = .ok m) (h : Reflects r.roster R m)
    (hactor : r.channelAdmin actor = false) :
    ∃ m', read E (receive E actor wire r).2 = .ok m' ∧ Spared actor m m' := by
  have hsame : ∃ m', read E r = .ok m' ∧ Spared actor m m' := ⟨m,hread,.refl actor m⟩
  refine Leads.state (P := fun r' => ∃ m', read E r' = .ok m' ∧ Spared actor m m') ?_
  refine Leads.demand_bind (fun _ => Leads.read_bind ?_) fun _ => hsame
  refine Leads.attempt_bind (fun m₀ hm₀ => ?_) fun _ _ => hsame
  refine Leads.demand_bind (fun _ => ?_) fun _ => hsame
  refine Leads.obtain_bind (fun packet _ => ?_) fun _ => hsame
  cases packet with
  | ownership encoded =>
      refine Leads.obtain_bind (fun chain _ => ?_) fun _ => hsame
      refine Leads.demand_bind (fun _ => Leads.read_bind ?_) fun _ => hsame
      refine Leads.attempt_bind (fun r₁ hr₁ => Leads.update ?_) fun _ _ => hsame
      exact ⟨m,(read_congr E (E.installOwner_metadata _ _ _ _ hr₁)).trans hread,.refl actor m⟩
  | snapshot incoming =>
      refine Leads.read_bind (Leads.demand_bind (fun hadmin => ?_) fun _ => hsame)
      exact absurd hadmin (by simp [hactor])
  | update u =>
      refine Leads.demand_bind (fun _ => ?_) fun _ => hsame
      refine Leads.attempt_bind (fun _ _ => Leads.read_bind ?_) fun _ _ => hsame
      refine Leads.demand_bind (fun _ => ?_) fun _ => hsame
      refine Leads.attempt_bind (fun m₁ hm₁ => ?_) fun _ _ => hsame
      obtain rfl := Except.ok.inj (hread.symm.trans hm₁)
      refine Leads.attempt_bind (fun m' hm' => ?_) fun _ _ => hsame
      refine Leads.demand_bind (fun _ => Leads.update ?_) fun _ => hsame
      exact ⟨m',read_stored E r m',applyUpdate_spared h hactor hm'⟩

end Gcoms.ChannelMetadata
