import Gcoms.Commands
import Gcoms.Fallible
import Gcoms.JsonTexts

/-!
# The channel inbox

Channel deliveries wait in a bounded inbox, which is stored with the state of the
node, until the owner of the local archive confirms each with its digest. The
stored form is JSON; its layout counts, since the inbox is bounded in bytes and
the size is tested on the text. The hash and the JSON parser are parameters.
-/
namespace Gcoms.ChannelInbox
open ByteCodec Commands Fallible JsonTexts

def limit : ℕ := 256

def byteLimit : ℕ := 4*1024*1024

def maxCursor : ℕ := 9007199254740991

def applicationPayloadLimit : ℕ := 15*1024-3*1024

def pieceContentType : Bytes := ascii "application/vnd.gcoms.pieces.v1"

def isPieceApplicationPayload (bytes : Bytes) : Bool :=
  let n := readBigEndian (slice bytes 6 8)
  8 ≤ bytes.length && bytes.take 6 == ascii "GCAPP1" &&
    8+n ≤ bytes.length && slice bytes 8 (8+n) == pieceContentType

inductive Message where
  | channel (channel : String) (id : Block 16) (timestamp : U64) (sender : String) (epoch : U64)
      (index : U32) (body : Bytes) (latency : U64)
  | direct (channel : String) (id : Block 16) (timestamp : U64) (sender recipient : Block 32)
      (body : Bytes)
  deriving DecidableEq

namespace Message

def key : Message → String × Block 16
  | channel name id .. => (name,id)
  | direct name id .. => (name,id)

def body : Message → Bytes
  | channel _ _ _ _ _ _ body _ => body
  | direct _ _ _ _ _ body => body

end Message

structure Delivery where
  sequence : U64
  message : Message
  deriving DecidableEq

structure Inbox where
  enabled : Bool
  next : U64
  entries : List Delivery
  deriving DecidableEq

def Inbox.new (enabled : Bool) : Inbox := ⟨enabled,1,[]⟩

/-! ## The stored form -/

def writeByte (b : Byte) : Text := decimal b.val

def writeBlock {n : ℕ} (b : Block n) : Text := array writeByte b.toList

def Message.write : Message → Text
  | channel name id timestamp sender epoch index body latency => object [("Channel",object
      [("channel",quoted name),("id",writeBlock id),("timestamp",decimal timestamp.val),
       ("sender",quoted sender),("epoch",decimal epoch.val),("index",decimal index.val),
       ("body",array writeByte body),("latency",decimal latency.val)])]
  | direct name id timestamp sender recipient body => object [("Private",object
      [("channel",quoted name),("id",writeBlock id),("timestamp",decimal timestamp.val),
       ("sender",writeBlock sender),("recipient",writeBlock recipient),
       ("body",array writeByte body)])]

def Delivery.write (d : Delivery) : Text :=
  object [("sequence",decimal d.sequence.val),("message",d.message.write)]

def Inbox.write (v : Inbox) : Text :=
  object [("enabled",boolean v.enabled),("next",decimal v.next.val),
    ("entries",array Delivery.write v.entries)]

def encode (v : Inbox) : Bytes := bytes v.write

/-- The hash, and the JSON parser, which takes back what was written. -/
structure Env where
  sha256 : Bytes → Block 32
  fromSlice : Bytes → Except String Inbox
  fromSlice_encode : ∀ v, fromSlice (encode v) = .ok v

/-! ## Operations -/

abbrev Op (α : Type) := Cmd Inbox String α

section Code
variable (E : Env)

def Delivery.digest (d : Delivery) : Block 32 :=
  E.sha256 (ascii "gcoms/channel-inbox/v1"++0::bytes d.write)

/-- What `stage` asks of a message before it looks at the inbox. -/
def Message.Valid (m : Message) : Prop :=
  m.key.1 ≠ "" ∧ m.key.1.utf8ByteSize ≤ 256 ∧ m.key.2 ≠ wordBlock 16 0 ∧
    m.body.length ≤ applicationPayloadLimit

instance decidableValid (m : Message) : Decidable m.Valid :=
  inferInstanceAs (Decidable (m.key.1 ≠ "" ∧ m.key.1.utf8ByteSize ≤ 256 ∧
    m.key.2 ≠ wordBlock 16 0 ∧ m.body.length ≤ applicationPayloadLimit))

/-- `push_back`, the size test with `pop_back` on failure, and the next cursor. -/
def push (m : Message) : Op Unit := do
  Cmd.update (fun v => {v with entries := v.entries++[⟨v.next,m⟩]})
  let v ← Cmd.read id
  if byteLimit < (encode v).length then do
    Cmd.update (fun v => {v with entries := v.entries.dropLast})
    Cmd.fail "channel archive byte limit"
  else Cmd.update (fun v => {v with next := v.next+1})

def stage (m : Message) : Op Unit := do
  let v ← Cmd.read id
  if v.enabled = false ∨ isPieceApplicationPayload m.body = true then pure ()
  else do
    Cmd.demand m.Valid "invalid channel delivery"
    match v.entries.find? (fun e => e.message.key = m.key) with
    | some old => Cmd.demand (old.message = m) "conflicting channel delivery"
    | none => do
        Cmd.demand (v.entries.length < limit ∧ v.next.val < maxCursor) "channel archive inbox full"
        push m

def page (v : Inbox) (after : U64) (most : ℕ) : Except String (List Delivery) := do
  require (v.enabled = true ∧ most ≠ 0 ∧ most ≤ 32) "invalid channel inbox request"
  pure ((v.entries.filter (fun e => after < e.sequence)).take most)

def consume (sequence : U64) (digest : Block 32) : Op Bool := do
  let v ← Cmd.read id
  match v.entries.findIdx? (fun e => e.sequence = sequence) with
  | none => pure false
  | some position => do
      Cmd.demand ((v.entries[position]?).map (Delivery.digest E) = some digest)
        "channel inbox receipt mismatch"
      Cmd.update (fun v => {v with entries := v.entries.eraseIdx position})
      pure true

/-- The loop of `decode` over the stored messages. -/
def stageAll : List Message → Op Unit
  | [] => pure ()
  | m::rest => do
      stage m
      stageAll rest

/-- The cursors that `decode` accepts. -/
def Cursors (v : Inbox) : Prop :=
  v.enabled = true ∧ v.next ≠ 0 ∧ v.next.val ≤ maxCursor ∧ v.entries.length ≤ limit ∧
    (∀ p ∈ v.entries.zip (v.entries.drop 1), p.1.sequence < p.2.sequence) ∧
    ∀ e ∈ v.entries, e.sequence ≠ 0 ∧ e.sequence < v.next

instance decidableCursors (v : Inbox) : Decidable (Cursors v) :=
  inferInstanceAs (Decidable (v.enabled = true ∧ v.next ≠ 0 ∧ v.next.val ≤ maxCursor ∧
    v.entries.length ≤ limit ∧
    (∀ p ∈ v.entries.zip (v.entries.drop 1), p.1.sequence < p.2.sequence) ∧
    ∀ e ∈ v.entries, e.sequence ≠ 0 ∧ e.sequence < v.next))

def decode (bs : Bytes) : Except String Inbox := do
  require (bs.length ≤ byteLimit) "channel inbox too large"
  let v ← E.fromSlice bs
  require (Cursors v) "invalid channel inbox cursor"
  match stageAll (v.entries.map Delivery.message) (Inbox.new true) with
  | (.error e,_) => .error e
  | (.ok _,checked) => do
      require (checked.entries.length = v.entries.length) "duplicate channel inbox record"
      pure v

end Code

/-! ## What an operation does -/

theorem find?_key_eq_none {l : List Delivery} {m : Message} :
    l.find? (fun e => e.message.key = m.key) = none ↔ ∀ e ∈ l, e.message.key ≠ m.key := by
  simp

theorem push_run (m : Message) (v : Inbox) : push m v =
    if byteLimit < (encode {v with entries := v.entries++[⟨v.next,m⟩]}).length then
      (.error "channel archive byte limit",v)
    else (.ok (),⟨v.enabled,v.next+1,v.entries++[⟨v.next,m⟩]⟩) := by
  simp only [push,update_bind,read_id_bind]
  split_ifs with h
  · simp only [update_bind,Cmd.fail,List.dropLast_concat]
  · rfl

/-- The outcomes of `stage` on an enabled inbox. -/
inductive Staged (m : Message) (v : Inbox) : Except String Unit → Inbox → Prop where
  | piece : isPieceApplicationPayload m.body = true → Staged m v (.ok ()) v
  | invalid : isPieceApplicationPayload m.body = false → ¬m.Valid →
      Staged m v (.error "invalid channel delivery") v
  | known : isPieceApplicationPayload m.body = false → m.Valid →
      (∃ e ∈ v.entries, e.message = m) → Staged m v (.ok ()) v
  | conflict : isPieceApplicationPayload m.body = false → m.Valid →
      (∃ e ∈ v.entries, e.message.key = m.key ∧ e.message ≠ m) →
      Staged m v (.error "conflicting channel delivery") v
  | full : isPieceApplicationPayload m.body = false → m.Valid →
      (∀ e ∈ v.entries, e.message.key ≠ m.key) →
      (limit ≤ v.entries.length ∨ maxCursor ≤ v.next.val) →
      Staged m v (.error "channel archive inbox full") v
  | large : isPieceApplicationPayload m.body = false → m.Valid →
      (∀ e ∈ v.entries, e.message.key ≠ m.key) →
      byteLimit < (encode {v with entries := v.entries++[⟨v.next,m⟩]}).length →
      Staged m v (.error "channel archive byte limit") v
  | pushed : isPieceApplicationPayload m.body = false → m.Valid →
      (∀ e ∈ v.entries, e.message.key ≠ m.key) →
      v.entries.length < limit → v.next.val < maxCursor →
      (encode {v with entries := v.entries++[⟨v.next,m⟩]}).length ≤ byteLimit →
      Staged m v (.ok ()) ⟨v.enabled,v.next+1,v.entries++[⟨v.next,m⟩]⟩

theorem stage_run {v : Inbox} (m : Message) (hv : v.enabled = true) :
    Staged m v (stage m v).1 (stage m v).2 := by
  simp only [stage,read_id_bind,hv,Bool.true_eq_false,false_or]
  cases hpiece : isPieceApplicationPayload m.body with
  | true => exact .piece hpiece
  | false =>
      simp only [Bool.false_eq_true,if_false]
      by_cases hvalid : m.Valid
      swap
      · rw [demand_bind_of_not hvalid]
        exact .invalid hpiece hvalid
      rw [demand_bind_of hvalid]
      cases hfind : v.entries.find? (fun e => e.message.key = m.key) with
      | some old =>
          have hmem := List.mem_of_find?_eq_some hfind
          have hkey : old.message.key = m.key := by simpa using List.find?_some hfind
          by_cases hsame : old.message = m
          · simp only [Cmd.demand,if_pos hsame]
            exact .known hpiece hvalid ⟨old,hmem,hsame⟩
          · simp only [Cmd.demand,if_neg hsame]
            exact .conflict hpiece hvalid ⟨old,hmem,hkey,hsame⟩
      | none =>
          have hfresh := find?_key_eq_none.mp hfind
          by_cases hfull : v.entries.length < limit ∧ v.next.val < maxCursor
          · simp only [demand_bind_of hfull,push_run]
            split_ifs with hlarge
            · exact .large hpiece hvalid hfresh hlarge
            · exact .pushed hpiece hvalid hfresh hfull.1 hfull.2 (not_lt.mp hlarge)
          · simp only [demand_bind_of_not hfull]
            refine .full hpiece hvalid hfresh ?_
            rw [not_and_or,not_lt,not_lt] at hfull
            exact hfull

/-! ## Sizes -/

/-- The size of the stored deliveries, with the commas between them. -/
def load (l : List Delivery) : ℕ := size (joined (l.map Delivery.write))

theorem size_member (key : String) (t : Text) : size (member key t) = size (quoted key)+1+size t := by
  simp only [member,size_append,size_cons]
  have hcolon : Char.utf8Size ':' = 1 := by decide
  omega

/-- The size of an enabled inbox without cursor and deliveries. -/
def frame : ℕ := size (Inbox.write ⟨true,0,[]⟩)-1

theorem encode_length {b : Bool} (hb : b = true) (n : U64) (l : List Delivery) :
    (encode ⟨b,n,l⟩).length = frame+size (decimal n.val)+load l := by
  have hframe : frame = 37 := by decide
  have h₁ : Char.utf8Size '{' = 1 := by decide
  have h₂ : Char.utf8Size '}' = 1 := by decide
  have h₃ : Char.utf8Size ',' = 1 := by decide
  have h₄ : Char.utf8Size '[' = 1 := by decide
  have h₅ : Char.utf8Size ']' = 1 := by decide
  have h₆ : size (quoted "enabled") = 9 := by decide
  have h₇ : size (quoted "next") = 6 := by decide
  have h₈ : size (quoted "entries") = 9 := by decide
  have h₉ : size (boolean true) = 4 := by decide
  simp only [encode,bytes_length,Inbox.write,hb,object,List.map_cons,List.map_nil,joined,array,
    size_append,size_cons,size_nil,size_member,load,h₁,h₂,h₃,h₄,h₅,h₆,h₇,h₈,h₉,hframe]
  omega

theorem size_delivery (d : Delivery) :
    size d.write = 24+size (decimal d.sequence.val)+size d.message.write := by
  have h₁ : Char.utf8Size '{' = 1 := by decide
  have h₂ : Char.utf8Size '}' = 1 := by decide
  have h₃ : Char.utf8Size ',' = 1 := by decide
  have h₄ : size (quoted "sequence") = 10 := by decide
  have h₅ : size (quoted "message") = 9 := by decide
  simp only [Delivery.write,object,List.map_cons,List.map_nil,joined,size_append,size_cons,size_nil,
    size_member,h₁,h₂,h₃,h₄,h₅]
  omega

theorem load_append_le (l m : List Delivery) : load l ≤ load (l++m) := by
  rw [load,load,List.map_append]
  exact size_joined_append _ _

theorem load_eraseIdx_le (l : List Delivery) (i : ℕ) : load (l.eraseIdx i) ≤ load l := by
  by_cases herased : l.eraseIdx i = []
  · rw [herased]
    exact Nat.zero_le _
  · have hl : l ≠ [] := by
      rintro rfl
      exact herased rfl
    have h₁ := size_joined ((l.eraseIdx i).map Delivery.write) (by simpa using herased)
    have h₂ := size_joined (l.map Delivery.write) (by simpa using hl)
    have hsum := ((((List.eraseIdx_sublist l i).map Delivery.write).map fun t => size t+1)).sum_le_sum
      fun _ _ => Nat.zero_le _
    rw [load,load]
    omega

/-! ## Replaying -/

/-- The deliveries that staging the messages one after the other adds. -/
def numbered : U64 → List Message → List Delivery
  | _, [] => []
  | n, m::rest => ⟨n,m⟩::numbered (n+1) rest

@[simp] theorem numbered_length (n : U64) (l : List Message) : (numbered n l).length = l.length := by
  induction l generalizing n with
  | nil => rfl
  | cons m l ih => simp [numbered,ih]

/-- What a message needs to be retained. -/
structure Message.Kept (m : Message) : Prop where
  plain : isPieceApplicationPayload m.body = false
  valid : m.Valid

theorem next_succ {n : U64} (h : n.val < maxCursor) : (n+1).val = n.val+1 := by
  have hmax : n.val < 2^64-1 := lt_of_lt_of_le h (by decide)
  rw [Fin.val_add_one_of_lt']
  exact Nat.lt_sub_iff_add_lt.mp hmax

section Staging
variable {m : Message} {v : Inbox}

theorem stage_pushed (hv : v.enabled = true) (hkept : m.Kept)
    (hfresh : ∀ e ∈ v.entries, e.message.key ≠ m.key) (hcount : v.entries.length < limit)
    (hnext : v.next.val < maxCursor)
    (hsize : (encode {v with entries := v.entries++[⟨v.next,m⟩]}).length ≤ byteLimit) :
    stage m v = (.ok (),⟨true,v.next+1,v.entries++[⟨v.next,m⟩]⟩) := by
  have h := stage_run m hv
  cases hrun : stage m v with
  | mk r v' =>
      rw [hrun] at h
      cases h with
      | piece hpiece => exact absurd hpiece (by simp [hkept.plain])
      | invalid _ hinvalid => exact absurd hkept.valid hinvalid
      | known _ _ hknown =>
          obtain ⟨e,he,rfl⟩ := hknown
          exact absurd rfl (hfresh e he)
      | conflict _ _ hconflict =>
          obtain ⟨e,he,hkey,-⟩ := hconflict
          exact absurd hkey (hfresh e he)
      | full _ _ _ hfull => omega
      | large _ _ _ hlarge => exact absurd hsize (not_le.mpr hlarge)
      | pushed => rw [hv]

theorem stageAll_run (l : List Message) {v : Inbox} (hv : v.enabled = true)
    (hkept : ∀ m ∈ l, m.Kept) (hkeys : (l.map Message.key).Nodup)
    (hfresh : ∀ m ∈ l, ∀ e ∈ v.entries, e.message.key ≠ m.key)
    (hcount : v.entries.length+l.length ≤ limit) (hnext : v.next.val+l.length ≤ maxCursor)
    (hsize : frame+size (decimal (v.next.val+l.length-1))+load (v.entries++numbered v.next l) ≤
      byteLimit) :
    ∃ n, stageAll l v = (.ok (),⟨true,n,v.entries++numbered v.next l⟩) ∧
      n.val = v.next.val+l.length := by
  induction l generalizing v with
  | nil =>
      refine ⟨v.next,?_,rfl⟩
      rw [numbered,List.append_nil,← hv]
      rfl
  | cons m l ih =>
      simp only [List.length_cons] at hcount hnext hsize
      have hsucc : (v.next+1).val = v.next.val+1 := next_succ (by omega)
      have happend : v.entries++numbered v.next (m::l) =
          v.entries++[⟨v.next,m⟩]++numbered (v.next+1) l := by
        rw [numbered,List.append_assoc]
        rfl
      rw [happend] at hsize
      have hpushed : stage m v = (.ok (),⟨true,v.next+1,v.entries++[⟨v.next,m⟩]⟩) := by
        apply stage_pushed hv (hkept m List.mem_cons_self) (hfresh m List.mem_cons_self)
        · omega
        · omega
        · have hload := load_append_le (v.entries++[⟨v.next,m⟩]) (numbered (v.next+1) l)
          have hcursor := size_decimal_mono (m := v.next.val) (n := v.next.val+(l.length+1)-1)
            (by omega)
          rw [encode_length hv]
          omega
      rw [List.map_cons,List.nodup_cons] at hkeys
      obtain ⟨n,hrun,hn⟩ := ih (v := ⟨true,v.next+1,v.entries++[⟨v.next,m⟩]⟩) rfl
        (fun m' hm' => hkept m' (List.mem_cons_of_mem m hm')) hkeys.2 (by
          intro m' hm' e he
          rw [List.mem_append,List.mem_singleton] at he
          obtain he | rfl := he
          · exact hfresh m' (List.mem_cons_of_mem m hm') e he
          · intro heq
            exact hkeys.1 (heq ▸ List.mem_map_of_mem hm'))
        (by simp only [List.length_append,List.length_singleton]; omega)
        (by simp only [hsucc]; omega)
        (by
          have hcursor : (v.next+1).val+l.length-1 = v.next.val+(l.length+1)-1 := by omega
          simp only [hcursor]
          exact hsize)
      refine ⟨n,?_,?_⟩
      · simp only [stageAll,bind_run,hpushed]
        rw [hrun,happend]
      · simp only [hsucc] at hn
        rw [hn,List.length_cons]
        omega

end Staging

/-! ## Inboxes in use -/

structure WellFormed (v : Inbox) : Prop where
  enabled : v.enabled = true
  next_pos : 0 < v.next.val
  next_le : v.next.val ≤ maxCursor
  count : v.entries.length ≤ limit
  sorted : v.entries.Pairwise (fun a b => a.sequence < b.sequence)
  below : ∀ e ∈ v.entries, e.sequence ≠ 0 ∧ e.sequence < v.next
  keys : (v.entries.map fun e => e.message.key).Nodup
  kept : ∀ e ∈ v.entries, e.message.Kept
  bytes : (encode v).length ≤ byteLimit+1

theorem wellFormed_new : WellFormed (Inbox.new true) where
  enabled := rfl
  next_pos := by decide
  next_le := by decide
  count := by decide
  sorted := List.Pairwise.nil
  below e he := absurd he List.not_mem_nil
  keys := List.nodup_nil
  kept e he := absurd he List.not_mem_nil
  bytes := by
    rw [Inbox.new,encode_length rfl]
    decide

section Steps
variable {v : Inbox}

theorem WellFormed.pushed (hv : WellFormed v) {m : Message} (hkept : m.Kept)
    (hfresh : ∀ e ∈ v.entries, e.message.key ≠ m.key) (hcount : v.entries.length < limit)
    (hnext : v.next.val < maxCursor)
    (hsize : (encode {v with entries := v.entries++[⟨v.next,m⟩]}).length ≤ byteLimit) :
    WellFormed ⟨v.enabled,v.next+1,v.entries++[⟨v.next,m⟩]⟩ where
  enabled := hv.enabled
  next_pos := by
    rw [next_succ hnext]
    exact Nat.succ_pos _
  next_le := by
    rw [next_succ hnext]
    exact hnext
  count := by
    rw [List.length_append,List.length_singleton]
    exact hcount
  sorted := by
    apply List.pairwise_append.mpr
    refine ⟨hv.sorted,List.pairwise_singleton _ _,?_⟩
    intro a ha b hb
    rw [List.mem_singleton.mp hb]
    exact (hv.below a ha).2
  below e he := by
    have hlt : v.next < v.next+1 := by
      rw [Fin.lt_def,next_succ hnext]
      exact Nat.lt_succ_self _
    rw [List.mem_append,List.mem_singleton] at he
    obtain he | rfl := he
    · exact ⟨(hv.below e he).1,(hv.below e he).2.trans hlt⟩
    · refine ⟨?_,hlt⟩
      intro hzero
      have hpos := hv.next_pos
      have hval := congrArg Fin.val hzero
      simp only [Fin.val_zero] at hval
      omega
  keys := by
    rw [List.map_append,List.nodup_append]
    refine ⟨hv.keys,List.nodup_singleton _,?_⟩
    intro k hk k' hk'
    obtain ⟨e,he,rfl⟩ := List.mem_map.mp hk
    rw [List.map_singleton,List.mem_singleton] at hk'
    rw [hk']
    exact hfresh e he
  kept e he := by
    rw [List.mem_append,List.mem_singleton] at he
    obtain he | rfl := he
    · exact hv.kept e he
    · exact hkept
  bytes := by
    rw [encode_length hv.enabled] at hsize ⊢
    have hdigits := size_decimal_succ v.next.val
    simp only [next_succ hnext] at hsize ⊢
    omega

theorem WellFormed.erased (hv : WellFormed v) (i : ℕ) :
    WellFormed {v with entries := v.entries.eraseIdx i} where
  enabled := hv.enabled
  next_pos := hv.next_pos
  next_le := hv.next_le
  count := (List.length_eraseIdx_le v.entries i).trans hv.count
  sorted := hv.sorted.sublist (List.eraseIdx_sublist v.entries i)
  below e he := hv.below e (List.mem_of_mem_eraseIdx he)
  keys := hv.keys.sublist ((List.eraseIdx_sublist v.entries i).map _)
  kept e he := hv.kept e (List.mem_of_mem_eraseIdx he)
  bytes := by
    have hbytes := hv.bytes
    have hload := load_eraseIdx_le v.entries i
    rw [encode_length hv.enabled] at hbytes ⊢
    omega

end Steps

/-! ## Reloading -/

theorem pairwise_zip_drop {α : Type} {R : α → α → Prop} {l : List α} (h : l.Pairwise R) :
    ∀ p ∈ l.zip (l.drop 1), R p.1 p.2 := by
  induction h with
  | nil => intro p hp; simp at hp
  | @cons a l ha _ ih =>
      intro p hp
      cases l with
      | nil => simp at hp
      | cons b l =>
          rw [List.drop_one,List.tail_cons,List.zip_cons_cons,List.mem_cons] at hp
          obtain rfl | hp := hp
          · exact ha b List.mem_cons_self
          · exact ih p hp

/-- The numbers of a replay are at most the stored ones. -/
theorem numbered_le {l : List Delivery} {n bound : U64} (hbound : bound.val ≤ maxCursor)
    (hsorted : l.Pairwise (fun a b => a.sequence < b.sequence))
    (habove : ∀ e ∈ l, n ≤ e.sequence ∧ e.sequence < bound) (hn : n ≤ bound) :
    List.Forall₂ (fun a b => size a.write ≤ size b.write) (numbered n (l.map Delivery.message)) l ∧
      n.val+l.length ≤ bound.val := by
  induction l generalizing n with
  | nil => exact ⟨List.Forall₂.nil,by simpa using hn⟩
  | cons e l ih =>
      obtain ⟨hhead,htail⟩ := List.pairwise_cons.mp hsorted
      obtain ⟨hle,hlt⟩ := habove e List.mem_cons_self
      have hsucc : (n+1).val = n.val+1 := next_succ (by
        have := Fin.lt_def.mp (lt_of_le_of_lt hle hlt)
        omega)
      have hstep : ∀ s : U64, n < s → n+1 ≤ s := by
        intro s hs
        rw [Fin.le_def,hsucc]
        exact hs
      obtain ⟨hforall,hlength⟩ := ih (n := n+1) htail (by
        intro d hd
        exact ⟨hstep _ (lt_of_le_of_lt hle (hhead d hd)),(habove d (List.mem_cons_of_mem e hd)).2⟩)
        (hstep _ (lt_of_le_of_lt hle hlt))
      constructor
      · apply List.Forall₂.cons _ hforall
        rw [size_delivery,size_delivery]
        exact Nat.add_le_add_right (Nat.add_le_add_left (size_decimal_mono hle) _) _
      · rw [List.length_cons]
        omega

theorem WellFormed.cursors {v : Inbox} (hv : WellFormed v) : Cursors v := by
  refine ⟨hv.enabled,?_,hv.next_le,hv.count,pairwise_zip_drop hv.sorted,hv.below⟩
  intro hzero
  have hpos := hv.next_pos
  rw [hzero] at hpos
  exact absurd hpos (by decide)

theorem WellFormed.replay {v : Inbox} (hv : WellFormed v) (hbytes : (encode v).length ≤ byteLimit) :
    ∃ n, stageAll (v.entries.map Delivery.message) (Inbox.new true) =
      (.ok (),⟨true,n,numbered 1 (v.entries.map Delivery.message)⟩) := by
  have habove : ∀ e ∈ v.entries, (1 : U64) ≤ e.sequence ∧ e.sequence < v.next := by
    intro e he
    obtain ⟨hne,hlt⟩ := hv.below e he
    exact ⟨Fin.one_le_of_ne_zero hne,hlt⟩
  obtain ⟨hforall,hlength⟩ := numbered_le hv.next_le hv.sorted habove
    (Fin.le_def.mpr hv.next_pos)
  have hone : ((1 : U64)).val = 1 := rfl
  obtain ⟨n,hrun,-⟩ := stageAll_run (v.entries.map Delivery.message) (v := Inbox.new true) rfl
    (by
      intro m hm
      obtain ⟨e,he,rfl⟩ := List.mem_map.mp hm
      exact hv.kept e he)
    (by
      rw [List.map_map]
      exact hv.keys)
    (fun m _ e he => absurd he List.not_mem_nil)
    (by
      rw [List.length_map]
      exact (Nat.zero_add _).trans_le hv.count)
    (by
      rw [List.length_map]
      exact hlength.trans hv.next_le)
    (by
      have hload : load (numbered 1 (v.entries.map Delivery.message)) ≤ load v.entries := by
        apply size_joined_le
        rw [List.forall₂_map_left_iff,List.forall₂_map_right_iff]
        exact hforall
      have hcursor := size_decimal_mono (m := 1+v.entries.length-1) (n := v.next.val) (by omega)
      rw [encode_length hv.enabled] at hbytes
      rw [List.length_map]
      simp only [Inbox.new,hone,List.nil_append]
      omega)
  exact ⟨n,hrun⟩

/-- A stored inbox is reloaded unless it exceeds the limit. -/
theorem WellFormed.decode_encode (E : Env) {v : Inbox} (hv : WellFormed v) :
    decode E (encode v) =
      if (encode v).length ≤ byteLimit then .ok v else .error "channel inbox too large" := by
  split_ifs with hbytes
  · obtain ⟨n,hrun⟩ := hv.replay hbytes
    have hlength : (numbered 1 (v.entries.map Delivery.message)).length = v.entries.length := by
      rw [numbered_length,List.length_map]
    simp only [decode,sequence_eq_ok,require_eq_ok]
    refine ⟨(),hbytes,v,E.fromSlice_encode v,(),hv.cursors,?_⟩
    rw [hrun]
    simp only [require,if_pos hlength]
    rfl
  · simp only [decode,require,if_neg hbytes]
    rfl

/-! ## Receipts -/

/-- The outcomes of `consume`. -/
inductive Consumed (E : Env) (sequence : U64) (digest : Block 32) (v : Inbox) :
    Except String Bool → Inbox → Prop where
  | absent : (∀ e ∈ v.entries, e.sequence ≠ sequence) → Consumed E sequence digest v (.ok false) v
  | mismatch : (∃ e ∈ v.entries, e.sequence = sequence ∧ e.digest E ≠ digest) →
      Consumed E sequence digest v (.error "channel inbox receipt mismatch") v
  | removed (i : ℕ) (e : Delivery) : v.entries[i]? = some e → e.sequence = sequence →
      e.digest E = digest →
      Consumed E sequence digest v (.ok true) {v with entries := v.entries.eraseIdx i}

theorem consume_run (E : Env) (sequence : U64) (digest : Block 32) (v : Inbox) :
    Consumed E sequence digest v (consume E sequence digest v).1 (consume E sequence digest v).2 := by
  simp only [consume,read_id_bind]
  cases hfind : v.entries.findIdx? (fun e => e.sequence = sequence) with
  | none =>
      apply Consumed.absent
      intro e he
      simpa using List.findIdx?_eq_none_iff.mp hfind e he
  | some i =>
      obtain ⟨hi,hsequence,-⟩ := List.findIdx?_eq_some_iff_getElem.mp hfind
      have hget : v.entries[i]? = some v.entries[i] := List.getElem?_eq_getElem hi
      have hs : v.entries[i].sequence = sequence := by simpa using hsequence
      by_cases hdigest : v.entries[i].digest E = digest
      · have hmap : (v.entries[i]?).map (Delivery.digest E) = some digest := by
          rw [hget,Option.map_some,hdigest]
        simp only [demand_bind_of hmap,update_bind,pure_run]
        exact .removed i _ hget hs hdigest
      · have hmap : ¬(v.entries[i]?).map (Delivery.digest E) = some digest := by
          rw [hget,Option.map_some]
          simpa using hdigest
        simp only [demand_bind_of_not hmap]
        exact .mismatch ⟨_,List.getElem_mem hi,hs,hdigest⟩

/-! ## Paging -/

/-- The pages from a cursor on, each asked for with the last number of the one before. -/
def enumerate (v : Inbox) (most : ℕ) : ℕ → U64 → Except String (List Delivery)
  | 0, _ => .ok []
  | n+1, after => do
      let entries ← page v after most
      match entries.getLast? with
      | none => pure []
      | some last => do
          let rest ← enumerate v most n last.sequence
          pure (entries++rest)

section Paging
variable {v : Inbox}

/-- Behind the last entry of a page come those that the page left out. -/
theorem filter_after_page {l : List Delivery} (h : l.Pairwise (fun a b => a.sequence < b.sequence))
    {k : ℕ} {last : Delivery} (hlast : (l.take k).getLast? = some last) :
    l.filter (fun e => last.sequence < e.sequence) = l.drop k := by
  conv_lhs => rw [← List.take_append_drop k l]
  rw [← List.take_append_drop k l,List.pairwise_append] at h
  obtain ⟨hpage,-,hrest⟩ := h
  have hmem := List.mem_of_getLast? hlast
  rw [List.filter_append]
  have hnone : (l.take k).filter (fun e => last.sequence < e.sequence) = [] := by
    rw [List.filter_eq_nil_iff]
    intro e he
    obtain ⟨init,hinit⟩ := List.getLast?_eq_some_iff.mp hlast
    rw [hinit,List.pairwise_append] at hpage
    rw [hinit,List.mem_append,List.mem_singleton] at he
    rw [decide_eq_true_eq,not_lt]
    obtain he | rfl := he
    · exact (hpage.2.2 e he last (List.mem_singleton.mpr rfl)).le
    · exact le_rfl
  have hall : (l.drop k).filter (fun e => last.sequence < e.sequence) = l.drop k := by
    rw [List.filter_eq_self]
    intro e he
    exact decide_eq_true (hrest last hmem e he)
  rw [hnone,hall,List.nil_append]

theorem enumerate_run (hv : WellFormed v) {most : ℕ} (hpos : most ≠ 0) (hmost : most ≤ 32) (n : ℕ)
    (after : U64) (hn : (v.entries.filter fun e => after < e.sequence).length < n) :
    enumerate v most n after = .ok (v.entries.filter fun e => after < e.sequence) := by
  induction n generalizing after with
  | zero => exact absurd hn (Nat.not_lt_zero _)
  | succ n ih =>
      have hpage : page v after most =
          .ok ((v.entries.filter fun e => after < e.sequence).take most) := by
        have hrequest : v.enabled = true ∧ most ≠ 0 ∧ most ≤ 32 := ⟨hv.enabled,hpos,hmost⟩
        simp only [page,require,if_pos hrequest]
        rfl
      simp only [enumerate,sequence_eq_ok,hpage,Except.ok.injEq,exists_eq_left']
      cases hlast : ((v.entries.filter fun e => after < e.sequence).take most).getLast? with
      | none =>
          rw [List.getLast?_eq_none_iff,List.take_eq_nil_iff] at hlast
          rw [hlast.resolve_left hpos]
          rfl
      | some last =>
          have hsorted := hv.sorted.sublist (List.filter_sublist (l := v.entries)
            (p := fun e => after < e.sequence))
          have hafter : after < last.sequence := by
            have hmem := List.mem_of_mem_take (List.mem_of_getLast? hlast)
            simpa using (List.mem_filter.mp hmem).2
          have hrest : v.entries.filter (fun e => last.sequence < e.sequence) =
              (v.entries.filter fun e => after < e.sequence).drop most := by
            rw [← filter_after_page hsorted hlast,List.filter_filter]
            apply List.filter_congr
            intro e _
            rw [Bool.eq_iff_iff]
            simp only [decide_eq_true_eq,Bool.and_eq_true]
            constructor
            · intro h
              exact ⟨h,hafter.trans h⟩
            · exact fun h => h.1
          have hshort : (v.entries.filter fun e => last.sequence < e.sequence).length < n := by
            have hne : 0 < (v.entries.filter fun e => after < e.sequence).length := by
              apply List.length_pos_iff.mpr
              intro hnil
              rw [hnil] at hlast
              simp at hlast
            rw [hrest,List.length_drop]
            omega
          simp only [ih last.sequence hshort,hrest,sequence_eq_ok,Except.ok.injEq,exists_eq_left',
            List.take_append_drop]
          rfl

end Paging

/-! ## The stored form determines the inbox -/

section Stored

theorem readable_writeByte : Readable writeByte := readable_decimal.comp Fin.val_injective

theorem readable_word {n : ℕ} : Readable fun w : Fin n => decimal w.val :=
  readable_decimal.comp Fin.val_injective

theorem readable_writeBlock {n : ℕ} : Readable (writeBlock (n := n)) :=
  readable_writeByte.array.comp List.Vector.toList_injective

/-- The fields of a message in their written order. -/
def Message.fields : Message → (String × Block 16 × U64 × String × U64 × U32 × Bytes × U64) ⊕
    (String × Block 16 × U64 × Block 32 × Block 32 × Bytes)
  | channel name id timestamp sender epoch index body latency =>
      .inl (name,id,timestamp,sender,epoch,index,body,latency)
  | direct name id timestamp sender recipient body =>
      .inr (name,id,timestamp,sender,recipient,body)

theorem Message.fields_injective : Function.Injective Message.fields := by
  intro m m' h
  cases m <;> cases m' <;> simp_all [fields]

theorem readable_message : Readable Message.write := by
  have hchannel := ((readable_quoted.member "channel").pair <|
    (readable_writeBlock (n := 16)).member "id" |>.pair <|
    (readable_word (n := 2^64)).member "timestamp" |>.pair <|
    (readable_quoted.member "sender").pair <| (readable_word (n := 2^64)).member "epoch" |>.pair <|
    (readable_word (n := 2^32)).member "index" |>.pair <|
    (readable_writeByte.array.member "body").pair <|
    (readable_word (n := 2^64)).member "latency").braces
  have hdirect := ((readable_quoted.member "channel").pair <|
    (readable_writeBlock (n := 16)).member "id" |>.pair <|
    (readable_word (n := 2^64)).member "timestamp" |>.pair <|
    (readable_writeBlock (n := 32)).member "sender" |>.pair <|
    (readable_writeBlock (n := 32)).member "recipient" |>.pair <|
    readable_writeByte.array.member "body").braces
  have h := (hchannel.tagged hdirect (show "Channel" ≠ "Private" by decide)).comp
    Message.fields_injective
  convert h using 2 with m
  cases m <;> rfl

theorem readable_delivery : Readable Delivery.write := by
  have h := (((readable_word (n := 2^64)).member "sequence").pair
    (readable_message.member "message")).braces
  exact h.comp (f := fun d : Delivery => (d.sequence,d.message)) (by
    rintro ⟨_,_⟩ ⟨_,_⟩ heq
    simpa using heq)

theorem readable_inbox : Readable Inbox.write := by
  have h := ((readable_boolean.member "enabled").pair <|
    (readable_word (n := 2^64)).member "next" |>.pair <|
    readable_delivery.array.member "entries").braces
  exact h.comp (f := fun v : Inbox => (v.enabled,v.next,v.entries)) (by
    rintro ⟨_,_,_⟩ ⟨_,_,_⟩ heq
    simpa using heq)

/-- So there is a parser of stored inboxes. -/
theorem env_nonempty : Nonempty Env := by
  obtain ⟨parse,hparse⟩ := readable_inbox.exists_reader
  exact ⟨⟨fun _ => wordBlock 32 0,fun bs => found "" (parse bs),fun v => by
    rw [found_eq_ok]
    exact hparse v⟩⟩

end Stored

/-! ## Repetitions, conflicts and removals -/

section Facts
variable {E : Env} {v : Inbox}

theorem WellFormed.nodup {v : Inbox} (hv : WellFormed v) : v.entries.Nodup :=
  hv.sorted.imp fun h heq => absurd (congrArg Delivery.sequence heq) h.ne

theorem WellFormed.eq_of_key (hv : WellFormed v) {e e' : Delivery} (he : e ∈ v.entries)
    (he' : e' ∈ v.entries) (hkey : e.message.key = e'.message.key) : e = e' :=
  List.inj_on_of_nodup_map hv.keys he he' hkey

theorem WellFormed.stage_known (hv : WellFormed v) {e : Delivery} (he : e ∈ v.entries) :
    stage e.message v = (.ok (),v) := by
  have h := stage_run e.message hv.enabled
  have hkept := hv.kept e he
  cases hrun : stage e.message v with
  | mk r v' =>
      rw [hrun] at h
      cases h with
      | piece _ => rfl
      | known _ _ _ => rfl
      | invalid _ hinvalid => exact absurd hkept.valid hinvalid
      | conflict _ _ hconflict =>
          obtain ⟨e',he',hkey,hne⟩ := hconflict
          exact absurd (congrArg Delivery.message (hv.eq_of_key he' he hkey)) hne
      | full _ _ hfresh _ => exact absurd rfl (hfresh e he)
      | large _ _ hfresh _ => exact absurd rfl (hfresh e he)
      | pushed _ _ hfresh _ _ _ => exact absurd rfl (hfresh e he)

theorem WellFormed.stage_conflict (hv : WellFormed v) {m : Message} (hkept : m.Kept)
    (hconflict : ∃ e ∈ v.entries, e.message.key = m.key ∧ e.message ≠ m) :
    stage m v = (.error "conflicting channel delivery",v) := by
  obtain ⟨e,he,hkey,hne⟩ := hconflict
  have h := stage_run m hv.enabled
  cases hrun : stage m v with
  | mk r v' =>
      rw [hrun] at h
      cases h with
      | piece hpiece => exact absurd hpiece (by simp [hkept.plain])
      | conflict _ _ _ => rfl
      | invalid _ hinvalid => exact absurd hkept.valid hinvalid
      | known _ _ hknown =>
          obtain ⟨e',he',rfl⟩ := hknown
          exact absurd (congrArg Delivery.message (hv.eq_of_key he he' hkey)) hne
      | full _ _ hfresh _ => exact absurd hkey (hfresh e he)
      | large _ _ hfresh _ => exact absurd hkey (hfresh e he)
      | pushed _ _ hfresh _ _ _ => exact absurd hkey (hfresh e he)

theorem WellFormed.stage_error (hv : WellFormed v) {m : Message} {e : String} {v' : Inbox}
    (hrun : stage m v = (.error e,v')) : v' = v := by
  have h := stage_run m hv.enabled
  rw [hrun] at h
  cases h <;> rfl

theorem WellFormed.stage_mem (hv : WellFormed v) (m : Message) {e : Delivery} (he : e ∈ v.entries) :
    e ∈ (stage m v).2.entries := by
  have h := stage_run m hv.enabled
  cases hrun : stage m v with
  | mk r v' =>
      rw [hrun] at h
      cases h with
      | pushed _ _ _ _ _ _ => exact List.mem_append_left _ he
      | _ => exact he

theorem WellFormed.consume_mem (hv : WellFormed v) {sequence : U64} {digest : Block 32}
    {e : Delivery} (he : e ∈ v.entries) (hgone : e ∉ (consume E sequence digest v).2.entries) :
    e.sequence = sequence ∧ e.digest E = digest := by
  have h := consume_run E sequence digest v
  cases hrun : consume E sequence digest v with
  | mk r v' =>
      rw [hrun] at h hgone
      cases h with
      | absent _ => exact absurd he hgone
      | mismatch _ => exact absurd he hgone
      | removed i d hd hsequence hdigest =>
          obtain ⟨hi,rfl⟩ := List.getElem?_eq_some_iff.mp hd
          rw [← hv.nodup.erase_getElem i hi] at hgone
          by_cases hsame : e = v.entries[i]
          · rw [hsame]
            exact ⟨hsequence,hdigest⟩
          · exact absurd ((List.mem_erase_of_ne hsame).mpr he) hgone

end Facts

end Gcoms.ChannelInbox
