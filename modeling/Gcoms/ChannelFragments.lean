import Gcoms.ByteStrings
import Gcoms.RelayCells

/-!
# Fragmented channel messages

A channel message that does not fit one cell is cut into fragments, each with
the message's identifier, its index and the number of fragments. The receiving
buffer keeps the parts of at most sixty-four unfinished messages in the order of
their first fragments and returns a message when its last part arrives.
-/
namespace Gcoms.ChannelFragments
open ByteCodec ByteStrings Primitives RelayCells

def kindChan : Byte := 4

def kindChanFragment : Byte := 7

def chanFragmentHeader : ℕ := 21

def chanFragmentSlots : ℕ := 64

def maxChanFragmentBytes : ℕ := 16*1024*1024

def maxChanFragments : ℕ := 2048

def chunkSize : ℕ := maxMessage-chanFragmentHeader

/-- The length of the name is written as a `u16`. -/
def encodeChan (name : String) (mlsWire : Bytes) : Bytes :=
  [kindChan]++bigEndian 2 (name.utf8ByteSize%2^16)++utf8 name++mlsWire

/-- `bytes.get(a..b)`. -/
def getRange (bs : Bytes) (a b : ℕ) : Option Bytes :=
  if a ≤ b ∧ b ≤ bs.length then some (slice bs a b) else none

def decodeChan (cell : Cell) : Option (String × Bytes) := do
  let p := cell.payload
  if p.head? ≠ some kindChan then none
  let length ← getRange p 1 3
  let nlen := readBigEndian length
  let text ← getRange p 3 (3+nlen)
  let name ← fromUtf8 text
  let rest ← getRange p (3+nlen) p.length
  pure (name,rest)

section Fragments
variable (P : Suite)

def fragmentId (encoded : Bytes) : Block 16 := blockAt 16 (P.sha256 encoded).toList 0

def fragmentPayload (id : Block 16) (total index : ℕ) (chunk : Bytes) : Bytes :=
  [kindChanFragment]++id.toList++bigEndian 2 index++bigEndian 2 total++chunk

def encodeChanCells (channel : String) (wire : Bytes) : Except String (List Cell) :=
  if 2^16-1 < channel.utf8ByteSize then .error "channel name exceeds framing limit"
  else
    let encoded := encodeChan channel wire
    if encoded.length ≤ maxMessage then .ok [Cell.new .msg 0 0 encoded]
    else if maxChanFragmentBytes < encoded.length then
      .error "channel MLS frame exceeds reassembly limit"
    else
      let total := chunkCount chunkSize encoded
      if 2^16-1 < total then .error "too many channel MLS fragments"
      else if maxChanFragments < total then .error "too many channel MLS fragments"
      else .ok ((chunks chunkSize encoded).mapIdx (fun index chunk =>
        Cell.new .msg 0 0 (fragmentPayload (fragmentId P encoded) total (index%2^16) chunk)))

structure FragmentEntry where
  id : Block 16
  parts : List (Option Bytes)
  bytes : ℕ

def FragmentEntry.store (entry : FragmentEntry) (index : ℕ) (chunk : Bytes) : FragmentEntry :=
  {entry with parts := entry.parts.set index (some chunk), bytes := entry.bytes+chunk.length}

structure ChannelFragmentBuffer where
  entries : List FragmentEntry
  bytes : ℕ

namespace ChannelFragmentBuffer

def empty : ChannelFragmentBuffer := ⟨[],0⟩

def remove (b : ChannelFragmentBuffer) (position : ℕ) : ChannelFragmentBuffer :=
  ⟨b.entries.eraseIdx position,b.bytes-(b.entries[position]?.elim 0 FragmentEntry.bytes)⟩

/-- The oldest entries give way until a slot is free. -/
def makeRoom : List FragmentEntry → ℕ → ChannelFragmentBuffer
  | [],bytes => ⟨[],bytes⟩
  | e::rest,bytes =>
      if chanFragmentSlots ≤ rest.length+1 then makeRoom rest (bytes-e.bytes)
      else ⟨e::rest,bytes⟩

/-- A message without a missing part leaves the buffer; it must have the hash it
was announced with. -/
def finish (b : ChannelFragmentBuffer) (position : ℕ) (entry : FragmentEntry) :
    Option Bytes × ChannelFragmentBuffer :=
  if entry.parts.any Option.isNone then (none,b)
  else
    let encoded := (entry.parts.filterMap id).flatten
    (if fragmentId P encoded = entry.id then some encoded else none,b.remove position)

/-- The part is stored at `position`, whose entry is given. -/
def place (b : ChannelFragmentBuffer) (position : ℕ) (entry : FragmentEntry) (index : ℕ)
    (chunk : Bytes) : Option Bytes × ChannelFragmentBuffer :=
  match entry.parts[index]?.join with
  | some existing => (none,if existing ≠ chunk then b.remove position else b)
  | none =>
      if maxChanFragmentBytes < b.bytes+chunk.length then (none,b.remove position)
      else
        finish P ⟨b.entries.set position (entry.store index chunk),b.bytes+chunk.length⟩ position
          (entry.store index chunk)

/-- The entry of the message, or a new one. A fragment that disagrees on the
number of fragments discards the message. -/
def accept (b : ChannelFragmentBuffer) (id : Block 16) (total index : ℕ) (chunk : Bytes) :
    Option Bytes × ChannelFragmentBuffer :=
  match b.entries.findIdx? (fun e => decide (e.id = id)) with
  | some position =>
      match b.entries[position]? with
      | some entry =>
          if entry.parts.length = total then place P b position entry index chunk
          else (none,b.remove position)
      | none => (none,b)
  | none =>
      let roomy := makeRoom b.entries b.bytes
      let entry : FragmentEntry := ⟨id,List.replicate total none,0⟩
      place P ⟨roomy.entries++[entry],roomy.bytes⟩ roomy.entries.length entry index chunk

def push (b : ChannelFragmentBuffer) (payload : Bytes) : Option Bytes × ChannelFragmentBuffer :=
  if payload.head? ≠ some kindChanFragment ∨ payload.length ≤ chanFragmentHeader then (none,b)
  else
    let index := wordAt 2 payload 17
    let total := wordAt 2 payload 19
    if ¬(2 ≤ total ∧ total ≤ maxChanFragments) ∨ total ≤ index then (none,b)
    else accept P b (blockAt 16 payload 1) total index (payload.drop chanFragmentHeader)

end ChannelFragmentBuffer

end Fragments

end Gcoms.ChannelFragments
