import Gcoms.Fallible
import Gcoms.Primitives

/-!
# Relay cells

The two cell formats that the relay handles. A GC/1 cell is a plain record; its
natural encoding carries no padding and is what a relay message nests. A GC/2
natural cell carries its own bounds, so a value that exceeds them cannot be
built. Fields of a payload are read at fixed offsets.
-/
namespace Gcoms.RelayCells
open ByteCodec Primitives Fallible

/-- `bytes[i..i+n]` as an array. -/
def blockAt (n : ℕ) (bs : Bytes) (i : ℕ) : Block n := pad n (slice bs i (i+n))

/-- `bytes[i..i+n]` as a big-endian word. -/
def wordAt (n : ℕ) (bs : Bytes) (i : ℕ) : ℕ := readBigEndian (slice bs i (i+n))

theorem blockAt_toList {n i : ℕ} {bs : Bytes} (h : i+n ≤ bs.length) :
    (blockAt n bs i).toList = slice bs i (i+n) := by
  have hlen : (slice bs i (i+n)).length = n := by
    rw [slice_length h]
    omega
  have hp := pad_self (⟨slice bs i (i+n),hlen⟩ : Block n) []
  rw [List.append_nil] at hp
  exact congrArg List.Vector.toList hp

theorem wordAt_lt {n i : ℕ} {bs : Bytes} (h : i+n ≤ bs.length) : wordAt n bs i < 256^n := by
  have hlt := readBigEndian_lt (slice bs i (i+n))
  rwa [slice_length h,Nat.add_sub_cancel_left] at hlt

theorem bigEndian_wordAt {n i : ℕ} {bs : Bytes} (h : i+n ≤ bs.length) :
    bigEndian n (wordAt n bs i) = slice bs i (i+n) := by
  have hb := bigEndian_readBigEndian (slice bs i (i+n))
  rwa [slice_length h,Nat.add_sub_cancel_left] at hb

theorem slice_append_slice {bs : Bytes} {i j k : ℕ} (hij : i ≤ j) (hjk : j ≤ k) :
    slice bs i j++slice bs j k = slice bs i k := by
  have hj : bs.drop j = (bs.drop i).drop (j-i) := by
    rw [List.drop_drop]
    congr 1
    omega
  have hk : k-i = (j-i)+(k-j) := by omega
  rw [slice,slice,slice,hj,hk,List.take_add]

theorem slice_self (bs : Bytes) {n : ℕ} (h : bs.length = n) : slice bs 0 n = bs := by
  simp [slice,← h]

def protocolVersion : ℕ := 1
def headerLen : ℕ := 6
def fMore : ℕ := 1
def fLast : ℕ := 2
def maxMessage : ℕ := 15*1024
/-- `Bucket::B3.max_payload()`. -/
def maxPayload : ℕ := 16384-headerLen

inductive CellType where
  | cover | hello | msg | ctrlAlias | presence | pex | relaySub | relayPush | frwd | ack
  deriving DecidableEq, Repr

def CellType.raw : CellType → ℕ
  | .cover => 0
  | .hello => 1
  | .msg => 2
  | .ctrlAlias => 3
  | .presence => 4
  | .pex => 5
  | .relaySub => 6
  | .relayPush => 7
  | .frwd => 8
  | .ack => 9

def CellType.fromRaw : ℕ → Option CellType
  | 0 => some .cover
  | 1 => some .hello
  | 2 => some .msg
  | 3 => some .ctrlAlias
  | 4 => some .presence
  | 5 => some .pex
  | 6 => some .relaySub
  | 7 => some .relayPush
  | 8 => some .frwd
  | 9 => some .ack
  | _ => none

inductive TrafficClass where
  | interactive | bulk
  deriving DecidableEq, Repr

def TrafficClass.byte : TrafficClass → Byte
  | .interactive => 0
  | .bulk => 1

def TrafficClass.fromByte (b : Byte) : Option TrafficClass :=
  if b = 0 then some .interactive else if b = 1 then some .bulk else none

/-! ## GC/1 -/

structure Cell where
  version : ℕ
  rawType : ℕ
  flags : ℕ
  roundCtr : ℕ
  payload : Bytes
  deriving DecidableEq, Repr

def Cell.cellType (c : Cell) : Option CellType := CellType.fromRaw c.rawType

def Cell.new (kind : CellType) (flags roundCtr : ℕ) (payload : Bytes) : Cell :=
  ⟨protocolVersion,kind.raw,flags,roundCtr,payload⟩

/-- `natural_cell_len`. -/
def Cell.naturalLen (c : Cell) : ℕ := headerLen+c.payload.length

/-! ## GC/2 -/

inductive NaturalError where
  | version | length | type | reserved | payload
  deriving DecidableEq, Repr

def version2 : ℕ := 2
def maxCell : ℕ := 16*1024

def NaturalCell.maxFlags : CellType → ℕ
  | .msg => fMore+fLast
  | _ => 0

def NaturalCell.limit : CellType → ℕ
  | .msg => maxMessage
  | _ => maxCell-headerLen

/-- A natural cell within its bounds. The allowed flags are the low bits. -/
structure NaturalCell where
  kind : CellType
  flags : ℕ
  payload : Bytes
  flags_le : flags ≤ NaturalCell.maxFlags kind
  payload_le : payload.length ≤ NaturalCell.limit kind
  deriving DecidableEq

namespace NaturalCell

def new (kind : CellType) (flags : ℕ) (payload : Bytes) : Except NaturalError NaturalCell :=
  if hf : flags ≤ maxFlags kind then
    if hp : payload.length ≤ limit kind then .ok ⟨kind,flags,payload,hf,hp⟩
    else .error .payload
  else .error .reserved

def encodedLen (c : NaturalCell) : ℕ := headerLen+c.payload.length

def encode (c : NaturalCell) : Bytes :=
  [Fin.ofNat 256 (version2*16+c.kind.raw),Fin.ofNat 256 c.flags,0,0]++
    (bigEndian 2 c.payload.length++c.payload)

def decode (wire : Bytes) : Except NaturalError NaturalCell := do
  require (headerLen ≤ wire.length ∧ wire.length ≤ maxCell) .length
  require (wordAt 1 wire 0/16 = version2) .version
  let kind ← found .type (CellType.fromRaw (wordAt 1 wire 0%16))
  require (slice wire 2 4 = [0,0]) .reserved
  require (wordAt 2 wire 4 = wire.length-headerLen) .length
  NaturalCell.new kind (wordAt 1 wire 1) (wire.drop headerLen)

end NaturalCell

end Gcoms.RelayCells
