import Gcoms.ChannelFragments
import Gcoms.Fallible
import Gcoms.FlowRecord
import Gcoms.RatchetHandshake

/-!
# GC/2 session packets

A packet is a magic number, a tag and the encoding of a first move or of a ratchet
frame. It is checked by a strict validator over the bytes, and its content is read
by the lenient decoders of the ratchet. The validator accepts exactly the encodings
of well-formed frames, so both read the same frame, and every flow record fits a
packet whatever the header of its frame.
-/
namespace Gcoms.RatchetHandshake
open ByteCodec RelayCells

/-- The unread rest of the buffer is the ciphertext. -/
def FirstMove.decode (buf : Bytes) : Option FirstMove :=
  if buf.length < 32+2+12 then none
  else
    let klen := readBigEndian (slice buf 32 34)
    if buf.length < 34+klen+12 then none
    else some ⟨blockAt 32 buf 0,slice buf 34 (34+klen),blockAt 12 buf (34+klen),
      buf.drop (34+klen+12)⟩

end Gcoms.RatchetHandshake

namespace Gcoms.SessionPackets
open ByteCodec Primitives Fallible RatchetFrame RatchetHandshake RatchetSession FlowRecord
open ChannelFragments (getRange)
open RelayCells (blockAt)

/-! ## First moves -/

def firstHeader : ℕ := 32+2+1088+12

def validateFirst (first : FirstMove) : Except Error Unit :=
  require (¬(first.kemCt.length ≠ kemCtLen ∨ first.ct.length < 16 ∨
    maxMessage-sessionHeader-firstHeader < first.ct.length)) .length

/-! ## Frames -/

/-- The end of the optional key, from its flag. -/
def keyEnd (bytes : Bytes) : Except Error ℕ :=
  match (bytes[48]? : Option Byte) with
  | some 0 => .ok 49
  | some 1 => .ok 81
  | _ => .error .version

/-- The end of the optional ciphertext; a flag other than zero or one is refused. -/
def ciphertextEnd (bytes : Bytes) (position : ℕ) : Except Error ℕ :=
  match bytes[position]? with
  | some 0 => .ok (position+1)
  | some 1 =>
      if getRange bytes (position+1) (position+3) ≠ some (bigEndian 2 1088) then .error .length
      else .ok (position+(3+1088))
  | _ => .error .version

def validateFrameBytes (bytes : Bytes) : Except Error Unit := do
  require (¬bytes.length < 8+8+32+1+1+16) .length
  let counter := readBigEndian (slice bytes 0 8)
  let previous := readBigEndian (slice bytes 8 16)
  require (¬(counter = 0 ∨ counter ≤ previous)) .counter
  let position ← keyEnd bytes
  let position ← ciphertextEnd bytes position
  require (¬bytes.length < position+16) .length

def headerLength (f : Frame) : ℕ :=
  8+8+32+1+(if f.mixedWith.isSome then 32 else 0)+1+(if f.pqCt.isSome then 2+1088 else 0)

def validateFrame (f : Frame) : Except Error Unit :=
  require (¬(f.ctr = 0 ∨ f.ctr ≤ f.pn ∨ f.pqCt.any (fun ct => ct.length ≠ kemCtLen) = true ∨
    f.ct.length < 16 ∨ maxMessage-sessionHeader-headerLength f < f.ct.length)) .length

/-! ## Packets -/

inductive Kind where
  | firstMove
  | frame
  | credit
  deriving DecidableEq

/-- `GCH2` -/
def firstMagic : Bytes := [0x47,0x43,0x48,0x32]

/-- `GCM2` -/
def frameMagic : Bytes := [0x47,0x43,0x4d,0x32]

/-- `GCA2` -/
def creditMagic : Bytes := [0x47,0x43,0x41,0x32]

structure Packet where
  kind : Kind
  tag : Block 16
  bytes : Bytes

def validateTag (tag : Block 16) : Except Error Unit := require (tag ≠ .replicate 16 0) .state

def packetKind (bytes : Bytes) : Except Error Kind :=
  let magic := getRange bytes 0 4
  if magic = some firstMagic then .ok .firstMove
  else if magic = some frameMagic then .ok .frame
  else if magic = some creditMagic ∧ bytes.length = creditBytes then .ok .credit
  else .error .version

def validateBody (kind : Kind) (body : Bytes) : Except Error Unit :=
  match kind with
  | .firstMove => require (¬(body.length < firstHeader+16 ∨
      getRange body 32 34 ≠ some (bigEndian 2 1088))) .length
  | .frame => validateFrameBytes body
  | .credit => .ok ()

namespace Packet

def decode (bytes : Bytes) : Except Error Packet := do
  require (sessionHeader ≤ bytes.length ∧ bytes.length ≤ maxMessage) .length
  let kind ← packetKind bytes
  let tag := blockAt 16 bytes 4
  validateTag tag
  validateBody kind (bytes.drop sessionHeader)
  return ⟨kind,tag,bytes⟩

def firstMove (p : Packet) : Except Error FirstMove := do
  require (p.kind = .firstMove) .version
  let first ← found .length (FirstMove.decode (p.bytes.drop sessionHeader))
  validateFirst first
  return first

def frame (p : Packet) : Except Error Frame := do
  require (p.kind = .frame) .version
  found .length (Frame.decode (p.bytes.drop sessionHeader))

end Packet

def envelope (magic : Bytes) (tag : Block 16) (body : Bytes) : Bytes := magic++(tag.toList++body)

def encodeFirstMove (tag : Block 16) (first : FirstMove) : Except Error Bytes := do
  validateTag tag
  validateFirst first
  return envelope firstMagic tag first.encode

def encodeFrame (tag : Block 16) (f : Frame) : Except Error Bytes := do
  validateTag tag
  validateFrame f
  return envelope frameMagic tag f.encode

def encodeFrameBytes (tag : Block 16) (bytes : Bytes) : Except Error Bytes := do
  validateTag tag
  require (bytes.length ≤ maxMessage-sessionHeader) .length
  validateFrameBytes bytes
  return envelope frameMagic tag bytes

/-! ## Well-formed frames -/

/-- A frame whose encoding the validator accepts. -/
structure Shaped (f : Frame) : Prop where
  ctr_lt : f.ctr < 2^64
  pn_lt : f.pn < f.ctr
  pqCt : ∀ c, f.pqCt = some c → c.length = kemCtLen
  ct : 16 ≤ f.ct.length

section Frames
variable {f : Frame} {bytes : Bytes} {p q : ℕ}

theorem Shaped.fits (h : Shaped f) : f.Fits where
  ctr_lt := h.ctr_lt
  pn_lt := h.pn_lt
  pqCt_lt := fun c hc => by
    rw [h.pqCt c hc]
    decide

theorem drop_eq_slice (h : p ≤ q) : bytes.drop p = slice bytes p q++bytes.drop q := by
  have hdrop : bytes.drop q = (bytes.drop p).drop (q-p) := by
    rw [List.drop_drop]
    congr 1
    omega
  rw [slice,hdrop,List.take_append_drop]

theorem drop_eq_cons {b : Byte} (h : bytes[p]? = some b) : bytes.drop p = b::bytes.drop (p+1) := by
  obtain ⟨hlt,hget⟩ := List.getElem?_eq_some_iff.mp h
  rw [List.drop_eq_getElem_cons hlt,hget]

theorem getRange_some {a b : ℕ} {field : Bytes} (h : getRange bytes a b = some field) :
    a ≤ b ∧ b ≤ bytes.length ∧ slice bytes a b = field := by
  unfold getRange at h
  split_ifs at h with hrange
  exact ⟨hrange.1,hrange.2,Option.some.inj h⟩

/-- The key that stands before the position. -/
theorem keyEnd_ok (h : keyEnd bytes = .ok p) (hp : p ≤ bytes.length) :
    ∃ m, bytes.drop 48 = optionKey m++bytes.drop p := by
  unfold keyEnd at h
  split at h
  · next hflag =>
      cases h
      exact ⟨none,drop_eq_cons hflag⟩
  · next hflag =>
      cases h
      refine ⟨some ⟨slice bytes 49 81,slice_length hp⟩,?_⟩
      rw [drop_eq_cons hflag,drop_eq_slice (by decide : 49 ≤ 81)]
      rfl
  · cases h

theorem ciphertextEnd_ok (h : ciphertextEnd bytes p = .ok q) (hq : q ≤ bytes.length) :
    p < q ∧ ∃ c, bytes.drop p = optionCiphertext c++bytes.drop q ∧
      ∀ x, c = some x → x.length = kemCtLen := by
  unfold ciphertextEnd at h
  split at h
  · next hflag =>
      cases h
      exact ⟨Nat.lt_succ_self p,none,drop_eq_cons hflag,fun _ hx => by cases hx⟩
  · next hflag =>
      split_ifs at h with hlen
      cases h
      obtain ⟨_,_,hslice⟩ := getRange_some (not_not.mp hlen)
      have hct : (slice bytes (p+3) (p+(3+1088))).length = 1088 := by
        rw [slice_length hq]
        omega
      refine ⟨by omega,some (slice bytes (p+3) (p+(3+1088))),?_,fun x hx => ?_⟩
      · rw [drop_eq_cons hflag,drop_eq_slice (by omega : p+1 ≤ p+3),hslice,
          drop_eq_slice (by omega : p+3 ≤ p+(3+1088)),optionCiphertext,hct]
        simp
      · cases hx
        exact hct
  · cases h

/-- The validator accepts encodings of well-formed frames only. -/
theorem validateFrameBytes_ok (h : validateFrameBytes bytes = .ok ()) :
    ∃ f, Shaped f ∧ f.encode = bytes := by
  simp only [validateFrameBytes,sequence_eq_ok,require_eq_ok] at h
  obtain ⟨_,hlen,_,hcounter,p,hkey,q,hct,hrest⟩ := h
  obtain ⟨hpq,c,hc,hcl⟩ := ciphertextEnd_ok hct (by omega)
  obtain ⟨m,hm⟩ := keyEnd_ok hkey (by omega)
  obtain ⟨hzero,hpn⟩ := not_or.mp hcounter
  refine ⟨⟨readBigEndian (slice bytes 0 8),readBigEndian (slice bytes 8 16),
    ⟨slice bytes 16 48,slice_length (by omega)⟩,m,c,bytes.drop q⟩,⟨?_,not_le.mp hpn,hcl,?_⟩,?_⟩
  · have hword := readBigEndian_lt (slice bytes 0 8)
    rw [slice_length (by omega)] at hword
    exact hword
  · rw [List.length_drop]
    omega
  · have h8 : (slice bytes 0 8).length = 8 := slice_length (by omega)
    have h16 : (slice bytes 8 16).length = 8 := slice_length (by omega)
    have hctr := bigEndian_readBigEndian (slice bytes 0 8)
    have hprev := bigEndian_readBigEndian (slice bytes 8 16)
    rw [h8] at hctr
    rw [h16] at hprev
    have hall : bytes = slice bytes 0 8++(slice bytes 8 16++(slice bytes 16 48++bytes.drop 48)) := by
      rw [← drop_eq_slice (by decide : 16 ≤ 48),← drop_eq_slice (by decide : 8 ≤ 16),
        ← drop_eq_slice (by decide : 0 ≤ 8),List.drop_zero]
    have hfields : Frame.encode ⟨readBigEndian (slice bytes 0 8),readBigEndian (slice bytes 8 16),
        ⟨slice bytes 16 48,slice_length (by omega)⟩,m,c,bytes.drop q⟩ =
        slice bytes 0 8++(slice bytes 8 16++(slice bytes 16 48++
          (optionKey m++(optionCiphertext c++bytes.drop q)))) := by
      simp only [Frame.encode,Frame.headerBytes,hctr,hprev,List.append_assoc]
      rfl
    rw [hfields,← hc,← hm,← hall]

/-- What stands before and after the flag of the key. -/
theorem encode_fields (f : Frame) : f.encode =
    (bigEndian 8 f.ctr++(bigEndian 8 f.pn++f.senderPub.toList))++
      (optionKey f.mixedWith++(optionCiphertext f.pqCt++f.ct)) := by
  simp [Frame.encode,Frame.headerBytes]

theorem keyEnd_encode (f : Frame) : keyEnd f.encode = .ok (48+(optionKey f.mixedWith).length) := by
  have hlen : (bigEndian 8 f.ctr++(bigEndian 8 f.pn++f.senderPub.toList)).length = 48 := by simp
  have hget : f.encode[48]? =
      (optionKey f.mixedWith++(optionCiphertext f.pqCt++f.ct))[0]? := by
    rw [encode_fields,List.getElem?_append_right hlen.le,hlen]
  unfold keyEnd
  rw [hget]
  cases f.mixedWith with
  | none => rfl
  | some m => simp [optionKey]

theorem ciphertextEnd_encode (h : Shaped f) :
    ciphertextEnd f.encode (48+(optionKey f.mixedWith).length) = .ok f.headerBytes.length := by
  have hhead : f.headerBytes = (bigEndian 8 f.ctr++(bigEndian 8 f.pn++(f.senderPub.toList++
      optionKey f.mixedWith)))++optionCiphertext f.pqCt := by
    simp [Frame.headerBytes]
  have hall : f.encode = (bigEndian 8 f.ctr++(bigEndian 8 f.pn++(f.senderPub.toList++
      optionKey f.mixedWith)))++(optionCiphertext f.pqCt++f.ct) := by
    simp [Frame.encode,Frame.headerBytes]
  have hlen : (bigEndian 8 f.ctr++(bigEndian 8 f.pn++(f.senderPub.toList++
      optionKey f.mixedWith))).length = 48+(optionKey f.mixedWith).length := by
    simp
    omega
  generalize bigEndian 8 f.ctr++(bigEndian 8 f.pn++(f.senderPub.toList++
      optionKey f.mixedWith)) = pre at hhead hall hlen
  have hget : f.encode[48+(optionKey f.mixedWith).length]? = (optionCiphertext f.pqCt++f.ct)[0]? := by
    rw [hall,← hlen,List.getElem?_append_right le_rfl,Nat.sub_self]
  unfold ciphertextEnd
  rw [hget]
  cases hpq : f.pqCt with
  | none =>
      rw [hhead,hpq]
      simp [optionCiphertext,hlen]
  | some c =>
      have hc : c.length = 1088 := h.pqCt c hpq
      have hrange : getRange f.encode (48+(optionKey f.mixedWith).length+1)
          (48+(optionKey f.mixedWith).length+3) = some (bigEndian 2 1088) := by
        have hslice : slice f.encode (48+(optionKey f.mixedWith).length+1)
            (48+(optionKey f.mixedWith).length+3) = bigEndian 2 1088 :=
          slice_field (pre++[1]) (by rw [hall,hpq,optionCiphertext,hc]; simp; rfl) (by simp [hlen])
            (by simp)
        have hle : 48+(optionKey f.mixedWith).length+3 ≤ f.encode.length := by
          rw [hall,hpq,List.length_append,hlen]
          simp [optionCiphertext]
        unfold getRange
        rw [if_pos ⟨by omega,hle⟩,hslice]
      rw [hhead,hpq]
      simp [optionCiphertext,hlen,hc,hrange]

theorem validateFrameBytes_encode (h : Shaped f) : validateFrameBytes f.encode = .ok () := by
  have hpn : f.pn < 2^64 := h.pn_lt.trans h.ctr_lt
  have hctr : slice f.encode 0 8 = bigEndian 8 f.ctr :=
    slice_field [] (by simp [Frame.encode,Frame.headerBytes]; rfl) rfl (by simp)
  have hprev : slice f.encode 8 16 = bigEndian 8 f.pn :=
    slice_field (bigEndian 8 f.ctr) (by simp [Frame.encode,Frame.headerBytes]; rfl) (by simp)
      (by simp)
  have hlen : f.encode.length = f.headerBytes.length+f.ct.length := List.length_append
  have hkey := optionKey_length_pos f.mixedWith
  have hpq := optionCiphertext_length_pos f.pqCt
  have hhead : f.headerBytes.length =
      48+(optionKey f.mixedWith).length+(optionCiphertext f.pqCt).length := by
    simp [Frame.headerBytes]
    omega
  have hct := h.ct
  simp only [validateFrameBytes,sequence_eq_ok,require_eq_ok,hctr,hprev,
    readBigEndian_bigEndian 8 f.ctr h.ctr_lt,readBigEndian_bigEndian 8 f.pn hpn]
  refine ⟨(),by omega,(),?_,_,keyEnd_encode f,_,ciphertextEnd_encode h,by omega⟩
  have hlt := h.pn_lt
  omega

theorem headerLength_eq (h : Shaped f) : f.headerBytes.length = headerLength f := by
  cases hm : f.mixedWith with
  | none =>
      cases hc : f.pqCt with
      | none => simp [Frame.headerBytes,headerLength,hm,hc,optionKey,optionCiphertext]
      | some c => simp [Frame.headerBytes,headerLength,hm,hc,optionKey,optionCiphertext,h.pqCt c hc,kemCtLen]
  | some m =>
      cases hc : f.pqCt with
      | none => simp [Frame.headerBytes,headerLength,hm,hc,optionKey,optionCiphertext]
      | some c => simp [Frame.headerBytes,headerLength,hm,hc,optionKey,optionCiphertext,h.pqCt c hc,kemCtLen]

theorem headerLength_le (f : Frame) : headerLength f+16 ≤ maxFrameOverhead := by
  unfold headerLength maxFrameOverhead
  split_ifs <;> omega

/-- The check of the fields is the check of the length of the encoding. -/
theorem validateFrame_ok (hctr : f.ctr < 2^64) :
    validateFrame f = .ok () ↔ Shaped f ∧ f.encode.length ≤ maxMessage-sessionHeader := by
  have hbound := headerLength_le f
  have hmax : maxFrameOverhead ≤ maxMessage-sessionHeader := by decide
  rw [validateFrame,require_eq_ok]
  constructor
  · intro h
    have hshaped : Shaped f := by
      refine ⟨hctr,by omega,fun c hc => ?_,by omega⟩
      by_contra hne
      refine h (.inr (.inr (.inl ?_)))
      simp [hc,hne]
    have hlen : f.encode.length = f.headerBytes.length+f.ct.length := List.length_append
    rw [headerLength_eq hshaped] at hlen
    exact ⟨hshaped,by omega⟩
  · rintro ⟨hshaped,hle⟩
    have hlen : f.encode.length = f.headerBytes.length+f.ct.length := List.length_append
    rw [headerLength_eq hshaped] at hlen
    have hpn := hshaped.pn_lt
    have hct := hshaped.ct
    rintro (hz | hz | hz | hz | hz)
    · omega
    · omega
    · cases hc : f.pqCt with
      | none => simp [hc] at hz
      | some c => simp [hc,hshaped.pqCt c hc] at hz
    · omega
    · omega

end Frames

/-! ## First moves -/

section First
variable {first : FirstMove} {body : Bytes}

/-- A first move whose encoding the packet decoder accepts. -/
structure Begun (first : FirstMove) : Prop where
  kemCt : first.kemCt.length = kemCtLen
  ct : 16 ≤ first.ct.length

theorem Begun.length (h : Begun first) : first.encode.length = firstHeader+first.ct.length := by
  simp only [FirstMove.encode,FirstMove.header,List.length_append,bigEndian_length,
    List.Vector.toList_length,h.kemCt,kemCtLen,firstHeader]

theorem validateFirst_ok :
    validateFirst first = .ok () ↔ Begun first ∧ first.encode.length ≤ maxMessage-sessionHeader := by
  have hmax : firstHeader ≤ maxMessage-sessionHeader := by decide
  rw [validateFirst,require_eq_ok]
  constructor
  · intro h
    have hbegun : Begun first := ⟨by omega,by omega⟩
    have hlen := hbegun.length
    exact ⟨hbegun,by omega⟩
  · rintro ⟨hbegun,hle⟩
    have hlen := hbegun.length
    have hk := hbegun.kemCt
    have hct := hbegun.ct
    omega

theorem encode_first (h : Begun first) : first.encode =
    first.ephPub.toList++(bigEndian 2 1088++(first.kemCt++(first.nonce.toList++first.ct))) := by
  have hk : first.kemCt.length = 1088 := h.kemCt
  simp [FirstMove.encode,FirstMove.header,hk]

theorem slice_klen (h : Begun first) : slice first.encode 32 34 = bigEndian 2 1088 :=
  slice_field first.ephPub.toList (encode_first h) (by simp) (by simp)

theorem firstMove_decode_encode (h : Begun first) : FirstMove.decode first.encode = some first := by
  have hk : first.kemCt.length = 1088 := h.kemCt
  have hall := encode_first h
  have hlen : first.encode.length = firstHeader+first.ct.length := h.length
  have hklen : readBigEndian (slice first.encode 32 34) = 1088 := by
    rw [slice_klen h,readBigEndian_bigEndian 2 1088 (by decide)]
  have heph : slice first.encode 0 32 = first.ephPub.toList :=
    slice_field [] (by rw [hall]; rfl) rfl (by simp)
  have hct : slice first.encode 34 (34+1088) = first.kemCt :=
    slice_field (first.ephPub.toList++bigEndian 2 1088) (by rw [hall]; simp; rfl) (by simp)
      (by simp [hk])
  have hnonce : slice first.encode (34+1088) (34+1088+12) = first.nonce.toList :=
    slice_field (first.ephPub.toList++(bigEndian 2 1088++first.kemCt)) (by rw [hall]; simp; rfl)
      (by simp [hk]) (by simp)
  have hrest : first.encode.drop (34+1088+12) = first.ct := by
    have hpre : first.encode = (first.ephPub.toList++(bigEndian 2 1088++(first.kemCt++
        first.nonce.toList)))++first.ct := by rw [hall]; simp
    rw [hpre]
    exact List.drop_left' (by simp [hk])
  have hpad : ∀ {n : ℕ} (b : Block n), pad n b.toList = b := fun b => by
    simpa using pad_self b []
  unfold FirstMove.decode
  rw [if_neg (by rw [hlen]; unfold firstHeader; omega)]
  simp only [hklen]
  rw [if_neg (by rw [hlen]; unfold firstHeader; omega)]
  simp only [blockAt,heph,hct,hnonce,hrest,hpad]

/-- The first move that an accepted body encodes. -/
theorem validateBody_first (h : validateBody .firstMove body = .ok ()) :
    ∃ first, Begun first ∧ first.encode = body := by
  simp only [validateBody,require_eq_ok,not_or,not_lt,not_not] at h
  obtain ⟨hlen,hk⟩ := h
  obtain ⟨_,_,hk⟩ := getRange_some hk
  have hlong : 1150 ≤ body.length := hlen
  have hct : (slice body 34 1122).length = 1088 := slice_length (by omega)
  refine ⟨⟨⟨slice body 0 32,slice_length (by omega)⟩,slice body 34 1122,
    ⟨slice body 1122 1134,slice_length (by omega)⟩,body.drop 1134⟩,⟨hct,?_⟩,?_⟩
  · rw [List.length_drop]
    omega
  · have hall : body = slice body 0 32++(slice body 32 34++(slice body 34 1122++
        (slice body 1122 1134++body.drop 1134))) := by
      rw [← drop_eq_slice (by decide : 1122 ≤ 1134),← drop_eq_slice (by decide : 34 ≤ 1122),
        ← drop_eq_slice (by decide : 32 ≤ 34),← drop_eq_slice (by decide : 0 ≤ 32),List.drop_zero]
    have hfields : FirstMove.encode ⟨⟨slice body 0 32,slice_length (by omega)⟩,slice body 34 1122,
        ⟨slice body 1122 1134,slice_length (by omega)⟩,body.drop 1134⟩ =
        slice body 0 32++(bigEndian 2 1088++(slice body 34 1122++
          (slice body 1122 1134++body.drop 1134))) := by
      simp only [FirstMove.encode,FirstMove.header,hct,List.append_assoc]
      rfl
    rw [hfields,← hk,← hall]

theorem validateBody_encode (h : Begun first) : validateBody .firstMove first.encode = .ok () := by
  have hlen := h.length
  have hct := h.ct
  have hrange : getRange first.encode 32 34 = some (bigEndian 2 1088) := by
    unfold getRange
    rw [if_pos ⟨by decide,by rw [hlen]; unfold firstHeader; omega⟩,slice_klen h]
  simp only [validateBody,require_eq_ok,not_or,not_lt,not_not]
  exact ⟨by omega,hrange⟩

end First

/-! ## Envelopes -/

/-- The magic number of a kind. -/
def Kind.magic : Kind → Bytes
  | .firstMove => firstMagic
  | .frame => frameMagic
  | .credit => creditMagic

section Envelopes
variable {bytes magic body : Bytes} {tag : Block 16} {kind : Kind} {p : Packet}

theorem packetKind_ok (h : packetKind bytes = .ok kind) : getRange bytes 0 4 = some kind.magic := by
  unfold packetKind at h
  dsimp only at h
  split_ifs at h with h1 h2 h3
  · cases h
    exact h1
  · cases h
    exact h2
  · cases h
    exact h3.1

/-- An accepted packet is the envelope of its body. -/
theorem decode_ok (h : Packet.decode bytes = .ok p) :
    p.bytes = bytes ∧ p.tag ≠ .replicate 16 0 ∧ bytes.length ≤ maxMessage ∧
      validateBody p.kind (bytes.drop sessionHeader) = .ok () ∧
      bytes = envelope p.kind.magic p.tag (bytes.drop sessionHeader) := by
  simp only [Packet.decode,validateTag,sequence_eq_ok,require_eq_ok,done_eq_ok] at h
  obtain ⟨_,hlen,kind,hkind,_,htag,_,hbody,rfl⟩ := h
  obtain ⟨_,_,hmagic⟩ := getRange_some (packetKind_ok hkind)
  refine ⟨rfl,htag,hlen.2,hbody,?_⟩
  have hlong : 20 ≤ bytes.length := hlen.1
  have htaglen : (slice bytes 4 20).length = 16 := slice_length (by omega)
  have htagbytes : (blockAt 16 bytes 4).toList = slice bytes 4 20 := by
    have hpad := pad_self (⟨slice bytes 4 20,htaglen⟩ : Block 16) []
    rw [List.append_nil] at hpad
    exact congrArg List.Vector.toList hpad
  have hall : bytes = slice bytes 0 4++(slice bytes 4 20++bytes.drop 20) := by
    rw [← drop_eq_slice (by decide : 4 ≤ 20),← drop_eq_slice (by decide : 0 ≤ 4),List.drop_zero]
  rw [envelope,htagbytes,← hmagic]
  exact hall

theorem envelope_drop (hmagic : magic.length = 4) :
    (envelope magic tag body).drop sessionHeader = body := by
  have hpre : envelope magic tag body = (magic++tag.toList)++body := by simp [envelope]
  rw [hpre]
  exact List.drop_left' (by simp [hmagic,sessionHeader])

theorem packetKind_envelope (hkind : kind ≠ .credit) :
    packetKind (envelope kind.magic tag body) = .ok kind := by
  have hrange : getRange (envelope kind.magic tag body) 0 4 = some kind.magic := by
    cases kind <;> simp [getRange,envelope,Kind.magic,firstMagic,frameMagic,creditMagic,slice]
  unfold packetKind
  rw [hrange]
  cases kind with
  | firstMove => rfl
  | frame => rfl
  | credit => exact absurd rfl hkind

theorem decode_envelope (hkind : kind ≠ .credit) (htag : tag ≠ .replicate 16 0)
    (hlen : body.length ≤ maxMessage-sessionHeader) (hbody : validateBody kind body = .ok ()) :
    Packet.decode (envelope kind.magic tag body) =
      .ok ⟨kind,tag,envelope kind.magic tag body⟩ := by
  have hmagic : kind.magic.length = 4 := by cases kind <;> rfl
  have hblock : blockAt 16 (envelope kind.magic tag body) 4 = tag := by
    rw [blockAt,slice_field kind.magic (rfl : envelope kind.magic tag body = _) hmagic (by simp)]
    simpa using pad_self tag []
  have hsize : (envelope kind.magic tag body).length = sessionHeader+body.length := by
    simp [envelope,hmagic,sessionHeader]
    omega
  have hmax : sessionHeader ≤ maxMessage := by decide
  simp only [Packet.decode,validateTag,sequence_eq_ok,require_eq_ok,done_eq_ok]
  refine ⟨(),⟨by omega,by omega⟩,kind,packetKind_envelope hkind,(),?_,(),?_,?_⟩
  · rw [hblock]
    exact htag
  · rw [envelope_drop hmagic]
    exact hbody
  · rw [hblock]

end Envelopes

/-! ## Agreement -/

/-- The validator, the decoders and the size bounds agree. -/
structure Agree (P : Suite) : Prop where
  frame : ∀ bytes p, Packet.decode bytes = .ok p → p.kind = .frame →
    ∃ f, p.frame = .ok f ∧ encodeFrame p.tag f = .ok bytes
  firstMove : ∀ bytes p, Packet.decode bytes = .ok p → p.kind = .firstMove →
    ∃ first, p.firstMove = .ok first ∧ encodeFirstMove p.tag first = .ok bytes
  framed : ∀ tag f bytes, f.ctr < 2^64 → encodeFrame tag f = .ok bytes →
    ∃ p, Packet.decode bytes = .ok p ∧ p.kind = .frame ∧ p.tag = tag ∧ p.frame = .ok f
  begun : ∀ tag first bytes, encodeFirstMove tag first = .ok bytes →
    ∃ p, Packet.decode bytes = .ok p ∧ p.kind = .firstMove ∧ p.tag = tag ∧ p.firstMove = .ok first
  record : ∀ purpose notAfter body secret r, Record.new purpose notAfter body secret = .ok r →
    Record.decode r.encode = .ok r ∧
    ∀ (tag : Block 16) (header : Frame) (key : Block 32 × Block 12), tag ≠ .replicate 16 0 →
      header.ctr < 2^64 → header.pn < header.ctr →
      (∀ c, header.pqCt = some c → c.length = kemCtLen) →
      ∃ bytes p, encodeFrameBytes tag (Frame.encode {header with
          ct := sealMessage P key r.encode header.headerBytes}) = .ok bytes ∧
        Packet.decode bytes = .ok p ∧ p.kind = .frame

theorem packet_codecs_agree (P : Suite) : Agree P where
  frame := by
    intro bytes p hp hkind
    obtain ⟨hbytes,htag,hlen,hbody,henvelope⟩ := decode_ok hp
    rw [hkind] at hbody henvelope
    obtain ⟨f,hf,hencode⟩ := validateFrameBytes_ok hbody
    have hsize : f.encode.length ≤ maxMessage-sessionHeader := by
      rw [hencode,List.length_drop]
      omega
    refine ⟨f,?_,?_⟩
    · simp only [Packet.frame,sequence_eq_ok,require_eq_ok,found_eq_ok]
      rw [hbytes,← hencode]
      exact ⟨(),hkind,Frame.decode_encode hf.fits⟩
    · simp only [encodeFrame,validateTag,sequence_eq_ok,require_eq_ok,done_eq_ok]
      refine ⟨(),htag,(),(validateFrame_ok hf.ctr_lt).mpr ⟨hf,hsize⟩,?_⟩
      rw [hencode]
      exact henvelope.symm
  firstMove := by
    intro bytes p hp hkind
    obtain ⟨hbytes,htag,hlen,hbody,henvelope⟩ := decode_ok hp
    rw [hkind] at hbody henvelope
    obtain ⟨first,hfirst,hencode⟩ := validateBody_first hbody
    have hsize : first.encode.length ≤ maxMessage-sessionHeader := by
      rw [hencode,List.length_drop]
      omega
    have hvalid := validateFirst_ok.mpr ⟨hfirst,hsize⟩
    refine ⟨first,?_,?_⟩
    · simp only [Packet.firstMove,sequence_eq_ok,require_eq_ok,found_eq_ok,done_eq_ok]
      rw [hbytes,← hencode]
      exact ⟨(),hkind,first,firstMove_decode_encode hfirst,(),hvalid,rfl⟩
    · simp only [encodeFirstMove,validateTag,sequence_eq_ok,require_eq_ok,done_eq_ok]
      refine ⟨(),htag,(),hvalid,?_⟩
      rw [hencode]
      exact henvelope.symm
  framed := by
    intro tag f bytes hctr h
    simp only [encodeFrame,validateTag,sequence_eq_ok,require_eq_ok,done_eq_ok] at h
    obtain ⟨_,htag,_,hvalid,rfl⟩ := h
    obtain ⟨hf,hsize⟩ := (validateFrame_ok hctr).mp hvalid
    refine ⟨_,@decode_envelope f.encode tag .frame (by decide) htag hsize
      (validateFrameBytes_encode hf),rfl,rfl,?_⟩
    simp only [Packet.frame,sequence_eq_ok,require_eq_ok,found_eq_ok]
    refine ⟨(),trivial,?_⟩
    rw [envelope_drop rfl]
    exact Frame.decode_encode hf.fits
  begun := by
    intro tag first bytes h
    simp only [encodeFirstMove,validateTag,sequence_eq_ok,require_eq_ok,done_eq_ok] at h
    obtain ⟨_,htag,_,hvalid,rfl⟩ := h
    obtain ⟨hfirst,hsize⟩ := validateFirst_ok.mp hvalid
    refine ⟨_,@decode_envelope first.encode tag .firstMove (by decide) htag hsize
      (validateBody_encode hfirst),rfl,rfl,?_⟩
    simp only [Packet.firstMove,sequence_eq_ok,require_eq_ok,found_eq_ok,done_eq_ok]
    refine ⟨(),trivial,first,?_,(),hvalid,rfl⟩
    rw [envelope_drop rfl]
    exact firstMove_decode_encode hfirst
  record := by
    intro purpose notAfter body secret r _
    refine ⟨r.decode_encode,fun tag header key htag hctr hpn hpq => ?_⟩
    have hct : (sealMessage P key r.encode header.headerBytes).length = r.encode.length+16 :=
      P.aes128.encrypt_length _ _ _ _
    have hf : Shaped {header with ct := sealMessage P key r.encode header.headerBytes} :=
      ⟨hctr,hpn,hpq,by
        change 16 ≤ (sealMessage P key r.encode header.headerBytes).length
        omega⟩
    have hsize : (Frame.encode {header with
        ct := sealMessage P key r.encode header.headerBytes}).length ≤ maxMessage-sessionHeader := by
      have hhead := headerLength_eq hf
      have hbound := headerLength_le {header with
        ct := sealMessage P key r.encode header.headerBytes}
      have hrecord := r.encode_length
      have hbody := r.body_le
      have hmax : maxRecordBody+recordHeader+maxFrameOverhead = maxMessage-sessionHeader := by decide
      rw [Frame.encode,List.length_append,hhead,hct]
      omega
    refine ⟨_,_,?_,@decode_envelope _ tag .frame (by decide) htag hsize
      (validateFrameBytes_encode hf),rfl⟩
    simp only [encodeFrameBytes,validateTag,sequence_eq_ok,require_eq_ok,done_eq_ok]
    exact ⟨(),htag,(),hsize,(),validateFrameBytes_encode hf,rfl⟩

end Gcoms.SessionPackets
