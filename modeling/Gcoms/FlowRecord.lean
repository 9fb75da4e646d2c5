import Gcoms.RatchetFrame

/-!
# GC/2 flow records

The plaintext of every ratcheted GC/2 frame: a purpose, an application deadline,
the random secret from which the credit authority of its packet is derived, and
a bounded body. A record without a deadline is a control record; both constructors
of the source reject anything else, so the type carries these two facts.
-/
namespace Gcoms.FlowRecord
open ByteCodec RatchetFrame

def maxMessage : ℕ := 15*1024
def sessionHeader : ℕ := 4+16
def counterWindow : ℕ := maxSkip-1
def interactiveWindow : ℕ := counterWindow-8
def bulkWindow : ℕ := interactiveWindow-8
def recordHeader : ℕ := 4+1+8+32+2
def maxRecordBody : ℕ := maxMessage-sessionHeader-maxFrameOverhead-recordHeader
def creditBytes : ℕ := 4+16+16+12+16+16

/-- `GCF2` -/
def recordMagic : Bytes := [0x47,0x43,0x46,0x32]

inductive Error where
  | version | length | counter | full | authentication | unknownReceipt | state
  deriving DecidableEq, Repr

inductive Purpose where
  | bulk | interactive | control
  deriving DecidableEq, Repr

def Purpose.limit : Purpose → ℕ
  | .bulk => bulkWindow
  | .interactive => interactiveWindow
  | .control => counterWindow

def Purpose.byte : Purpose → Byte
  | .bulk => 0
  | .interactive => 1
  | .control => 2

def Purpose.decode (b : ℕ) : Except Error Purpose :=
  match b with
  | 0 => .ok .bulk
  | 1 => .ok .interactive
  | 2 => .ok .control
  | _ => .error .version

@[simp] theorem Purpose.decode_byte (p : Purpose) : Purpose.decode p.byte.val = .ok p := by
  cases p <;> rfl

theorem Purpose.limit_le (p : Purpose) : p.limit ≤ counterWindow := by
  cases p <;> decide

structure Record where
  purpose : Purpose
  notAfter : U64
  secret : Block 32
  body : Bytes
  body_le : body.length ≤ maxRecordBody
  timed : notAfter = 0 → purpose = .control
  deriving DecidableEq

/-- `secret` is what the source draws from its random generator. -/
def Record.new (purpose : Purpose) (notAfter : U64) (body : Bytes) (secret : Block 32) :
    Except Error Record :=
  if h : body.length > maxRecordBody ∨ (notAfter = 0 ∧ purpose ≠ .control) then .error .length
  else .ok
    { purpose, notAfter, secret, body
      body_le := by omega
      timed := fun h0 => by
        by_contra hp
        exact h (.inr ⟨h0,hp⟩) }

def Record.expired (r : Record) (nowUnix : U64) : Bool := r.notAfter ≠ 0 ∧ r.notAfter ≤ nowUnix

def Record.encode (r : Record) : Bytes :=
  recordMagic++(r.purpose.byte::(bigEndian 8 r.notAfter.val++(r.secret.toList++
    (bigEndian 2 r.body.length++r.body))))

def Record.decode (bytes : Bytes) : Except Error Record :=
  if bytes.take 4 ≠ recordMagic then .error .version
  else if hl : recordHeader ≤ bytes.length ∧ bytes.length ≤ recordHeader+maxRecordBody then
    match Purpose.decode (bytes.getD 4 0).val with
    | .error e => .error e
    | .ok purpose =>
      let notAfter : U64 := Fin.ofNat (2^64) (readBigEndian (slice bytes 5 13))
      let length := readBigEndian (slice bytes 45 47)
      if ht : bytes.length ≠ recordHeader+length ∨ (notAfter = 0 ∧ purpose ≠ .control) then
        .error .length
      else .ok
        { purpose, notAfter
          secret := ⟨slice bytes 13 45,slice_length (by unfold recordHeader at hl; omega)⟩
          body := bytes.drop recordHeader
          body_le := by
            rw [List.length_drop]
            omega
          timed := fun h0 => by
            by_contra hp
            exact ht (.inr ⟨h0,hp⟩) }
  else .error .length

theorem Record.encode_length (r : Record) : r.encode.length = recordHeader+r.body.length := by
  simp only [Record.encode,recordMagic,recordHeader,List.length_append,List.length_cons,
    List.length_nil,bigEndian_length,List.Vector.toList_length]
  omega

theorem Record.decode_encode (r : Record) : Record.decode r.encode = .ok r := by
  have hlen := r.encode_length
  have hbody := r.body_le
  have hmax : maxRecordBody < 2^16 := by decide
  have h₀ : r.encode.take 4 = recordMagic := rfl
  have h₁ : (r.encode.getD 4 0) = r.purpose.byte := rfl
  have h₂ : slice r.encode 5 13 = bigEndian 8 r.notAfter.val :=
    slice_field (recordMagic++[r.purpose.byte]) (by simp [Record.encode]; rfl) rfl (by simp)
  have h₃ : slice r.encode 13 45 = r.secret.toList :=
    slice_field (recordMagic++(r.purpose.byte::bigEndian 8 r.notAfter.val))
      (by simp [Record.encode]; rfl) (by simp [recordMagic]) (by simp)
  have h₄ : slice r.encode 45 47 = bigEndian 2 r.body.length :=
    slice_field (recordMagic++(r.purpose.byte::(bigEndian 8 r.notAfter.val++r.secret.toList)))
      (by simp [Record.encode]; rfl) (by simp [recordMagic]) (by simp)
  have h₅ : r.encode.drop recordHeader = r.body := by
    have hp : r.encode = (recordMagic++(r.purpose.byte::(bigEndian 8 r.notAfter.val++
        (r.secret.toList++bigEndian 2 r.body.length))))++r.body := by simp [Record.encode]
    rw [hp]
    exact List.drop_left' (by simp [recordMagic,recordHeader])
  have hn : (Fin.ofNat (2^64) (readBigEndian (slice r.encode 5 13)) : U64) = r.notAfter := by
    rw [h₂,readBigEndian_bigEndian 8 _ r.notAfter.isLt]
    exact Fin.ext (by simp)
  have hb : readBigEndian (slice r.encode 45 47) = r.body.length := by
    rw [h₄,readBigEndian_bigEndian 2 _ (by omega)]
  have hok : ¬ (r.encode.length ≠ recordHeader+r.body.length ∨
      (r.notAfter = 0 ∧ r.purpose ≠ .control)) := by
    rintro (h | ⟨h,hp⟩)
    · exact h hlen
    · exact hp (r.timed h)
  have hrange : recordHeader ≤ r.encode.length ∧ r.encode.length ≤ recordHeader+maxRecordBody := by
    omega
  have hsecret : ∀ h, (⟨slice r.encode 13 45,h⟩ : Block 32) = r.secret := fun _ =>
    List.Vector.eq _ _ h₃
  unfold Record.decode
  rw [if_neg (by rw [h₀]; simp),dif_pos hrange,h₁,Purpose.decode_byte]
  simp only [hn,hb,hok,h₅,hsecret,dite_false]

end Gcoms.FlowRecord
