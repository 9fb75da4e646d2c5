import Gcoms.FlowCoverage
import Gcoms.Primitives
import Gcoms.SortedMaps

/-!
# Credit windows

A window accounts for both directions of one session. `tx` retains every sent
packet above the credited floor together with the authority that its receipt
must carry; `rx` retains the authority of every received packet that the peer
may still retry. A credit is an 80-byte receipt: the receive coverage sealed
under the authority of the highest received counter.

Counters are natural numbers, bounded by the checks of the source.
-/
namespace Gcoms.FlowWindow
open ByteCodec SortedMaps Primitives FlowRecord FlowCoverage

/-- `SKIP_KEY_TTL.as_secs()` -/
def skipKeyTtlSecs : ℕ := 24*3600

def creditMagic : Bytes := ascii "GCA2"
def creditReferenceInfo : Bytes := ascii "GC2/credit-reference\x00"
def creditEncryptionInfo : Bytes := ascii "GC2/credit-encryption\x00"

structure Authority where
  secret : Block 32
  packetHash : Block 32
  reference : Block 16
  deriving DecidableEq

structure Sent where
  authority : Authority
  packet : Bytes
  purpose : Purpose
  sentUnix : ℕ
  volatile : Bool
  deriving DecidableEq

structure Received where
  authority : Authority
  cachedCredit : Option Bytes
  deriving DecidableEq

structure Window where
  generation : ℕ
  session : Block 16
  sent : ℕ
  credited : Coverage
  received : Coverage
  tx : SortedMap ℕ Sent
  rx : SortedMap ℕ Received
  deriving DecidableEq

def zeroSession : Block 16 := ⟨List.replicate 16 0,by simp⟩

section Crypto
variable (P : Suite)

def Authority.new (session : Block 16) (packetHash secret : Block 32) : Authority where
  secret := secret
  packetHash := packetHash
  reference := P.hkdf packetHash.toList secret.toList (creditReferenceInfo++session.toList) 16

def Authority.key (a : Authority) (session : Block 16) : Block 32 :=
  P.hkdf a.packetHash.toList a.secret.toList (creditEncryptionInfo++session.toList) 32

def creditHeader (session reference : Block 16) : Bytes :=
  creditMagic++(session.toList++reference.toList)

/-- Four zero bytes and the big-endian coverage count. -/
def creditNonce (count : ℕ) : Block 12 := ⟨[0,0,0,0]++bigEndian 8 count,by simp⟩

def Coverage.encode (c : Coverage) : Bytes := bigEndian 8 c.floor++bigEndian 8 c.mask

/-- The 80 bytes that `credit_for_duplicate` seals for a coverage. -/
def sealCredit (session : Block 16) (a : Authority) (c : Coverage) : Bytes :=
  creditHeader session a.reference++((creditNonce c.size).toList++
    P.aes256.encrypt (a.key P session) (creditNonce c.size) (creditHeader session a.reference)
      (Coverage.encode c))

def readNonce (bytes : Bytes) : Block 12 := pad 12 (slice bytes 36 48)

def decodeCredit (session : Block 16) (a : Authority) (bytes : Bytes) : Except Error Coverage :=
  if bytes.length ≠ creditBytes ∨ slice bytes 0 4 ≠ creditMagic ∨
      slice bytes 4 20 ≠ session.toList ∨ slice bytes 20 36 ≠ a.reference.toList ∨
      slice bytes 36 40 ≠ [0,0,0,0] then .error .authentication
  else
    match P.aes256.decrypt (a.key P session) (readNonce bytes) (slice bytes 0 36)
        (bytes.drop 48) with
    | none => .error .authentication
    | some plaintext =>
      let coverage : Coverage :=
        ⟨readBigEndian (slice plaintext 0 8),readBigEndian (slice plaintext 8 16)⟩
      if coverage.valid = false then .error .counter
      else
        match coverage.count with
        | .error e => .error e
        | .ok count =>
          if bigEndian 8 count ≠ slice bytes 40 48 then .error .counter else .ok coverage

end Crypto

namespace Window

def newGeneration (session : Block 16) (generation : ℕ) : Except Error Window :=
  if session = zeroSession ∨ generation = 0 then .error .state
  else .ok
    { generation, session, sent := 0, credited := .empty, received := .empty
      tx := .empty, rx := .empty }

def new (session : Block 16) : Except Error Window := newGeneration session 1

def isCredited (w : Window) (counter : ℕ) : Bool :=
  counter ≠ 0 && (counter ≤ w.sent && w.credited.contains counter)

def isCreditGap (w : Window) (counter : ℕ) : Bool :=
  counter ≠ 0 && (counter ≤ w.sent && (w.tx.contains counter &&
    (!w.credited.contains counter &&
      match w.credited.highest with
      | .ok highest => decide (highest > counter)
      | .error _ => false)))

def oldestUncreditedUnix (w : Window) : Option ℕ :=
  (w.tx.entries.map (fun e => e.2.sentUnix)).min?

def repairExpired (w : Window) (nowUnix : ℕ) : Bool :=
  match w.oldestUncreditedUnix with
  | none => false
  | some oldest => skipKeyTtlSecs ≤ nowUnix-oldest

def recoveryRequired (w : Window) (nowUnix : ℕ) : Bool :=
  w.repairExpired nowUnix || w.tx.entries.any (fun e =>
    e.2.volatile && (e.2.packet.isEmpty && !w.credited.contains e.1))

def hasVolatileCounters (w : Window) : Bool := w.tx.entries.any (fun e => e.2.volatile)

def nextCounter (w : Window) (purpose : Purpose) : Except Error ℕ :=
  if w.sent+1 < 2^64 then
    if w.sent+1-w.credited.floor > purpose.limit then .error .full else .ok (w.sent+1)
  else .error .counter

def retries (w : Window) : List (ℕ × Purpose × Bytes) :=
  (w.tx.entries.filter (fun e => !w.credited.contains e.1 && !e.2.packet.isEmpty)).map
    (fun e => (e.1,e.2.purpose,e.2.packet))

section Crypto
variable (P : Suite)

def recordSent (w : Window) (counter : ℕ) (packet : Bytes) (record : Record) (sentUnix : ℕ) :
    Except Error Window :=
  if packet = [] ∨ packet.length > maxMessage then .error .length
  else if sentUnix = 0 then .error .counter
  else
    match w.nextCounter record.purpose with
    | .error e => .error e
    | .ok next =>
      if next ≠ counter then .error .counter
      else
        let authority := Authority.new P w.session (P.sha256 packet) record.secret
        if w.tx.entries.any (fun e => e.2.authority.reference = authority.reference) then
          .error .state
        else .ok
          { w with
            tx := w.tx.insert counter ⟨authority,packet,record.purpose,sentUnix,false⟩
            sent := counter }

def recordAuthenticated (w : Window) (counter : ℕ) (packet : Bytes) (record : Record) :
    Except Error Window :=
  if packet = [] ∨ packet.length > maxMessage then .error .length
  else
    match w.received.accept counter with
    | .error e => .error e
    | .ok coverage =>
      let authority := Authority.new P w.session (P.sha256 packet) record.secret
      match coverage.highest with
      | .error e => .error e
      | .ok highest => .ok
        { w with
          received := coverage
          rx := (w.rx.insert counter ⟨authority,none⟩).retain
            (fun c _ => highest-(counterWindow-1) ≤ c) }

/-- The receipt for an exact packet, under the highest received counter's
authority, and the window that caches it. -/
def creditForDuplicate (w : Window) (counter : ℕ) (packet : Bytes) :
    Except Error (Bytes × Window) :=
  if packet.length > maxMessage then .error .length
  else
    match w.rx.find? counter with
    | none => .error .unknownReceipt
    | some entry =>
      if entry.authority.packetHash ≠ P.sha256 packet then .error .authentication
      else
        match w.rx.last? with
        | none => .error .state
        | some (last,top) =>
          match w.received.count with
          | .error e => .error e
          | .ok count =>
            match top.cachedCredit.filter
                (fun bytes => slice bytes 36 48 = (creditNonce count).toList) with
            | some cached => .ok (cached,w)
            | none =>
              let bytes := sealCredit P w.session top.authority w.received
              .ok (bytes,{ w with rx := w.rx.insert last ⟨top.authority,some bytes⟩ })

def acceptCredit (w : Window) (bytes : Bytes) : Except Error (Bool × Window) :=
  if bytes.length ≠ creditBytes then .error .length
  else if slice bytes 0 4 ≠ creditMagic then .error .version
  else if slice bytes 4 20 ≠ w.session.toList then .error .authentication
  else
    match w.tx.entries.find? (fun e => e.2.authority.reference.toList = slice bytes 20 36) with
    | none => .error .unknownReceipt
    | some entry =>
      match decodeCredit P w.session entry.2.authority bytes with
      | .error e => .error e
      | .ok coverage =>
        match coverage.highest with
        | .error e => .error e
        | .ok highest =>
          if highest > w.sent then .error .counter
          else if coverage.floor < w.credited.floor then .ok (false,w)
          else
            match w.credited.merge coverage with
            | .error e => .error e
            | .ok credited => .ok (credited ≠ w.credited,
              { w with
                credited := credited
                tx := w.tx.retain (fun c _ => c > credited.floor) })

end Crypto

end Window

/-! ## The receipt codec -/

section Receipts
variable (P : Suite)

theorem creditHeader_length (session reference : Block 16) :
    (creditHeader session reference).length = 36 := by
  simp only [creditHeader,List.length_append,List.Vector.toList_length]
  rfl

theorem creditNonce_length (n : ℕ) : (creditNonce n).toList.length = 12 :=
  List.Vector.toList_length _

theorem sealCredit_length (session : Block 16) (a : Authority) (c : Coverage) :
    (sealCredit P session a c).length = creditBytes := by
  simp only [sealCredit,List.length_append,creditHeader_length,creditNonce_length,
    P.aes256.encrypt_length,Coverage.encode,bigEndian_length]
  rfl

theorem sealCredit_magic (session : Block 16) (a : Authority) (c : Coverage) :
    slice (sealCredit P session a c) 0 4 = creditMagic :=
  slice_field [] (by simp only [sealCredit,creditHeader,List.append_assoc]; rfl) rfl rfl

theorem sealCredit_session (session : Block 16) (a : Authority) (c : Coverage) :
    slice (sealCredit P session a c) 4 20 = session.toList :=
  slice_field creditMagic
    (by simp only [sealCredit,creditHeader,List.append_assoc]; rfl) rfl (by simp)

theorem sealCredit_reference (session : Block 16) (a : Authority) (c : Coverage) :
    slice (sealCredit P session a c) 20 36 = a.reference.toList :=
  slice_field (creditMagic++session.toList)
    (by simp only [sealCredit,creditHeader,List.append_assoc]; rfl)
    (by rw [List.length_append,List.Vector.toList_length]; rfl) (by simp)

theorem sealCredit_nonce (session : Block 16) (a : Authority) (c : Coverage) :
    slice (sealCredit P session a c) 36 48 = (creditNonce c.size).toList :=
  slice_field (creditHeader session a.reference) rfl (creditHeader_length _ _)
    (by rw [creditNonce_length])

private theorem sealCredit_split (session : Block 16) (a : Authority) (c : Coverage) :
    sealCredit P session a c = creditHeader session a.reference++([0,0,0,0]++(bigEndian 8 c.size++
      P.aes256.encrypt (a.key P session) (creditNonce c.size) (creditHeader session a.reference)
        (Coverage.encode c))) := rfl

/-- A sealed receipt opens under the same authority to the coverage it was sealed for. -/
theorem decodeCredit_sealCredit (session : Block 16) (a : Authority) {c : Coverage}
    (hc : c.Valid) : decodeCredit P session a (sealCredit P session a c) = .ok c := by
  have hsize : c.size < 256^8 := c.size_le_top.trans_lt (hc.top_lt.trans_le (by norm_num))
  have hfloor : c.floor < 256^8 := c.floor_le_top.trans_lt (hc.top_lt.trans_le (by norm_num))
  have hmask : c.mask < 256^8 := hc.mask_lt.trans (by norm_num)
  have hzero : slice (sealCredit P session a c) 36 40 = [0,0,0,0] :=
    slice_field _ (sealCredit_split P session a c) (creditHeader_length _ _) rfl
  have hcount : slice (sealCredit P session a c) 40 48 = bigEndian 8 c.size :=
    slice_field (creditHeader session a.reference++[0,0,0,0])
      (by rw [sealCredit_split,List.append_assoc]) (by simp [creditHeader_length]) (by simp)
  have haad : slice (sealCredit P session a c) 0 36 = creditHeader session a.reference :=
    slice_field [] rfl rfl (by rw [creditHeader_length])
  have hdrop : (sealCredit P session a c).drop 48 =
      P.aes256.encrypt (a.key P session) (creditNonce c.size) (creditHeader session a.reference)
        (Coverage.encode c) := by
    rw [sealCredit,← List.append_assoc]
    exact List.drop_left' (by simp [creditHeader_length])
  have hnonce : readNonce (sealCredit P session a c) = creditNonce c.size := by
    rw [readNonce,sealCredit_nonce]
    simpa using pad_self (creditNonce c.size) []
  have h₁ : readBigEndian (slice (Coverage.encode c) 0 8) = c.floor := by
    have hs : slice (Coverage.encode c) 0 8 = bigEndian 8 c.floor :=
      slice_field [] rfl rfl (by simp)
    rw [hs,readBigEndian_bigEndian 8 _ hfloor]
  have h₂ : readBigEndian (slice (Coverage.encode c) 8 16) = c.mask := by
    have hs : slice (Coverage.encode c) 8 16 = bigEndian 8 c.mask :=
      @slice_field (bigEndian 8 c.floor) _ _ [] _ _ (by simp [Coverage.encode]) (by simp)
        (by simp)
    rw [hs,readBigEndian_bigEndian 8 _ hmask]
  have hv : c.valid = true := c.valid_iff.mpr hc
  unfold decodeCredit
  rw [if_neg (by simp [sealCredit_length,sealCredit_magic,sealCredit_session,
    sealCredit_reference,hzero]),hnonce,haad,hdrop,P.aes256.decrypt_encrypt]
  simp only [h₁,h₂,hv,hc.count,hcount,ne_eq,not_true_eq_false,if_false,Bool.true_eq_false]

theorem creditNonce_injective {m n : ℕ} (hm : m < 2^64) (hn : n < 2^64)
    (h : (creditNonce m).toList = (creditNonce n).toList) : m = n := by
  have hb : bigEndian 8 m = bigEndian 8 n := (List.append_right_inj ([0,0,0,0] : Bytes)).mp h
  exact bigEndian_injective (hm.trans_le (by norm_num)) (hn.trans_le (by norm_num)) hb

end Receipts

/-! ## The window invariant -/

section Invariant
variable (P : Suite)

def Authority.Derived (session : Block 16) (a : Authority) : Prop :=
  a = Authority.new P session a.packetHash a.secret

structure Sent.Valid (session : Block 16) (e : Sent) : Prop where
  derived : e.authority.Derived P session
  sentUnix_pos : 0 < e.sentUnix
  sentUnix_lt : e.sentUnix < 2^64
  packet_le : e.packet.length ≤ maxMessage
  kept : e.volatile = false → e.packet ≠ []
  hashed : e.packet ≠ [] → e.authority.packetHash = P.sha256 e.packet
  purpose : e.volatile = true → e.purpose ≠ .control

/-- A cached receipt seals an earlier coverage with a smaller count, or the
present one. -/
structure Received.Valid (session : Block 16) (received : Coverage) (counter : ℕ)
    (e : Received) : Prop where
  derived : e.authority.Derived P session
  cached : ∀ bytes, e.cachedCredit = some bytes → ∃ c : Coverage, c.Valid ∧
    bytes = sealCredit P session e.authority c ∧ counter ∈ c.covered ∧
    c.covered ⊆ received.covered ∧ (c.size < received.size ∨ c = received)

namespace Window

structure Valid (w : Window) : Prop where
  generation_pos : 0 < w.generation
  generation_lt : w.generation < 2^64
  session_ne : w.session ≠ zeroSession
  credited : w.credited.Valid
  received : w.received.Valid
  sent_lt : w.sent < 2^64
  credited_le : w.credited.top ≤ w.sent
  window : w.sent ≤ w.credited.floor+63
  tx_dom : ∀ c, (∃ e, w.tx.find? c = some e) ↔ w.credited.floor < c ∧ c ≤ w.sent
  tx_ok : ∀ c e, w.tx.find? c = some e → e.Valid P w.session
  tx_ref : ∀ c d e f, w.tx.find? c = some e → w.tx.find? d = some f →
    e.authority.reference = f.authority.reference → c = d
  rx_dom : ∀ c, (∃ e, w.rx.find? c = some e) ↔
    0 < c ∧ w.received.top-62 ≤ c ∧ c ∈ w.received.covered
  rx_ok : ∀ c e, w.rx.find? c = some e → e.Valid P w.session w.received c

theorem newGeneration_ok {session : Block 16} {generation : ℕ} {w : Window}
    (h : newGeneration session generation = .ok w) :
    session ≠ zeroSession ∧ generation ≠ 0 ∧
    w = { generation, session, sent := 0, credited := .empty, received := .empty
          tx := .empty, rx := .empty } := by
  unfold newGeneration at h
  split_ifs at h with hz
  cases h
  simp only [not_or] at hz
  exact ⟨hz.1,hz.2,rfl⟩

theorem newGeneration_valid {session : Block 16} {generation : ℕ} {w : Window}
    (hg : generation < 2^64) (h : newGeneration session generation = .ok w) : w.Valid P := by
  obtain ⟨hsession,hpos,rfl⟩ := newGeneration_ok h
  refine ⟨Nat.pos_of_ne_zero hpos,hg,hsession,Coverage.valid_empty,Coverage.valid_empty,by norm_num,
    le_refl 0,by simp,?_,by simp,by simp,?_,by simp⟩
  · intro c
    simp only [SortedMap.find?_empty,reduceCtorEq,exists_false,false_iff,Coverage.empty]
    omega
  · intro c
    simp only [SortedMap.find?_empty,reduceCtorEq,exists_false,false_iff,Coverage.covered_empty,
      Set.mem_singleton_iff]
    omega

/-! ### Sending -/

theorem nextCounter_ok {w : Window} {purpose : Purpose} {n : ℕ}
    (h : w.nextCounter purpose = .ok n) :
    n = w.sent+1 ∧ n < 2^64 ∧ n ≤ w.credited.floor+purpose.limit := by
  unfold nextCounter at h
  split_ifs at h with h₁ h₂
  cases h
  exact ⟨rfl,h₁,by omega⟩

theorem recordSent_ok {w v : Window} {counter sentUnix : ℕ} {packet : Bytes} {record : Record}
    (h : w.recordSent P counter packet record sentUnix = .ok v) :
    (packet ≠ [] ∧ packet.length ≤ maxMessage) ∧ sentUnix ≠ 0 ∧
    w.nextCounter record.purpose = .ok counter ∧
    (∀ c e, w.tx.find? c = some e → e.authority.reference ≠
      (Authority.new P w.session (P.sha256 packet) record.secret).reference) ∧
    v = { w with
      tx := w.tx.insert counter ⟨Authority.new P w.session (P.sha256 packet) record.secret,
        packet,record.purpose,sentUnix,false⟩
      sent := counter } := by
  unfold recordSent at h
  split_ifs at h with h₁ h₂
  cases hn : w.nextCounter record.purpose with
  | error e => simp [hn] at h
  | ok next =>
      simp only [hn] at h
      split_ifs at h with h₃ h₄
      cases h
      rw [not_not] at h₃
      subst h₃
      refine ⟨by simpa only [not_or,not_lt] using h₁,h₂,rfl,?_,rfl⟩
      intro c e he heq
      apply h₄
      rw [List.any_eq_true]
      exact ⟨(c,e),SortedMap.mem_iff_find?.mpr he,by simpa using heq⟩

theorem recordSent_valid {w v : Window} (hw : w.Valid P) {counter sentUnix : ℕ} {packet : Bytes}
    {record : Record} (ht : sentUnix < 2^64)
    (h : w.recordSent P counter packet record sentUnix = .ok v) : v.Valid P := by
  obtain ⟨⟨hne,hle⟩,hunix,hnext,hfresh,rfl⟩ := recordSent_ok P h
  obtain ⟨rfl,hlt,hlim⟩ := nextCounter_ok hnext
  have hlimit := record.purpose.limit_le
  have hcw : counterWindow = 63 := rfl
  have hcl := hw.credited_le
  have hfl := w.credited.floor_le_top
  have hcl' : w.credited.top ≤ w.sent+1 := by omega
  have hwin' : w.sent+1 ≤ w.credited.floor+63 := by omega
  refine { hw with
    sent_lt := hlt, credited_le := hcl', window := hwin', tx_dom := ?_, tx_ok := ?_, tx_ref := ?_ }
  · intro c
    simp only [SortedMap.find?_insert]
    by_cases hc : c = w.sent+1
    · simp only [hc,if_true,Option.some.injEq,exists_eq',true_iff]
      omega
    · simp only [hc,if_false,hw.tx_dom]
      omega
  · intro c e he
    simp only [SortedMap.find?_insert] at he
    split_ifs at he with hc
    · cases he
      exact ⟨rfl,by simp only; omega,ht,hle,fun _ => hne,fun _ => rfl,by simp⟩
    · exact hw.tx_ok c e he
  · intro c d e f he hf href
    simp only [SortedMap.find?_insert] at he hf
    split_ifs at he hf with hc hd hd
    · rw [hc,hd]
    · cases he
      exact absurd href.symm (hfresh d f hf)
    · cases hf
      exact absurd href (hfresh c e he)
    · exact hw.tx_ref c d e f he hf href

/-! ### Receiving -/

theorem recordAuthenticated_ok {w v : Window} (hw : w.Valid P) {counter : ℕ}
    (hn : counter < 2^64) {packet : Bytes} {record : Record}
    (h : w.recordAuthenticated P counter packet record = .ok v) :
    counter ∉ w.received.covered ∧ w.received.floor < counter ∧
    (packet ≠ [] ∧ packet.length ≤ maxMessage) ∧
    ∃ coverage : Coverage, coverage.Valid ∧ coverage.covered = insert counter w.received.covered ∧
      coverage.size = w.received.size+1 ∧ coverage.top = max counter w.received.top ∧
      v = { w with
        received := coverage
        rx := (w.rx.insert counter
          ⟨Authority.new P w.session (P.sha256 packet) record.secret,none⟩).retain
            (fun c _ => coverage.top-(counterWindow-1) ≤ c) } := by
  unfold recordAuthenticated at h
  split_ifs at h with h₁
  cases ha : w.received.accept counter with
  | error e => simp [ha] at h
  | ok coverage =>
      obtain ⟨hnew,hlo,hv,hset,hsize,htop⟩ := Coverage.accept_valid hw.received hn ha
      simp only [ha,hv.highest] at h
      cases h
      exact ⟨hnew,hlo,by simpa only [not_or,not_lt] using h₁,coverage,hv,hset,hsize,htop,rfl⟩

/-- A missing counter within the window is accepted. -/
theorem recordAuthenticated_isOk {w : Window} (hw : w.Valid P) {counter : ℕ}
    (hn : counter < 2^64) {packet : Bytes} (hp : packet ≠ [] ∧ packet.length ≤ maxMessage)
    (record : Record) (hnew : counter ∉ w.received.covered)
    (hhi : counter ≤ w.received.floor+63) :
    ∃ v, w.recordAuthenticated P counter packet record = .ok v := by
  have hlo : w.received.floor < counter := by
    by_contra hle
    exact hnew (Coverage.mem_of_le_floor (by omega))
  obtain ⟨d,hd,hv,_⟩ := Coverage.accept_spec hw.received hn hlo hhi hnew
  unfold recordAuthenticated
  rw [if_neg (by simp only [not_or,not_lt]; exact hp),hd]
  simp only [hv.highest]
  exact ⟨_,rfl⟩

theorem recordAuthenticated_valid {w v : Window} (hw : w.Valid P) {counter : ℕ}
    (hn : counter < 2^64) {packet : Bytes} {record : Record}
    (h : w.recordAuthenticated P counter packet record = .ok v) : v.Valid P := by
  obtain ⟨hnew,hlo,_,d,hd,hset,hsize,htop,rfl⟩ := recordAuthenticated_ok P hw hn h
  have hcw : counterWindow-1 = 62 := rfl
  refine { hw with received := hd, rx_dom := ?_, rx_ok := ?_ }
  · intro c
    have hdom := hw.rx_dom c
    simp only [SortedMap.find?_retain,Option.filter_eq_some_iff,decide_eq_true_eq,hcw,
      SortedMap.find?_insert,hset,Set.mem_insert_iff]
    by_cases hc : c = counter
    · simp only [hc,if_true,Option.some.injEq,exists_eq_left',true_or,and_true]
      omega
    · simp only [hc,if_false,false_or]
      constructor
      · rintro ⟨e,he,hle⟩
        have := hdom.mp ⟨e,he⟩
        exact ⟨this.1,hle,this.2.2⟩
      · rintro ⟨hpos,hle,hmem⟩
        obtain ⟨e,he⟩ := hdom.mpr ⟨hpos,by omega,hmem⟩
        exact ⟨e,he,hle⟩
  · intro c e he
    simp only [SortedMap.find?_retain,Option.filter_eq_some_iff,SortedMap.find?_insert] at he
    obtain ⟨he,_⟩ := he
    split_ifs at he with hc
    · cases he
      exact ⟨rfl,by simp⟩
    · refine ⟨(hw.rx_ok c e he).derived,?_⟩
      intro bytes hb
      obtain ⟨p,hp,hbytes,hmem,hsub,hcount⟩ := (hw.rx_ok c e he).cached bytes hb
      refine ⟨p,hp,hbytes,hmem,?_,.inl ?_⟩
      · simp only [hset]
        exact hsub.trans (Set.subset_insert _ _)
      · simp only [hsize]
        rcases hcount with hlt | rfl
        · omega
        · omega

/-- The last receive entry is the highest received counter. -/
theorem Valid.last_rx {w : Window} (hw : w.Valid P) {c : ℕ} {e : Received}
    (he : w.rx.find? c = some e) :
    ∃ t, w.rx.find? w.received.top = some t ∧ w.rx.last? = some (w.received.top,t) := by
  have hc := (hw.rx_dom c).mp ⟨e,he⟩
  have htop := Coverage.le_top hc.2.2
  obtain ⟨t,ht⟩ := (hw.rx_dom w.received.top).mpr
    ⟨by omega,by omega,w.received.isGreatest_top.1⟩
  refine ⟨t,ht,SortedMap.last?_of_greatest ht ?_⟩
  intro a f ha
  exact Coverage.le_top ((hw.rx_dom a).mp ⟨f,ha⟩).2.2

/-- The receipt for the present coverage: it does not depend on the cache. -/
def currentCredit (w : Window) (top : Received) : Bytes :=
  sealCredit P w.session top.authority w.received

/-- Whether or not the cache answers, the receipt is the current one, and
afterwards the cache of the highest counter holds it. -/
theorem creditForDuplicate_ok {w v : Window} (hw : w.Valid P) {counter : ℕ} {packet bytes : Bytes}
    (h : w.creditForDuplicate P counter packet = .ok (bytes,v)) :
    ∃ e t, w.rx.find? counter = some e ∧ e.authority.packetHash = P.sha256 packet ∧
      w.rx.find? w.received.top = some t ∧ bytes = w.currentCredit P t ∧
      v = { w with rx := w.rx.insert w.received.top ⟨t.authority,some bytes⟩ } := by
  unfold creditForDuplicate at h
  split_ifs at h with h₁
  cases he : w.rx.find? counter with
  | none => simp [he] at h
  | some e =>
      simp only [he] at h
      split_ifs at h with h₂
      obtain ⟨t,ht,hlast⟩ := hw.last_rx P he
      simp only [hlast,hw.received.count] at h
      refine ⟨e,t,rfl,by simpa using h₂,ht,?_⟩
      cases hcache : t.cachedCredit.filter
          (fun bytes => slice bytes 36 48 = (creditNonce w.received.size).toList) with
      | none =>
          simp only [hcache,Except.ok.injEq,Prod.mk.injEq] at h
          exact ⟨h.1.symm,by rw [← h.1]; exact h.2.symm⟩
      | some cached =>
          simp only [hcache,Except.ok.injEq,Prod.mk.injEq] at h
          obtain ⟨rfl,rfl⟩ := h
          rw [Option.filter_eq_some_iff] at hcache
          obtain ⟨c,hc,hbytes,_,_,hcount⟩ := (hw.rx_ok _ t ht).cached _ hcache.1
          have hnonce : (creditNonce c.size).toList = (creditNonce w.received.size).toList := by
            rw [← sealCredit_nonce P w.session t.authority c,← hbytes]
            simpa using hcache.2
          have hsize : c.size = w.received.size := creditNonce_injective
            (c.size_le_top.trans_lt hc.top_lt)
            (w.received.size_le_top.trans_lt hw.received.top_lt) hnonce
          have hcr : c = w.received := by
            rcases hcount with hlt | heq
            · omega
            · exact heq
          have hcur : cached = w.currentCredit P t := by rw [hbytes,hcr]; rfl
          refine ⟨hcur,?_⟩
          have hins : w.rx.insert w.received.top ⟨t.authority,some cached⟩ = w.rx := by
            apply SortedMap.ext_find?
            intro k
            rw [SortedMap.find?_insert]
            split_ifs with hk
            · rw [hk,ht,← hcache.1]
            · rfl
          rw [hins]

theorem creditForDuplicate_isOk {w : Window} (hw : w.Valid P) {counter : ℕ} {packet : Bytes}
    (hp : packet.length ≤ maxMessage) {e : Received} (he : w.rx.find? counter = some e)
    (hh : e.authority.packetHash = P.sha256 packet) :
    ∃ r, w.creditForDuplicate P counter packet = .ok r := by
  obtain ⟨t,ht,hlast⟩ := hw.last_rx P he
  unfold creditForDuplicate
  rw [if_neg (by omega),he]
  simp only [hh,ne_eq,not_true_eq_false,if_false,hlast,hw.received.count]
  split
  · exact ⟨_,rfl⟩
  · exact ⟨_,rfl⟩

theorem creditForDuplicate_valid {w v : Window} (hw : w.Valid P) {counter : ℕ}
    {packet bytes : Bytes} (h : w.creditForDuplicate P counter packet = .ok (bytes,v)) :
    v.Valid P := by
  obtain ⟨_,t,_,_,ht,hbytes,rfl⟩ := creditForDuplicate_ok P hw h
  refine { hw with rx_dom := ?_, rx_ok := ?_ }
  · intro c
    simp only [SortedMap.find?_insert]
    by_cases hc : c = w.received.top
    · rw [← hw.rx_dom c,hc]
      simp [ht]
    · simp only [hc,if_false,hw.rx_dom]
  · intro c e he
    simp only [SortedMap.find?_insert] at he
    split_ifs at he with hc
    · cases he
      refine ⟨(hw.rx_ok _ t ht).derived,?_⟩
      intro b hb
      cases hb
      exact ⟨w.received,hw.received,hbytes,hc ▸ w.received.isGreatest_top.1,subset_rfl,.inr rfl⟩
    · exact hw.rx_ok c e he

/-! ### Accepting credit -/

/-- Credit touches the sending half only. -/
theorem acceptCredit_frame {w v : Window} {bytes : Bytes} {changed : Bool}
    (h : w.acceptCredit P bytes = .ok (changed,v)) :
    ∃ credited tx, v = { w with credited := credited, tx := tx } := by
  unfold acceptCredit at h
  split_ifs at h
  split at h
  · simp at h
  · split at h
    · simp at h
    · split at h
      · simp at h
      · split_ifs at h
        · cases h
          exact ⟨_,_,rfl⟩
        · split at h
          · simp at h
          · cases h
            exact ⟨_,_,rfl⟩

/-- An accepted receipt opens under a retained authority, stays within what was
sent, and is either stale or merged. -/
theorem acceptCredit_ok {w v : Window} (hw : w.Valid P) {bytes : Bytes} {changed : Bool}
    (h : w.acceptCredit P bytes = .ok (changed,v)) :
    ∃ c e coverage, w.tx.find? c = some e ∧ e.authority.reference.toList = slice bytes 20 36 ∧
      decodeCredit P w.session e.authority bytes = .ok coverage ∧
      ((changed = false ∧ v = w) ∨
        ∃ credited : Coverage, credited.Valid ∧
          credited.covered = w.credited.covered ∪ coverage.covered ∧ credited.top ≤ w.sent ∧
          changed = decide (credited ≠ w.credited) ∧
          v = { w with
            credited := credited
            tx := w.tx.retain (fun c _ => c > credited.floor) }) := by
  unfold acceptCredit at h
  split_ifs at h with h₁ h₂ h₃
  cases hf : w.tx.entries.find?
      (fun e => e.2.authority.reference.toList = slice bytes 20 36) with
  | none => simp [hf] at h
  | some entry =>
      obtain ⟨c,e⟩ := entry
      have he := SortedMap.mem_iff_find?.mp (List.mem_of_find?_eq_some hf)
      have href : e.authority.reference.toList = slice bytes 20 36 := by
        simpa using List.find?_some hf
      simp only [hf] at h
      cases hd : decodeCredit P w.session e.authority bytes with
      | error err => simp [hd] at h
      | ok coverage =>
          have hcov : coverage.Valid := by
            unfold decodeCredit at hd
            split_ifs at hd
            split at hd
            · simp at hd
            · simp only at hd
              split_ifs at hd with hval
              split at hd
              · simp at hd
              · split_ifs at hd
                cases hd
                exact (Coverage.valid_iff _).mp (by simpa using hval)
          simp only [hd,hcov.highest] at h
          refine ⟨c,e,coverage,he,href,hd,?_⟩
          split_ifs at h with h₄ h₅
          · cases h
            exact .inl ⟨rfl,rfl⟩
          · obtain ⟨m,hm,hmv,hset⟩ := Coverage.merge_spec hw.credited hcov (by omega)
              hw.credited_le (by omega) hw.window
            simp only [hm,Except.ok.injEq,Prod.mk.injEq] at h
            refine .inr ⟨m,hmv,hset,?_,h.1.symm,h.2.symm⟩
            have ht := m.isGreatest_top.1
            rw [hset] at ht
            rcases ht with ht | ht
            · exact (Coverage.le_top ht).trans hw.credited_le
            · exact (Coverage.le_top ht).trans (by omega)

theorem acceptCredit_valid {w v : Window} (hw : w.Valid P) {bytes : Bytes} {changed : Bool}
    (h : w.acceptCredit P bytes = .ok (changed,v)) : v.Valid P := by
  obtain ⟨_,_,coverage,_,_,_,⟨_,rfl⟩ | ⟨m,hm,hset,htop,_,rfl⟩⟩ := acceptCredit_ok P hw h
  · exact hw
  · have hfl : w.credited.floor ≤ m.floor := by
      apply Coverage.floor_le_of_subset hm.even
      rw [hset]
      exact Set.subset_union_left
    have hwin : w.sent ≤ m.floor+63 := by
      have := hw.window
      omega
    refine { hw with
      credited := hm, credited_le := htop, window := hwin, tx_dom := ?_, tx_ok := ?_, tx_ref := ?_ }
    · intro c
      have := hw.tx_dom c
      simp only [SortedMap.find?_retain,Option.filter_eq_some_iff,decide_eq_true_eq,gt_iff_lt,
        exists_and_right,this]
      omega
    · intro c e he
      simp only [SortedMap.find?_retain,Option.filter_eq_some_iff] at he
      exact hw.tx_ok c e he.1
    · intro c d e f he hf
      simp only [SortedMap.find?_retain,Option.filter_eq_some_iff] at he hf
      exact hw.tx_ref c d e f he.1 hf.1

end Window

end Invariant

end Gcoms.FlowWindow
