import Gcoms.FlowWindow

/-!
# Private storage of a window

`encodePrivate` writes a window for an encrypted archive and `decodePrivate`
rebuilds it, checking every bound and every cross-field condition again. The
three format versions differ in whether the generation and the per-packet
volatile flag are present. A volatile packet is stored by its hash only, so
what a restart restores is the window without its volatile bytes.
-/
namespace Gcoms.FlowStorage
open ByteCodec SortedMaps Primitives FlowRecord FlowCoverage FlowWindow

def firstMagic : Block 5 := ⟨[0x47,0x43,0x57,0x32,1],rfl⟩
def recoveryMagic : Block 5 := ⟨[0x47,0x43,0x57,0x32,2],rfl⟩
def volatileMagic : Block 5 := ⟨[0x47,0x43,0x57,0x32,3],rfl⟩

def maxPrivateBytes : ℕ := 128+(maxMessage+43+153)*counterWindow

/-! ## Encoding -/

def encodeSent (hasVolatile : Bool) (e : Sent) : Bytes :=
  bigEndian 1 e.purpose.byte.val++(bigEndian 8 e.sentUnix++(e.authority.secret.toList++
    ((if hasVolatile then bigEndian 1 e.volatile.toNat else [])++
      (if e.volatile then e.authority.packetHash.toList
        else bigEndian 2 e.packet.length++e.packet))))

def encodeCached : Option Bytes → Bytes
  | none => bigEndian 1 0
  | some bytes => bigEndian 1 1++bytes

def encodeReceived (entry : ℕ × Received) : Bytes :=
  bigEndian 8 entry.1++(entry.2.authority.packetHash.toList++(entry.2.authority.secret.toList++
    encodeCached entry.2.cachedCredit))

def magic (w : Window) : Block 5 :=
  if w.hasVolatileCounters then volatileMagic
  else if w.generation = 1 then firstMagic else recoveryMagic

def encodePrivate (w : Window) : Bytes :=
  (magic w).toList++(w.session.toList++
    ((if w.generation > 1 || w.hasVolatileCounters then bigEndian 8 w.generation else [])++
      (bigEndian 8 w.sent++(bigEndian 8 w.credited.floor++(bigEndian 8 w.credited.mask++
        (bigEndian 8 w.received.floor++(bigEndian 8 w.received.mask++(bigEndian 1 w.tx.size++
          (w.tx.entries.flatMap (fun e => encodeSent w.hasVolatileCounters e.2)++
            (bigEndian 1 w.rx.size++w.rx.entries.flatMap encodeReceived))))))))))

/-! ## Decoding -/

def readVersion : Reader Error ℕ := do
  let value ← take .length 5
  if value = firstMagic then pure 1
  else if value = recoveryMagic then pure 2
  else if value = volatileMagic then pure 3
  else throw .version

def readGeneration (version : ℕ) : Reader Error ℕ :=
  if version ≥ 2 then word .length 8 else pure 1

def readVolatile (version : ℕ) (purpose : Purpose) : Reader Error Bool :=
  if version = 3 then do
    let flag ← word .length 1
    if flag = 0 then pure false
    else if flag = 1 ∧ purpose ≠ .control then pure true
    else throw .state
  else pure false

section Crypto
variable (P : Suite)

def readPacket (volatile : Bool) : Reader Error (Bytes × Block 32) :=
  if volatile then do
    let packetHash ← take .length 32
    pure ([],packetHash)
  else do
    let length ← word .length 2
    check (length ≠ 0 ∧ length ≤ maxMessage) .length
    let packet ← take .length length
    pure (packet.toList,P.sha256 packet.toList)

/-- One sent packet; the state is its counter and the packets read so far. -/
def readSent (version : ℕ) (session : Block 16) (s : ℕ × SortedMap ℕ Sent) :
    Reader Error (ℕ × SortedMap ℕ Sent) := do
  let tag ← word .length 1
  let purpose ← lift (Purpose.decode tag)
  let sentUnix ← word .length 8
  check (sentUnix ≠ 0) .state
  let secret ← take .length 32
  let volatile ← readVolatile version purpose
  let (packet,packetHash) ← readPacket P volatile
  let authority := Authority.new P session packetHash secret
  check (∀ e ∈ s.2.entries, e.2.authority.reference ≠ authority.reference) .state
  pure (s.1+1,s.2.insert s.1 ⟨authority,packet,purpose,sentUnix,volatile⟩)

def readCached (session : Block 16) (received : Coverage) (highest counter : ℕ)
    (authority : Authority) : Reader Error (Option Bytes) := do
  let flag ← word .length 1
  if flag = 0 then pure none
  else if flag = 1 then do
    let bytes ← take .length creditBytes
    let prior ← lift (decodeCredit P session authority bytes.toList)
    check (prior.floor ≤ received.floor) .state
    let priorHighest ← lift prior.highest
    check (priorHighest ≤ highest ∧ prior.contains counter = true) .state
    check (∀ shift < counterWindow, prior.mask.testBit shift = true →
      received.contains (prior.floor+shift+1) = true) .state
    pure (some bytes.toList)
  else throw .state

/-- One received packet; the state is the previous counter and the packets read so far. -/
def readReceived (session : Block 16) (received : Coverage) (highest : ℕ)
    (s : ℕ × SortedMap ℕ Received) : Reader Error (ℕ × SortedMap ℕ Received) := do
  let counter ← word .length 8
  check (max (highest-(counterWindow-1)) 1 ≤ counter ∧ counter ≤ highest ∧ s.1 < counter ∧
    received.contains counter = true) .state
  let packetHash ← take .length 32
  let secret ← take .length 32
  let authority := Authority.new P session packetHash secret
  let cachedCredit ← readCached P session received highest counter authority
  pure (counter,s.2.insert counter ⟨authority,cachedCredit⟩)

def readWindow : Reader Error (ℕ × Window) := do
  let version ← readVersion
  let session ← take .length 16
  let generation ← readGeneration version
  check (¬ (version = 2 ∧ generation < 2)) .state
  let w ← lift (Window.newGeneration session generation)
  let sent ← word .length 8
  let creditedFloor ← word .length 8
  let creditedMask ← word .length 8
  let receivedFloor ← word .length 8
  let receivedMask ← word .length 8
  let txCount ← word .length 1
  let credited : Coverage := ⟨creditedFloor,creditedMask⟩
  let received : Coverage := ⟨receivedFloor,receivedMask⟩
  check (credited.valid = true ∧ received.valid = true) .state
  let creditedHighest ← lift credited.highest
  check (creditedHighest ≤ sent ∧ creditedFloor ≤ sent ∧ sent-creditedFloor = txCount ∧
    txCount ≤ counterWindow) .state
  let tx ← loop (readSent P version session) txCount (creditedFloor+1,.empty)
  let rxCount ← word .length 1
  check (rxCount ≤ counterWindow) .state
  let highest ← lift received.highest
  let rx ← loop (readReceived P session received highest) rxCount (0,.empty)
  check (highest > 0 → ∀ counter < highest+1, max (highest-(counterWindow-1)) 1 ≤ counter →
    received.contains counter = rx.2.contains counter) .state
  pure (version,{ w with sent, credited, received, tx := tx.2, rx := rx.2 })

def decodePrivate (bytes : Bytes) : Except Error Window :=
  if bytes.length > maxPrivateBytes then .error .length
  else
    match (readWindow P).run bytes with
    | .error e => .error e
    | .ok ((version,w),rest) =>
      if rest ≠ [] then .error .length
      else if version = 3 ∧ w.hasVolatileCounters = false then .error .state
      else .ok w

end Crypto

/-! ## What a restart restores -/

/-- A volatile packet loses its bytes and keeps its authority. -/
def dropVolatile (e : Sent) : Sent := if e.volatile then { e with packet := [] } else e

def restored (w : Window) : Window := { w with tx := w.tx.mapValues dropVolatile }

def version (w : Window) : ℕ :=
  if w.hasVolatileCounters then 3 else if w.generation = 1 then 1 else 2

section RoundTrip
variable (P : Suite)

theorem reads_version (w : Window) : Reads readVersion (magic w).toList (version w) := by
  refine (Reads.take Error.length (magic w)).last ?_
  unfold magic version
  cases w.hasVolatileCounters with
  | true => exact Reads.pure 3
  | false =>
      by_cases hg : w.generation = 1
      · simp only [hg,if_true]
        exact Reads.pure 1
      · simp only [hg,if_false]
        exact Reads.pure 2

theorem reads_generation {w : Window} (hw : w.Valid P) :
    Reads (readGeneration (version w))
      (if w.generation > 1 || w.hasVolatileCounters then bigEndian 8 w.generation else [])
      w.generation := by
  have hpos := hw.generation_pos
  have hword := Reads.word Error.length 8 w.generation (hw.generation_lt.trans_le (by norm_num))
  unfold readGeneration version
  cases hv : w.hasVolatileCounters with
  | true => simpa using hword
  | false =>
      by_cases hg : w.generation = 1
      · simpa [hg] using Reads.pure 1
      · have hgt : 1 < w.generation := by omega
        simpa [hg,hgt] using hword

/-- Without a volatile entry in the window, no entry is volatile. -/
theorem volatile_of_mem {w : Window} {c : ℕ} {e : Sent} (he : w.tx.find? c = some e)
    (h : w.hasVolatileCounters = false) : e.volatile = false := by
  unfold Window.hasVolatileCounters at h
  rw [List.any_eq_false] at h
  simpa using h (c,e) (SortedMap.mem_iff_find?.mpr he)

theorem reads_volatile {w : Window} (hw : w.Valid P) {c : ℕ} {e : Sent}
    (he : w.tx.find? c = some e) :
    Reads (readVolatile (version w) e.purpose)
      (if w.hasVolatileCounters then bigEndian 1 e.volatile.toNat else []) e.volatile := by
  unfold readVolatile version
  cases hv : w.hasVolatileCounters with
  | false =>
      rw [volatile_of_mem he hv]
      have hne : (if w.generation = 1 then 1 else 2) ≠ 3 := by split_ifs <;> decide
      simp only [Bool.false_eq_true,if_false,hne]
      exact Reads.pure false
  | true =>
      simp only [if_true]
      refine (Reads.word Error.length 1 e.volatile.toNat (by cases e.volatile <;> decide)).last ?_
      cases hf : e.volatile with
      | false => exact Reads.pure false
      | true =>
          have hp := (hw.tx_ok c e he).purpose hf
          simp only [Bool.toNat_true,one_ne_zero,if_false,hp,ne_eq,not_false_eq_true,and_self,if_true]
          exact Reads.pure true

theorem reads_packet {session : Block 16} {e : Sent} (he : e.Valid P session) :
    Reads (readPacket P e.volatile)
      (if e.volatile then e.authority.packetHash.toList
        else bigEndian 2 e.packet.length++e.packet)
      ((dropVolatile e).packet,e.authority.packetHash) := by
  unfold readPacket dropVolatile
  cases hv : e.volatile with
  | true => exact (Reads.take Error.length e.authority.packetHash).last (Reads.pure _)
  | false =>
      have hne := he.kept hv
      have hle := he.packet_le
      have hmax : maxMessage < 256^2 := by decide
      have hpos : e.packet.length ≠ 0 := by simpa using hne
      let b : Block e.packet.length := ⟨e.packet,rfl⟩
      have hb : b.toList = e.packet := rfl
      have hread := Reads.take Error.length b
      rw [hb] at hread
      refine (Reads.word Error.length 2 _ (by omega)).bind ?_
      refine Reads.silent (Reads.check _ ⟨hpos,hle⟩) ?_
      refine hread.last ?_
      rw [hb,← he.hashed hne]
      exact Reads.pure _

theorem dropVolatile_authority (e : Sent) : (dropVolatile e).authority = e.authority := by
  unfold dropVolatile
  split_ifs <;> rfl

theorem dropVolatile_eq (e : Sent) : dropVolatile e =
    ⟨e.authority,(dropVolatile e).packet,e.purpose,e.sentUnix,e.volatile⟩ := by
  unfold dropVolatile
  split_ifs <;> rfl

theorem reads_sent {w : Window} (hw : w.Valid P) {c : ℕ} {e : Sent} (he : w.tx.find? c = some e)
    (s : ℕ × SortedMap ℕ Sent)
    (hs : ∀ f ∈ s.2.entries, f.2.authority.reference ≠ e.authority.reference) :
    Reads (readSent P (version w) w.session s) (encodeSent w.hasVolatileCounters e)
      (s.1+1,s.2.insert s.1 (dropVolatile e)) := by
  have hv := hw.tx_ok c e he
  have hd : Authority.new P w.session e.authority.packetHash e.authority.secret = e.authority :=
    hv.derived.symm
  have hpos := hv.sentUnix_pos
  refine (Reads.word Error.length 1 _ e.purpose.byte.isLt).bind ?_
  refine Reads.silent (Reads.lift (Purpose.decode_byte _)) ?_
  refine (Reads.word Error.length 8 _ (hv.sentUnix_lt.trans_le (by norm_num))).bind ?_
  refine Reads.silent (Reads.check _ (by omega)) ?_
  refine (Reads.take Error.length e.authority.secret).bind ?_
  refine (reads_volatile P hw he).bind ?_
  refine (reads_packet P hv).last ?_
  refine Reads.silent (Reads.check _ (by simpa only [hd] using hs)) ?_
  rw [hd,← dropVolatile_eq]
  exact Reads.pure _

theorem reads_cached {w : Window} (hw : w.Valid P) {c : ℕ} {e : Received}
    (he : w.rx.find? c = some e) :
    Reads (readCached P w.session w.received w.received.top c e.authority)
      (encodeCached e.cachedCredit) e.cachedCredit := by
  cases hc : e.cachedCredit with
  | none => exact (Reads.word Error.length 1 0 (by norm_num)).last (Reads.pure none)
  | some bytes =>
      obtain ⟨p,hp,rfl,hmem,hsub,_⟩ := (hw.rx_ok c e he).cached bytes hc
      have hlen := sealCredit_length P w.session e.authority p
      let b : Block creditBytes := ⟨sealCredit P w.session e.authority p,hlen⟩
      have hb : b.toList = sealCredit P w.session e.authority p := rfl
      have hread := Reads.take Error.length b
      rw [hb] at hread
      refine (Reads.word Error.length 1 1 (by norm_num)).bind ?_
      refine hread.last ?_
      rw [hb]
      refine Reads.silent (Reads.lift (decodeCredit_sealCredit P w.session e.authority hp)) ?_
      refine Reads.silent (Reads.check _ (Coverage.floor_le_of_subset hw.received.even hsub)) ?_
      refine Reads.silent (Reads.lift hp.highest) ?_
      refine Reads.silent (Reads.check _ ⟨Coverage.top_le_of_subset hsub,
        (Coverage.contains_iff hp.mask_lt).mpr hmem⟩) ?_
      refine Reads.silent (Reads.check _ ?_) (Reads.pure _)
      intro shift _ hbit
      rw [Coverage.contains_iff hw.received.mask_lt]
      apply hsub
      have hs := Coverage.testBit_iff_mem.mp hbit
      have hcomm : p.floor+shift+1 = p.floor+1+shift := by omega
      rwa [hcomm]

theorem reads_received {w : Window} (hw : w.Valid P) {c : ℕ} {e : Received}
    (he : w.rx.find? c = some e) (s : ℕ × SortedMap ℕ Received) (hs : s.1 < c) :
    Reads (readReceived P w.session w.received w.received.top s) (encodeReceived (c,e))
      (c,s.2.insert c e) := by
  obtain ⟨hpos,hlo,hmem⟩ := (hw.rx_dom c).mp ⟨e,he⟩
  have hle := Coverage.le_top hmem
  have hd : Authority.new P w.session e.authority.packetHash e.authority.secret = e.authority :=
    (hw.rx_ok c e he).derived.symm
  have hlt : c < 256^8 := hle.trans_lt (hw.received.top_lt.trans_le (by norm_num))
  have hcw : counterWindow-1 = 62 := rfl
  refine (Reads.word Error.length 8 c hlt).bind ?_
  refine Reads.silent (Reads.check _ ⟨by omega,hle,hs,
    (Coverage.contains_iff hw.received.mask_lt).mpr hmem⟩) ?_
  refine (Reads.take Error.length e.authority.packetHash).bind ?_
  refine (Reads.take Error.length e.authority.secret).bind ?_
  rw [hd]
  exact (reads_cached P hw he).last (Reads.pure _)

/-! ### Whole windows -/

theorem reads_tx {w : Window} (hw : w.Valid P) :
    ∃ n, Reads (loop (readSent P (version w) w.session) w.tx.size (w.credited.floor+1,.empty))
      (w.tx.entries.flatMap (fun e => encodeSent w.hasVolatileCounters e.2))
      (n,w.tx.mapValues dropVolatile) := by
  let next : ℕ × SortedMap ℕ Sent → ℕ × Sent → ℕ × SortedMap ℕ Sent :=
    fun s x => (s.1+1,s.2.insert s.1 (dropVolatile x.2))
  have hkeys := SortedMap.keys_interval hw.tx_dom
  -- after a part of the entries, the state is the next key and that part of the map
  have hfold : ∀ pre post, w.tx.entries = pre++post →
      pre.foldl next (w.credited.floor+1,.empty) = (w.credited.floor+1+pre.length,
        (SortedMap.empty).extend (pre.map (fun e => (e.1,dropVolatile e.2)))) := by
    intro pre
    induction pre using List.reverseRecOn with
    | nil => intro post _; rfl
    | append_singleton pre x ih =>
        intro post hpost
        have hx := ih (x::post) (by simpa using hpost)
        have hkey : x.1 = w.credited.floor+1+pre.length := by
          have hk := congrArg (fun l : List ℕ => l[pre.length]?) hkeys
          have hlen : pre.length < w.sent-w.credited.floor := by
            have := congrArg List.length hkeys
            simp [hpost] at this
            omega
          simp [hpost,hlen] at hk
          omega
        rw [List.foldl_append,hx]
        simp only [List.foldl_cons,List.foldl_nil,next,List.map_append,List.map_cons,List.map_nil,
          SortedMap.extend,List.foldl_append,List.length_append,List.length_singleton,← hkey]
        rw [hkey,Nat.add_assoc]
  refine ⟨w.credited.floor+1+w.tx.size,?_⟩
  have hloop := Reads.loop (readSent P (version w) w.session)
    (fun e : ℕ × Sent => encodeSent w.hasVolatileCounters e.2) next w.tx.entries
    (w.credited.floor+1,.empty) ?_
  · have hall := hfold w.tx.entries [] (by simp)
    rw [hall] at hloop
    have hext := SortedMap.extend_entries (w.tx.mapValues dropVolatile)
    rw [SortedMap.mapValues] at hext
    simp only at hext
    rw [hext] at hloop
    exact hloop
  · intro pre x post hsplit
    obtain ⟨c,e⟩ := x
    have he : w.tx.find? c = some e := SortedMap.mem_iff_find?.mp (by simp [hsplit])
    refine reads_sent P hw he _ ?_
    rw [hfold pre _ hsplit]
    have hentries := SortedMap.extend_prefix (w.tx.mapValues dropVolatile)
      (pre.map (fun e => (e.1,dropVolatile e.2)))
      (((c,e)::post).map (fun e => (e.1,dropVolatile e.2)))
      (by simp [SortedMap.mapValues,hsplit])
    rw [hentries]
    intro f hf href
    obtain ⟨⟨d,g⟩,hg,rfl⟩ := List.mem_map.mp hf
    rw [dropVolatile_authority] at href
    have hfind : w.tx.find? d = some g := SortedMap.mem_iff_find?.mp (by simp [hsplit,hg])
    have hdc := hw.tx_ref d c g e hfind he href
    have hs := w.tx.sorted
    rw [hsplit,List.pairwise_append] at hs
    have hlt := hs.2.2 _ hg (c,e) (by simp)
    simp only at hlt
    omega

theorem reads_rx {w : Window} (hw : w.Valid P) :
    ∃ n, Reads (loop (readReceived P w.session w.received w.received.top) w.rx.size (0,.empty))
      (w.rx.entries.flatMap encodeReceived) (n,w.rx) := by
  let next : ℕ × SortedMap ℕ Received → ℕ × Received → ℕ × SortedMap ℕ Received :=
    fun s x => (x.1,s.2.insert x.1 x.2)
  have hsnd : ∀ (xs : List (ℕ × Received)) s, (xs.foldl next s).2 = s.2.extend xs := by
    intro xs
    induction xs with
    | nil => intro s; rfl
    | cons x xs ih => intro s; exact ih (next s x)
  have hfst : ∀ (pre : List (ℕ × Received)) (c : ℕ), (∀ x ∈ pre, x.1 < c) → 0 < c →
      (pre.foldl next (0,.empty)).1 < c := by
    intro pre c hpre hc
    induction pre using List.reverseRecOn with
    | nil => exact hc
    | append_singleton pre x _ =>
        rw [List.foldl_append]
        exact hpre x (by simp)
  refine ⟨(w.rx.entries.foldl next (0,.empty)).1,?_⟩
  have hloop := Reads.loop (readReceived P w.session w.received w.received.top)
    encodeReceived next w.rx.entries (0,.empty) ?_
  · have hext : (w.rx.entries.foldl next (0,.empty)).2 = w.rx := by
      rw [hsnd]
      exact w.rx.extend_entries
    rw [← Prod.eta (w.rx.entries.foldl next (0,.empty)),hext] at hloop
    exact hloop
  · intro pre x post hsplit
    obtain ⟨c,e⟩ := x
    have he : w.rx.find? c = some e := SortedMap.mem_iff_find?.mp (by simp [hsplit])
    have hs := w.rx.sorted
    rw [hsplit,List.pairwise_append] at hs
    refine reads_received P hw he _ (hfst pre c ?_ ((hw.rx_dom c).mp ⟨e,he⟩).1)
    intro y hy
    exact hs.2.2 y hy (c,e) (by simp)

theorem tx_size {w : Window} (hw : w.Valid P) : w.tx.size = w.sent-w.credited.floor := by
  have := congrArg List.length (SortedMap.keys_interval hw.tx_dom)
  simpa [SortedMap.size] using this

theorem rx_size_le {w : Window} (hw : w.Valid P) : w.rx.size ≤ 63 := by
  have hle := SortedMap.size_le_of_interval (m := w.rx) (a := w.received.top-62)
    (b := w.received.top+1) (fun c e he => by
      have := (hw.rx_dom c).mp ⟨e,he⟩
      have := Coverage.le_top this.2.2
      omega)
  omega

theorem reads_window {w : Window} (hw : w.Valid P) :
    Reads (readWindow P) (encodePrivate w) (version w,restored w) := by
  have hsize := tx_size P hw
  have hrx := rx_size_le P hw
  have hwin := hw.window
  have hfl := w.credited.floor_le_top
  have hcl := hw.credited_le
  have hrfl := w.received.floor_le_top
  have hrt := hw.received.top_lt
  have hsl := hw.sent_lt
  have hcm := hw.credited.mask_lt
  have hrm := hw.received.mask_lt
  have hcw : counterWindow = 63 := rfl
  have hbig : 2^64 = 256^8 := by norm_num
  have hnew : Window.newGeneration w.session w.generation = .ok
      { generation := w.generation, session := w.session, sent := 0, credited := .empty
        received := .empty, tx := .empty, rx := .empty } := by
    have := hw.generation_pos
    unfold Window.newGeneration
    rw [if_neg]
    rintro (h | h)
    · exact hw.session_ne h
    · omega
  have hver : ¬ (version w = 2 ∧ w.generation < 2) := by
    have := hw.generation_pos
    unfold version
    split_ifs <;> omega
  obtain ⟨n,htx⟩ := reads_tx P hw
  obtain ⟨m,hrxs⟩ := reads_rx P hw
  refine (reads_version w).bind ?_
  refine (Reads.take Error.length w.session).bind ?_
  refine (reads_generation P hw).bind ?_
  refine Reads.silent (Reads.check _ hver) ?_
  refine Reads.silent (Reads.lift hnew) ?_
  refine (Reads.word Error.length 8 w.sent (by omega)).bind ?_
  refine (Reads.word Error.length 8 w.credited.floor (by omega)).bind ?_
  refine (Reads.word Error.length 8 w.credited.mask (by omega)).bind ?_
  refine (Reads.word Error.length 8 w.received.floor (by omega)).bind ?_
  refine (Reads.word Error.length 8 w.received.mask (by omega)).bind ?_
  refine (Reads.word Error.length 1 w.tx.size (by omega)).bind ?_
  refine Reads.silent (Reads.check _ ⟨(Coverage.valid_iff _).mpr hw.credited,
    (Coverage.valid_iff _).mpr hw.received⟩) ?_
  refine Reads.silent (Reads.lift hw.credited.highest) ?_
  refine Reads.silent (Reads.check _ ⟨hw.credited_le,by omega,hsize.symm,by omega⟩) ?_
  refine htx.bind ?_
  refine (Reads.word Error.length 1 w.rx.size (by omega)).bind ?_
  refine Reads.silent (Reads.check _ (by omega)) ?_
  refine Reads.silent (Reads.lift hw.received.highest) ?_
  refine hrxs.last ?_
  refine Reads.silent (Reads.check _ ?_) (Reads.pure _)
  intro _ counter _ hlo
  have hdom := hw.rx_dom counter
  rw [Bool.eq_iff_iff,Coverage.contains_iff hw.received.mask_lt,SortedMap.contains,
    Option.isSome_iff_exists,hdom]
  exact ⟨fun hm => ⟨by omega,by omega,hm⟩,fun hm => hm.2.2⟩

/-! ### The size bound -/

/-- A concatenation of blocks of at most `b` bytes, one of them shorter by `d`. -/
theorem length_flatMap_le {α : Type} (f : α → Bytes) (xs : List α) {b : ℕ}
    (h : ∀ x ∈ xs, (f x).length ≤ b) : (xs.flatMap f).length ≤ xs.length*b := by
  rw [List.length_flatMap]
  have hsum := List.sum_le_card_nsmul (xs.map (fun x => (f x).length)) b (by
    intro n hn
    obtain ⟨x,hx,rfl⟩ := List.mem_map.mp hn
    exact h x hx)
  simpa using hsum

theorem length_flatMap_slack {α : Type} (f : α → Bytes) {xs : List α} {b d : ℕ}
    (h : ∀ x ∈ xs, (f x).length ≤ b) {y : α} (hy : y ∈ xs) (hd : (f y).length+d ≤ b) :
    (xs.flatMap f).length+d ≤ xs.length*b := by
  obtain ⟨pre,post,rfl⟩ := List.append_of_mem hy
  have h₁ := length_flatMap_le f pre (fun x hx => h x (by simp [hx]))
  have h₂ := length_flatMap_le f post (fun x hx => h x (by simp [hx]))
  simp only [List.flatMap_append,List.flatMap_cons,List.length_append,List.length_cons]
  nlinarith

theorem encodeSent_length {session : Block 16} {e : Sent} (he : e.Valid P session)
    (hasVolatile : Bool) :
    (encodeSent hasVolatile e).length ≤ maxMessage+43+hasVolatile.toNat ∧
      (e.volatile = true → (encodeSent hasVolatile e).length ≤ 74) := by
  have hle := he.packet_le
  have hmax : maxMessage = 15360 := rfl
  unfold encodeSent
  cases hasVolatile <;> cases e.volatile <;>
    simp only [List.length_append,bigEndian_length,List.Vector.toList_length,List.length_nil,
      Bool.toNat_true,Bool.toNat_false,if_true,if_false,Bool.false_eq_true,false_implies,
      true_implies,and_true] <;> omega

theorem encodeReceived_length {w : Window} (hw : w.Valid P) {x : ℕ × Received}
    (hx : x ∈ w.rx.entries) : (encodeReceived x).length ≤ 153 := by
  obtain ⟨c,e⟩ := x
  have he := hw.rx_ok c e (SortedMap.mem_iff_find?.mp hx)
  have hcached : (encodeCached e.cachedCredit).length ≤ 81 := by
    cases hc : e.cachedCredit with
    | none => simp [encodeCached]
    | some bytes =>
        obtain ⟨p,_,rfl,_⟩ := he.cached bytes hc
        simp only [encodeCached,List.length_append,bigEndian_length,sealCredit_length]
        decide
  simp only [encodeReceived,List.length_append,bigEndian_length,List.Vector.toList_length]
  omega

theorem encodePrivate_length_le {w : Window} (hw : w.Valid P) :
    (encodePrivate w).length ≤ maxPrivateBytes := by
  have hsize := tx_size P hw
  have hwin := hw.window
  have hrx := rx_size_le P hw
  have hbound : maxPrivateBytes = 128+(15360+43+153)*63 := by norm_num [maxPrivateBytes,maxMessage,
    counterWindow,RatchetFrame.maxSkip]
  have hmax : maxMessage = 15360 := rfl
  have htx : (w.tx.entries.flatMap (fun e => encodeSent w.hasVolatileCounters e.2)).length ≤
      63*(15360+43) := by
    have hn : w.tx.entries.length ≤ 63 := by
      simp only [SortedMap.size] at hsize
      omega
    have hall : ∀ x ∈ w.tx.entries, (encodeSent w.hasVolatileCounters x.2).length ≤
        15360+43+w.hasVolatileCounters.toNat := fun x hx =>
      (encodeSent_length P (hw.tx_ok x.1 x.2 (SortedMap.mem_iff_find?.mp hx)) _).1
    cases hv : w.hasVolatileCounters with
    | false =>
        rw [hv] at hall
        exact (length_flatMap_le (fun e : ℕ × Sent => encodeSent false e.2) _ hall).trans
          (Nat.mul_le_mul_right _ hn)
    | true =>
        -- the flag byte of every packet is paid for by the volatile one, whose bytes are absent
        rw [hv] at hall
        have hex := hv
        unfold Window.hasVolatileCounters at hex
        obtain ⟨y,hy,hvol⟩ := List.any_eq_true.mp hex
        have hy' := (encodeSent_length P (hw.tx_ok y.1 y.2 (SortedMap.mem_iff_find?.mp hy)) true).2
          hvol
        have := length_flatMap_slack (d := 63) (fun e : ℕ × Sent => encodeSent true e.2) hall hy
          (by simp only [Bool.toNat_true]; omega)
        simp only [Bool.toNat_true] at this
        omega
  have hrxl := length_flatMap_le encodeReceived _ (fun x hx => encodeReceived_length P hw hx)
  have hgen : (if w.generation > 1 || w.hasVolatileCounters then bigEndian 8 w.generation
      else []).length ≤ 8 := by
    split_ifs <;> simp
  simp only [encodePrivate,List.length_append,bigEndian_length,List.Vector.toList_length]
  simp only [SortedMap.size] at hrx
  omega

/-- Every valid window can be stored, and comes back without its volatile bytes. -/
theorem decodePrivate_encodePrivate {w : Window} (hw : w.Valid P) :
    decodePrivate P (encodePrivate w) = .ok (restored w) := by
  have hlen := encodePrivate_length_le P hw
  have hvol : ¬ (version w = 3 ∧ (restored w).hasVolatileCounters = false) := by
    rintro ⟨h3,hv⟩
    have hw' : w.hasVolatileCounters = true := by
      by_contra h
      unfold version at h3
      split_ifs at h3 <;> omega
    unfold Window.hasVolatileCounters restored SortedMap.mapValues at hv
    unfold Window.hasVolatileCounters at hw'
    obtain ⟨y,hy,hvol⟩ := List.any_eq_true.mp hw'
    rw [List.any_eq_false] at hv
    have := hv _ (List.mem_map_of_mem hy)
    simp [dropVolatile,hvol] at this
  unfold decodePrivate
  rw [if_neg (by omega),(reads_window P hw).run]
  simp only [ne_eq,not_true_eq_false,if_false,hvol]

theorem restored_valid {w : Window} (hw : w.Valid P) : (restored w).Valid P := by
  have hfind : ∀ c e, (restored w).tx.find? c = some e →
      ∃ f, w.tx.find? c = some f ∧ e = dropVolatile f := by
    intro c e he
    simp only [restored,SortedMap.find?_mapValues,Option.map_eq_some_iff] at he
    obtain ⟨f,hf,rfl⟩ := he
    exact ⟨f,hf,rfl⟩
  refine { hw with tx_dom := ?_, tx_ok := ?_, tx_ref := ?_ }
  · intro c
    simp only [restored,SortedMap.find?_mapValues,Option.map_eq_some_iff]
    exact ⟨fun ⟨_,f,hf,_⟩ => (hw.tx_dom c).mp ⟨f,hf⟩,fun h =>
      (hw.tx_dom c).mpr h |>.elim fun f hf => ⟨_,f,hf,rfl⟩⟩
  · intro c e he
    obtain ⟨f,hf,rfl⟩ := hfind c e he
    have hv := hw.tx_ok c f hf
    unfold dropVolatile
    split_ifs with hvol
    · exact ⟨hv.derived,hv.sentUnix_pos,hv.sentUnix_lt,by simp,by simp [hvol],by simp,hv.purpose⟩
    · exact hv
  · intro c d e f he hf href
    obtain ⟨e',he',rfl⟩ := hfind c e he
    obtain ⟨f',hf',rfl⟩ := hfind d f hf
    rw [dropVolatile_authority,dropVolatile_authority] at href
    exact hw.tx_ref c d e' f' he' hf' href

end RoundTrip

end Gcoms.FlowStorage
