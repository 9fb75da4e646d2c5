import Gcoms.Fallible
import Gcoms.ReceiptLedger

/-!
# Storage of the receipt ledger

The archive of a ledger is a version tag, the clock floor and three counted
tables. A receipt whose acknowledgement is not prepared is written with the all
zero barrier. `decode` checks every bound again, per table and per peer, and
accepts only the archive which `encode` would write for the ledger it returns.

`Storable` collects what `decode` checks. A storable ledger survives a restart
unchanged; of any other ledger whose archive is accepted at all, the keys, the
hashes, the horizons and the clock floor survive.
-/
namespace Gcoms.ReceiptStorage
open ByteCodec SortedMaps Fallible FlowWindow ReceiptLedger

def maxLegacy : ℕ := 8192
def maxEncoded : ℕ := 5+8+2+maxReceipts*112+2+maxLegacy*56+2+maxPendingAcks*57

def zeroBarrier : Barrier := (zeroSession,0)

def tag (deferred : Bool) : Block 5 :=
  ⟨if deferred then ascii "GC2R2" else ascii "GC2R1",by cases deferred <;> rfl⟩

/-! ## Encoding -/

def encodeBarrier (b : Barrier) : Bytes := b.1.toList++bigEndian 8 b.2.val

def encodeReceipt (e : Key × Receipt) : Bytes :=
  (ofLex e.1).1.toList++((ofLex e.1).2.toList++(e.2.hash.toList++(bigEndian 8 e.2.horizon.val++
    encodeBarrier (e.2.ack.getD zeroBarrier))))

def encodeLegacy (e : Block 32 × Barrier) : Bytes := e.1.toList++encodeBarrier e.2

def encodePending (e : Key × PendingAck) : Bytes :=
  (ofLex e.1).1.toList++((ofLex e.1).2.toList++(bigEndian 8 e.2.expires.val++
    bigEndian 1 e.2.sharePresence.toNat))

def encodeVersion (deferred : Bool) (l : Ledger) : Bytes :=
  (tag deferred).toList++(bigEndian 8 l.clockFloor.val++
    (bigEndian 2 l.entries.size++(l.entries.entries.flatMap encodeReceipt++
      (bigEndian 2 l.legacy.size++(l.legacy.entries.flatMap encodeLegacy++
        if deferred then bigEndian 2 l.pending.size++l.pending.entries.flatMap encodePending
        else [])))))

def encode (l : Ledger) : Bytes := encodeVersion true l

/-! ## Decoding -/

def bytes (n : ℕ) : Reader String (Block n) := take "truncated GC/2 receipt history" n

def long : Reader String U64 := do
  let b ← bytes 8
  return Fin.ofNat (2^64) (readBigEndian b.toList)

def short : Reader String ℕ := do
  let b ← bytes 2
  return readBigEndian b.toList

def readTag : Reader String Bool := do
  let b ← bytes 5
  if b = tag false then pure false
  else if b = tag true then pure true
  else throw "invalid GC/2 receipt version"

/-- A table that is being read, with the number of entries of each peer. -/
abbrev Tally (V : Type) := SortedMap Key V × SortedMap (Block 32) ℕ

def Tally.count {V : Type} (t : Tally V) (peer : Block 32) : ℕ := (t.2.find? peer).getD 0

def Tally.add {V : Type} (t : Tally V) (e : Key × V) : Tally V :=
  (t.1.insert e.1 e.2,t.2.insert (ofLex e.1).1 (t.count (ofLex e.1).1+1))

def readReceipt (deferred : Bool) (t : Tally Receipt) : Reader String (Tally Receipt) := do
  let peer ← bytes 32
  let id ← bytes 16
  let hash ← bytes 32
  let horizon ← long
  let session ← bytes 16
  let counter ← long
  let ack := if deferred ∧ (session,counter) = zeroBarrier then none else some (session,counter)
  check (¬ (t.count peer+1 > maxPerPeer ∨ horizon = 0 ∨
    (ack.any (fun b => b.1 = zeroSession || b.2 = 0)) = true ∨
      t.1.contains (toLex (peer,id)) = true)) "invalid GC/2 receipt history"
  return t.add (toLex (peer,id),⟨hash,horizon,ack⟩)

def readLegacy (m : SortedMap (Block 32) Barrier) :
    Reader String (SortedMap (Block 32) Barrier) := do
  let peer ← bytes 32
  let session ← bytes 16
  let counter ← long
  check (¬ (session = zeroSession ∨ counter = 0 ∨ m.contains peer = true))
    "invalid GC/2 legacy receipt history"
  return m.insert peer (session,counter)

def readFlag : Reader String Bool := do
  let b ← bytes 1
  if b.toList = [0] then pure false
  else if b.toList = [1] then pure true
  else throw "invalid GC/2 deferred presence flag"

def readPending (t : Tally PendingAck) : Reader String (Tally PendingAck) := do
  let peer ← bytes 32
  let id ← bytes 16
  let expires ← long
  let sharePresence ← readFlag
  check (¬ (expires = 0 ∨ t.count peer+1 > maxPerPeer ∨ t.1.contains (toLex (peer,id)) = true))
    "invalid GC/2 deferred ACK history"
  return t.add (toLex (peer,id),⟨expires,sharePresence⟩)

def readPendings (deferred : Bool) : Reader String (SortedMap Key PendingAck) :=
  if deferred then do
    let count ← short
    check (count ≤ maxPendingAcks) "oversized GC/2 deferred ACK history"
    let t ← loop readPending count (.empty,.empty)
    return t.1
  else pure .empty

/-- A receipt without an acknowledgement needs the obligation to send one. -/
def owed (l : Ledger) (e : Key × Receipt) : Bool :=
  e.2.ack.isSome || (l.pending.find? e.1).any (fun a => a.expires = e.2.horizon)

def readLedger : Reader String (Bool × Ledger) := do
  let deferred ← readTag
  let clockFloor ← long
  let count ← short
  check (count ≤ maxReceipts) "oversized GC/2 receipt history"
  let entries ← loop (readReceipt deferred) count (.empty,.empty)
  let count ← short
  check (count ≤ maxLegacy) "oversized GC/2 legacy receipt history"
  let legacy ← loop readLegacy count .empty
  let pending ← readPendings deferred
  let l : Ledger := ⟨entries.1,legacy,pending,clockFloor⟩
  check (∀ e ∈ l.entries.entries, owed l e = true) "GC/2 receipt has no durable ACK obligation"
  return (deferred,l)

def decode (input : Bytes) : Except String Ledger := do
  require (input.length ≤ maxEncoded) "oversized GC/2 receipt history"
  let ((deferred,l),remaining) ← readLedger.run input
  require (remaining = [] ∧ encodeVersion deferred l = input) "noncanonical GC/2 receipt history"
  return l

/-! ## Lengths -/

theorem encodeReceipt_length (e : Key × Receipt) : (encodeReceipt e).length = 112 := by
  simp [encodeReceipt,encodeBarrier]

theorem encodeLegacy_length (e : Block 32 × Barrier) : (encodeLegacy e).length = 56 := by
  simp [encodeLegacy,encodeBarrier]

theorem encodePending_length (e : Key × PendingAck) : (encodePending e).length = 57 := by
  simp [encodePending]

theorem flatMap_length {α : Type} {enc : α → Bytes} {n : ℕ} (h : ∀ x, (enc x).length = n)
    (xs : List α) : (xs.flatMap enc).length = xs.length*n := by
  simp [List.length_flatMap,h]

theorem encode_length (l : Ledger) : (encode l).length =
    19+l.entries.size*112+l.legacy.size*56+l.pending.size*57 := by
  simp only [encode,encodeVersion,List.length_append,List.Vector.toList_length,bigEndian_length,
    if_true,flatMap_length encodeReceipt_length,flatMap_length encodeLegacy_length,
    flatMap_length encodePending_length,SortedMap.size]
  omega

/-! ## The round trip -/

/-- What `decode` asks of a ledger. -/
structure Storable (l : Ledger) : Prop where
  entries_le : l.entries.size ≤ maxReceipts
  entries_peer : ∀ peer, (ofPeer peer l.entries.entries).length ≤ maxPerPeer
  horizon : ∀ k r, l.entries.find? k = some r → r.horizon ≠ 0
  ack : ∀ k r b, l.entries.find? k = some r → r.ack = some b → b.1 ≠ zeroSession ∧ b.2 ≠ 0
  legacy_le : l.legacy.size ≤ maxLegacy
  legacy : ∀ peer b, l.legacy.find? peer = some b → b.1 ≠ zeroSession ∧ b.2 ≠ 0
  pending_le : l.pending.size ≤ maxPendingAcks
  pending_peer : ∀ peer, (ofPeer peer l.pending.entries).length ≤ maxPerPeer
  expires : ∀ k a, l.pending.find? k = some a → a.expires ≠ 0
  owed : ∀ k r, l.entries.find? k = some r → r.ack = none →
    ∃ a, l.pending.find? k = some a ∧ a.expires = r.horizon

theorem Storable.encode_length_le {l : Ledger} (h : Storable l) :
    (encode l).length ≤ maxEncoded := by
  have h₁ := h.entries_le
  have h₂ := h.legacy_le
  have h₃ := h.pending_le
  rw [encode_length]
  simp only [maxEncoded]
  omega

theorem reads_long (v : U64) : Reads long (bigEndian 8 v.val) v := by
  have hb := Reads.take "truncated GC/2 receipt history" (wordBlock 8 v.val)
  refine hb.last ?_
  have hv : readBigEndian (bigEndian 8 v.val) = v.val :=
    readBigEndian_bigEndian 8 v.val (v.isLt.trans_le (by norm_num))
  rw [wordBlock_toList,hv]
  simp only [Fin.ofNat_val_eq_self]
  exact Reads.pure v

theorem reads_short {v : ℕ} (hv : v < 2^16) : Reads short (bigEndian 2 v) v :=
  Reads.word "truncated GC/2 receipt history" 2 v (hv.trans_le (by norm_num))

theorem reads_tag (deferred : Bool) : Reads readTag (tag deferred).toList deferred := by
  refine (Reads.take "truncated GC/2 receipt history" (tag deferred)).last ?_
  cases deferred with
  | false => exact Reads.pure false
  | true => exact Reads.pure true

theorem reads_flag (b : Bool) : Reads readFlag (bigEndian 1 b.toNat) b := by
  refine (Reads.take "truncated GC/2 receipt history" (wordBlock 1 b.toNat)).last ?_
  cases b with
  | false => exact Reads.pure false
  | true => exact Reads.pure true

section Tables
variable {V : Type}

/-- The part of a table that has been read, and its tally. -/
theorem foldl_add (pre : List (Key × V)) :
    (pre.foldl Tally.add (.empty,.empty)).1 = (SortedMap.empty : SortedMap Key V).extend pre ∧
      ∀ peer, (pre.foldl Tally.add (.empty,.empty)).count peer = (ofPeer peer pre).length := by
  induction pre using List.reverseRecOn with
  | nil => exact ⟨rfl,fun _ => rfl⟩
  | append_singleton pre e ih =>
      obtain ⟨hm,hc⟩ := ih
      simp only [List.foldl_append,List.foldl_cons,List.foldl_nil]
      refine ⟨?_,?_⟩
      · simp only [Tally.add,hm,SortedMap.extend,List.foldl_append,List.foldl_cons,List.foldl_nil]
      · intro peer
        have hp := hc (ofLex e.1).1
        have hq := hc peer
        simp only [Tally.count] at hp hq
        simp only [Tally.add,Tally.count,SortedMap.find?_insert,ofPeer,List.filter_append,
          List.length_append] at hp hq ⊢
        by_cases he : peer = (ofLex e.1).1
        · subst he
          simp [hp]
        · have he' : (ofLex e.1).1 ≠ peer := fun h => he h.symm
          simp [he,he',hq]

/-- The next entry of a table is not among those already read. -/
theorem not_contains {K : Type} [LinearOrder K] {m : SortedMap K V} {pre post : List (K × V)}
    {e : K × V} (h : m.entries = pre++e::post) :
    ((SortedMap.empty : SortedMap K V).extend pre).contains e.1 = false := by
  have hpre := m.extend_prefix pre (e::post) h
  rw [SortedMap.contains,Option.isSome_eq_false_iff,Option.isNone_iff_eq_none,
    SortedMap.find?_eq_none,hpre]
  intro v hv
  have hs := m.sorted
  rw [h,List.pairwise_append] at hs
  exact lt_irrefl _ (hs.2.2 (e.1,v) hv e List.mem_cons_self)

theorem count_lt {m : SortedMap Key V} {pre post : List (Key × V)} {e : Key × V} {n : ℕ}
    (h : m.entries = pre++e::post) (hn : ∀ peer, (ofPeer peer m.entries).length ≤ n) :
    (ofPeer (ofLex e.1).1 pre).length+1 ≤ n := by
  have hle := hn (ofLex e.1).1
  simp only [h,ofPeer,List.filter_append,List.length_append,List.filter_cons,decide_true,
    if_true,List.length_cons] at hle ⊢
  omega

end Tables

theorem reads_receipt {k : Key} {r : Receipt} {t : Tally Receipt}
    (hc : t.count (ofLex k).1+1 ≤ maxPerPeer) (hh : r.horizon ≠ 0)
    (ha : ∀ b, r.ack = some b → b.1 ≠ zeroSession ∧ b.2 ≠ 0) (hn : t.1.contains k = false) :
    Reads (readReceipt true t) (encodeReceipt (k,r)) (t.add (k,r)) := by
  obtain ⟨hash,horizon,ack⟩ := r
  have hack : (if true = true ∧ ((ack.getD zeroBarrier).1,(ack.getD zeroBarrier).2) = zeroBarrier
      then none else some ((ack.getD zeroBarrier).1,(ack.getD zeroBarrier).2)) = ack := by
    cases ack with
    | none => simp
    | some b =>
        have hb : b ≠ zeroBarrier := fun h => (ha b rfl).2 (by rw [h]; rfl)
        simp [hb]
  have hany : ack.any (fun b => b.1 = zeroSession || b.2 = 0) = false := by
    cases ack with
    | none => rfl
    | some b => simpa using ha b rfl
  refine (Reads.take _ (ofLex k).1).bind ?_
  refine (Reads.take _ (ofLex k).2).bind ?_
  refine (Reads.take _ hash).bind ?_
  refine (reads_long horizon).bind ?_
  refine (Reads.take _ (ack.getD zeroBarrier).1).bind ?_
  refine (reads_long (ack.getD zeroBarrier).2).last ?_
  rw [hack]
  refine Reads.silent (Reads.check _ ?_) (Reads.pure _)
  have hk : toLex ((ofLex k).1,(ofLex k).2) = k := rfl
  simp only [hany,hk,hn,Bool.false_eq_true,or_false,not_or,not_lt]
  exact ⟨hc,hh⟩

theorem reads_receipts {l : Ledger} (h : Storable l) :
    ∃ counts, Reads (loop (readReceipt true) l.entries.size (.empty,.empty))
      (l.entries.entries.flatMap encodeReceipt) (l.entries,counts) := by
  have hloop := Reads.loop (readReceipt true) encodeReceipt Tally.add l.entries.entries
    (.empty,.empty) (by
      intro pre e post hsplit
      have hf := SortedMap.mem_iff_find?.mp
        (show (e.1,e.2) ∈ l.entries.entries by rw [hsplit]; simp)
      obtain ⟨hm,hc⟩ := foldl_add pre
      apply reads_receipt
      · rw [hc]
        exact count_lt hsplit h.entries_peer
      · exact h.horizon e.1 e.2 hf
      · exact fun b hb => h.ack e.1 e.2 b hf hb
      · rw [hm]
        exact not_contains hsplit)
  refine ⟨(l.entries.entries.foldl Tally.add (.empty,.empty)).2,?_⟩
  have hfst := (foldl_add l.entries.entries).1
  rw [SortedMap.extend_entries] at hfst
  rw [← Prod.eta (l.entries.entries.foldl Tally.add (.empty,.empty)),hfst] at hloop
  exact hloop

theorem reads_legacies {l : Ledger} (h : Storable l) :
    Reads (loop readLegacy l.legacy.size .empty) (l.legacy.entries.flatMap encodeLegacy)
      l.legacy := by
  have hloop := Reads.loop readLegacy encodeLegacy (fun m e => m.insert e.1 e.2) l.legacy.entries
    .empty (by
      intro pre e post hsplit
      have hf := SortedMap.mem_iff_find?.mp
        (show (e.1,e.2) ∈ l.legacy.entries by rw [hsplit]; simp)
      have hset := h.legacy e.1 e.2 hf
      have hn := not_contains hsplit
      refine (Reads.take _ e.1).bind ?_
      refine (Reads.take _ e.2.1).bind ?_
      refine (reads_long e.2.2).last ?_
      refine Reads.silent (Reads.check _ ?_) (Reads.pure _)
      simp only [SortedMap.extend] at hn
      simp [hset,hn])
  have hext := SortedMap.extend_entries l.legacy
  simp only [SortedMap.extend] at hext
  rw [hext] at hloop
  exact hloop

theorem reads_pendings {l : Ledger} (h : Storable l) :
    Reads (readPendings true)
      (bigEndian 2 l.pending.size++l.pending.entries.flatMap encodePending) l.pending := by
  have hlt : l.pending.size < 2^16 := h.pending_le.trans_lt (by decide)
  have hloop := Reads.loop readPending encodePending Tally.add l.pending.entries
    (.empty,.empty) (by
      intro pre e post hsplit
      have hf := SortedMap.mem_iff_find?.mp
        (show (e.1,e.2) ∈ l.pending.entries by rw [hsplit]; simp)
      obtain ⟨hm,hc⟩ := foldl_add pre
      have hn := not_contains hsplit
      have hk : toLex ((ofLex e.1).1,(ofLex e.1).2) = e.1 := rfl
      have hlt := count_lt hsplit h.pending_peer
      refine (Reads.take _ (ofLex e.1).1).bind ?_
      refine (Reads.take _ (ofLex e.1).2).bind ?_
      refine (reads_long e.2.expires).bind ?_
      refine (reads_flag e.2.sharePresence).last ?_
      refine Reads.silent (Reads.check _ ?_) (Reads.pure _)
      rw [hk,hm,hn,hc]
      simp only [Bool.false_eq_true,or_false,not_or,not_lt]
      exact ⟨h.expires e.1 e.2 hf,hlt⟩)
  have hfst := (foldl_add l.pending.entries).1
  rw [SortedMap.extend_entries] at hfst
  refine (reads_short hlt).bind ?_
  refine Reads.silent (Reads.check _ h.pending_le) ?_
  refine hloop.last ?_
  rw [hfst]
  exact Reads.pure l.pending

theorem Storable.owed_eq {l : Ledger} (h : Storable l) :
    ∀ e ∈ l.entries.entries, ReceiptStorage.owed l e = true := by
  intro e he
  have hf := SortedMap.mem_iff_find?.mp he
  cases ha : e.2.ack with
  | some b => simp [ReceiptStorage.owed,ha]
  | none =>
      obtain ⟨a,hp,hx⟩ := h.owed e.1 e.2 hf ha
      simp [ReceiptStorage.owed,ha,hp,hx]

theorem reads_ledger {l : Ledger} (h : Storable l) : Reads readLedger (encode l) (true,l) := by
  have hlt : l.entries.size < 2^16 := h.entries_le.trans_lt (by decide)
  have hlt' : l.legacy.size < 2^16 := h.legacy_le.trans_lt (by decide)
  obtain ⟨counts,hentries⟩ := reads_receipts h
  refine (reads_tag true).bind ?_
  refine (reads_long l.clockFloor).bind ?_
  refine (reads_short hlt).bind ?_
  refine Reads.silent (Reads.check _ h.entries_le) ?_
  refine hentries.bind ?_
  refine (reads_short hlt').bind ?_
  refine Reads.silent (Reads.check _ h.legacy_le) ?_
  refine (reads_legacies h).bind ?_
  refine (reads_pendings h).last ?_
  exact Reads.silent (Reads.check _ h.owed_eq) (Reads.pure _)

theorem decode_encode {l : Ledger} (h : Storable l) : decode (encode l) = .ok l := by
  simp only [decode,sequence_eq_ok,require_eq_ok,done_eq_ok]
  exact ⟨(),h.encode_length_le,((true,l),[]),(reads_ledger h).run,(),⟨rfl,rfl⟩,rfl⟩

/-! ## What an accepted archive determines -/

/-- Whatever `decode` returns is written back as the archive it was read from. -/
theorem decode_ok {input : Bytes} {l : Ledger} (h : decode input = .ok l) :
    input.length ≤ maxEncoded ∧ ∃ deferred, encodeVersion deferred l = input := by
  simp only [decode,sequence_eq_ok,require_eq_ok,done_eq_ok] at h
  obtain ⟨_,hlen,⟨⟨deferred,l'⟩,remaining⟩,_,_,⟨_,henc⟩,rfl⟩ := h
  exact ⟨hlen,deferred,henc⟩

/-- Equal concatenations of equally many items of one length are equal item by item. -/
theorem map_eq_of_flatMap_eq {α : Type} {enc : α → Bytes} {n : ℕ}
    (hlen : ∀ x, (enc x).length = n) {xs ys : List α} (hxy : xs.length = ys.length)
    (h : xs.flatMap enc = ys.flatMap enc) : xs.map enc = ys.map enc := by
  induction xs generalizing ys with
  | nil =>
      rw [List.length_nil,eq_comm,List.length_eq_zero_iff] at hxy
      rw [hxy]
  | cons x xs ih =>
      cases ys with
      | nil => simp at hxy
      | cons y ys =>
          simp only [List.flatMap_cons] at h
          obtain ⟨hx,ht⟩ := List.append_inj h ((hlen x).trans (hlen y).symm)
          rw [List.map_cons,List.map_cons,hx,ih (by simpa using hxy) ht]

/-- The hash and the horizon of a receipt. -/
def Receipt.facts (r : Receipt) : Block 32 × U64 := (r.hash,r.horizon)

theorem encodeReceipt_facts {e f : Key × Receipt} (h : encodeReceipt e = encodeReceipt f) :
    e.1 = f.1 ∧ Receipt.facts e.2 = Receipt.facts f.2 := by
  simp only [encodeReceipt] at h
  obtain ⟨hpeer,h⟩ := List.append_inj h (by simp)
  obtain ⟨hid,h⟩ := List.append_inj h (by simp)
  obtain ⟨hhash,h⟩ := List.append_inj h (by simp)
  obtain ⟨hhor,_⟩ := List.append_inj h (by simp)
  have hv := bigEndian_injective (e.2.horizon.isLt.trans_le (by norm_num))
    (f.2.horizon.isLt.trans_le (by norm_num)) hhor
  refine ⟨?_,?_⟩
  · exact congrArg toLex (Prod.ext (List.Vector.eq _ _ hpeer) (List.Vector.eq _ _ hid))
  · exact Prod.ext (List.Vector.eq _ _ hhash) (Fin.ext hv)

theorem encode_facts {l l' : Ledger} (hl : l.entries.size < 2^16) (hl' : l'.entries.size < 2^16)
    (h : encode l = encode l') :
    l.clockFloor = l'.clockFloor ∧
      l.entries.mapValues Receipt.facts = l'.entries.mapValues Receipt.facts := by
  simp only [encode,encodeVersion] at h
  obtain ⟨_,h⟩ := List.append_inj h (by simp)
  obtain ⟨hclock,h⟩ := List.append_inj h (by simp)
  obtain ⟨hcount,h⟩ := List.append_inj h (by simp)
  have hsize : l.entries.size = l'.entries.size :=
    bigEndian_injective (hl.trans_le (by norm_num)) (hl'.trans_le (by norm_num)) hcount
  obtain ⟨hentries,_⟩ := List.append_inj h (by
    rw [flatMap_length encodeReceipt_length,flatMap_length encodeReceipt_length]
    exact congrArg (·*112) hsize)
  refine ⟨?_,?_⟩
  · exact Fin.ext (bigEndian_injective (l.clockFloor.isLt.trans_le (by norm_num))
      (l'.clockFloor.isLt.trans_le (by norm_num)) hclock)
  · have hmap := map_eq_of_flatMap_eq encodeReceipt_length hsize hentries
    apply SortedMap.ext
    simp only [SortedMap.mapValues]
    apply List.ext_getElem (by simpa [SortedMap.size] using hsize)
    intro i hi hj
    rw [List.length_map] at hi hj
    have hi' : i < (l.entries.entries.map encodeReceipt).length := by simpa using hi
    have he : encodeReceipt l.entries.entries[i] = encodeReceipt l'.entries.entries[i] := by
      have := List.getElem_of_eq hmap hi'
      simpa using this
    have hf := encodeReceipt_facts he
    simp only [List.getElem_map]
    rw [hf.1,hf.2]

/-- A restart keeps the clock and the facts of every receipt. -/
theorem decode_encode_facts {l l' : Ledger} (hl : l.entries.size ≤ maxReceipts)
    (h : decode (encode l) = .ok l') :
    l'.clockFloor = l.clockFloor ∧ l'.entries.size = l.entries.size ∧
      l'.entries.mapValues Receipt.facts = l.entries.mapValues Receipt.facts := by
  obtain ⟨hlen,deferred,henc⟩ := decode_ok h
  cases deferred with
  | false =>
      have htag := (List.append_inj henc (by simp)).1
      exact absurd htag (by decide)
  | true =>
      have hsize : l'.entries.size < 2^16 := by
        rw [← henc] at hlen
        have hle := encode_length l'
        rw [encode] at hle
        have hm : maxEncoded = 746515 := rfl
        omega
      have hlt : l.entries.size < 2^16 := hl.trans_lt (by decide)
      obtain ⟨hc,hf⟩ := encode_facts hsize hlt henc
      refine ⟨hc,?_,hf⟩
      have := congrArg SortedMap.size hf
      simpa [SortedMap.size,SortedMap.mapValues] using this

end Gcoms.ReceiptStorage
