import Gcoms.RatchetStorage

/-!
# Prepared ratchet transactions

`prepare` runs an operation on a copy of the session and seals the result;
`commit` replaces the session by that copy, provided that the two message
counters have not moved since. The counters identify a session state only as
long as every committed transaction moves one of them. A receive below the
receive counter consumes a skipped key and moves neither.

The module first says what one operation can do to a session, whoever sent the
frame, and then runs a desk of outstanding transactions against one session.
-/
namespace Gcoms.RatchetTransactions
open ByteCodec Primitives RatchetFrame KeyChains RatchetSession RatchetStorage

/-! ## What one operation can do -/

/-- The effect of a successful send on the fields that are stored. -/
structure SendEffect (s t : Session) (now : ℕ) : Prop where
  sendCtr : t.sendCtr = s.sendCtr+1
  recvCtr : t.recvCtr = s.recvCtr
  skipped : t.skipped = s.skipped
  peerKem : t.peerKem = s.peerKem
  kemDk : t.kemDk = s.kemDk
  pqEvery : t.pqEvery = s.pqEvery
  pqAfter : t.pqAfter = s.pqAfter
  oldKps : t.oldKps = s.oldKps ∨ t.oldKps.length ≤ oldKpCap
  epochPqCt : t.epochPqCt = s.epochPqCt ∨ ∀ ct, t.epochPqCt = some ct → ct.length = kemCtLen
  sentSincePq : t.sentSincePq < 2^32
  rotatedAt : t.sendRotatedAt = s.sendRotatedAt ∨ t.sendRotatedAt = s.sendCtr+1
  lastPq : t.lastPq = s.lastPq ∨ t.lastPq = now

/-- The effect of a successful receive of counter `ctr`. -/
structure ReceiveEffect (s t : Session) (ctr now : ℕ) : Prop where
  keeps : t = { s with
    recvChain := t.recvChain
    recvCtr := t.recvCtr
    peerPub := t.peerPub
    skipped := t.skipped }
  recvCtr : t.recvCtr = max s.recvCtr ctr
  length : t.skipped.length ≤ maxSkip
  stored : ∀ k ∈ t.skipped, k ∈ s.skipped ∨ k.storedAt = now
  old : ctr ≤ s.recvCtr → ctr ∈ s.skipped.map SkippedKey.ctr ∧
    (t.skipped.map SkippedKey.ctr).Sublist ((s.skipped.map SkippedKey.ctr).erase ctr)
  new : s.recvCtr < ctr → (t.skipped.map SkippedKey.ctr).Sublist
    (s.skipped.map SkippedKey.ctr++List.range' (s.recvCtr+1) (ctr-1-s.recvCtr))

section Effects
variable (P : Suite)

theorem sendFrame_effect {s t : Session} {now : ℕ} {chain : Block 32} {payload : Bytes}
    (hctr : t.sendCtr = s.sendCtr) (hrecv : t.recvCtr = s.recvCtr) (hskip : t.skipped = s.skipped)
    (hkem : t.peerKem = s.peerKem) (hdk : t.kemDk = s.kemDk) (hevery : t.pqEvery = s.pqEvery)
    (hafter : t.pqAfter = s.pqAfter) (hold : t.oldKps = s.oldKps ∨ t.oldKps.length ≤ oldKpCap)
    (hct : t.epochPqCt = s.epochPqCt ∨ ∀ ct, t.epochPqCt = some ct → ct.length = kemCtLen)
    (hrot : t.sendRotatedAt = s.sendRotatedAt ∨ t.sendRotatedAt = s.sendCtr+1)
    (hpq : t.lastPq = s.lastPq ∨ t.lastPq = now) :
    SendEffect s (t.sendFrame P chain payload).1 now := by
  refine ⟨?_,hrecv,hskip,hkem,hdk,hevery,hafter,hold,hct,?_,hrot,hpq⟩
  · simp only [Session.sendFrame,hctr]
  · simp only [Session.sendFrame]
    omega

theorem sendAt_effect {s t : Session} {payload : Bytes} {now : ℕ} {draw : Draw} {frame : Frame}
    (h : s.sendAt P payload now draw = (t,.ok frame)) : SendEffect s t now := by
  have hlen : ((s.oldKps++[(s.myPub P,s.myKp)]).drop
      ((s.oldKps++[(s.myPub P,s.myKp)]).length-oldKpCap)).length ≤ oldKpCap := by
    rw [List.length_drop]
    omega
  cases hr : s.rotates with
  | none =>
      rw [Session.sendAt_plain P hr] at h
      rw [← (Prod.mk.inj h).1]
      exact sendFrame_effect P rfl rfl rfl rfl rfl rfl rfl (.inl rfl) (.inl rfl) (.inl rfl) (.inl rfl)
  | some peer =>
      simp only [Session.sendAt,hr,Session.beginEpoch] at h
      cases hd : (if s.pqDue now then s.peerKem else none) with
      | none =>
          simp only [hd] at h
          rw [← (Prod.mk.inj h).1]
          exact sendFrame_effect P rfl rfl rfl rfl rfl rfl rfl (.inr hlen)
            (.inr (fun _ hct => absurd hct (by simp))) (.inr rfl) (.inl rfl)
      | some ek =>
          simp only [hd] at h
          cases hv : P.mlKem768.validKey ek with
          | false => simp [hv] at h
          | true =>
              simp only [hv,Bool.true_eq_false,if_false] at h
              rw [← (Prod.mk.inj h).1]
              refine sendFrame_effect P rfl rfl rfl rfl rfl rfl rfl (.inr hlen) (.inr ?_)
                (.inr rfl) (.inr rfl)
              intro ct hct
              rw [← Option.some.inj hct]
              exact List.Vector.toList_length _

/-- Pruning keeps a sublist, at most `maxSkip` long. -/
theorem pruneSkipped_sublist (s : Session) (now : ℕ) :
    (s.pruneSkipped now).skipped.Sublist s.skipped :=
  (List.drop_sublist _ _).trans List.filter_sublist

theorem pruneSkipped_length (s : Session) (now : ℕ) :
    (s.pruneSkipped now).skipped.length ≤ maxSkip := by
  simp only [Session.pruneSkipped,List.length_drop]
  omega

theorem map_eraseP_ctr (keys : List SkippedKey) (ctr : ℕ) :
    (keys.eraseP (fun key => key.ctr = ctr)).map SkippedKey.ctr =
      (keys.map SkippedKey.ctr).erase ctr := by
  induction keys with
  | nil => rfl
  | cons k keys ih =>
      by_cases hk : k.ctr = ctr
      · simp [hk]
      · simp [hk,ih]

theorem receiveSkipped_ok {s t : Session} {frame : Frame} {payload : Bytes}
    (h : s.receiveSkipped P frame = (t,.ok payload)) :
    frame.ctr ∈ s.skipped.map SkippedKey.ctr ∧
      t = { s with skipped := s.skipped.eraseP (fun key => key.ctr = frame.ctr) } := by
  unfold Session.receiveSkipped at h
  cases hf : s.skipped.find? (fun key => key.ctr = frame.ctr) with
  | none => simp [hf] at h
  | some key =>
      simp only [hf] at h
      have hmem := List.mem_of_find?_eq_some hf
      have hctr : key.ctr = frame.ctr := by simpa using List.find?_some hf
      cases ho : openMessage P (key.messageKey,key.nonce) frame.ct frame.headerBytes with
      | none => simp [ho] at h
      | some m =>
          simp only [ho] at h
          exact ⟨List.mem_map.mpr ⟨key,hmem,hctr⟩,(Prod.mk.inj h).1.symm⟩

theorem storeKeys_ctr (now : ℕ) (keys : List (ℕ × (Block 32 × Block 12))) :
    (Session.storeKeys now keys).map SkippedKey.ctr = keys.map Prod.fst := by
  simp [Session.storeKeys,Function.comp_def]

theorem receiveNew_ok {s t : Session} {frame : Frame} {now : ℕ} {payload : Bytes}
    (hgt : s.recvCtr < frame.ctr) (h : s.receiveNew P frame now = (t,.ok payload)) :
    ∃ (chain : Block 32) (keys : List (ℕ × (Block 32 × Block 12))),
      keys.map Prod.fst = List.range' (s.recvCtr+1) (frame.ctr-1-s.recvCtr) ∧
      t = Session.pruneSkipped
        { s with
          recvChain := chain
          recvCtr := frame.ctr
          peerPub := some frame.senderPub
          skipped := s.skipped++Session.storeKeys now keys } now := by
  have hsum : frame.pn < frame.ctr →
      (if some frame.senderPub ≠ s.peerPub then frame.pn-s.recvCtr else frame.ctr-1-s.recvCtr)+
      (if some frame.senderPub ≠ s.peerPub then frame.ctr-1-max frame.pn s.recvCtr else 0) =
        frame.ctr-1-s.recvCtr := by
    intro hpn
    split_ifs <;> omega
  simp only [Session.receiveNew] at h
  by_cases hpn : frame.pn ≥ frame.ctr
  · simp [hpn] at h
  rw [if_neg hpn] at h
  replace hsum := hsum (by omega)
  generalize (if some frame.senderPub ≠ s.peerPub then frame.pn-s.recvCtr
    else frame.ctr-1-s.recvCtr) = before at h hsum
  generalize (if some frame.senderPub ≠ s.peerPub then frame.ctr-1-max frame.pn s.recvCtr
    else 0) = after at h hsum
  split_ifs at h with hgap hrot
  · simp at h
  all_goals
    split at h
    · simp at h
    · rename_i chain hmix
      split at h
      · simp at h
      · refine ⟨_,_,?_,(Prod.mk.inj h).1.symm⟩
        rw [List.map_append,advance_counters,advance_counters,← hsum,List.range'_append_1]

theorem receiveAt_effect {s t : Session} {frame : Frame} {now : ℕ} {payload : Bytes}
    (h : s.receiveAt P frame now = (t,.ok payload)) : ReceiveEffect s t frame.ctr now := by
  have hsub := pruneSkipped_sublist s now
  have hlen := pruneSkipped_length s now
  have hrecv : (s.pruneSkipped now).recvCtr = s.recvCtr := rfl
  simp only [Session.receiveAt] at h
  by_cases hle : frame.ctr ≤ s.recvCtr
  · rw [if_pos (hrecv ▸ hle)] at h
    obtain ⟨hmem,rfl⟩ := receiveSkipped_ok P h
    refine ⟨rfl,by simp only [hrecv]; omega,?_,?_,fun _ => ⟨?_,?_⟩,fun hgt => absurd hle (by omega)⟩
    · exact (List.eraseP_sublist.length_le).trans hlen
    · exact fun k hk => .inl (hsub.subset (List.mem_of_mem_eraseP hk))
    · exact (hsub.map _).subset hmem
    · rw [map_eraseP_ctr]
      exact (hsub.map _).erase _
  · rw [if_neg (hrecv ▸ hle)] at h
    obtain ⟨chain,keys,hkeys,rfl⟩ := receiveNew_ok P (by rw [hrecv]; omega) h
    refine ⟨?_,?_,pruneSkipped_length _ _,?_,fun hle' => absurd hle' hle,fun _ => ?_⟩
    · simp only [Session.pruneSkipped]
    · change frame.ctr = max s.recvCtr frame.ctr
      omega
    · intro k hk
      rcases List.mem_append.mp ((pruneSkipped_sublist _ _).subset hk) with hk | hk
      · exact .inl (hsub.subset hk)
      · obtain ⟨_,_,rfl⟩ := List.mem_map.mp hk
        exact .inr rfl
    · refine ((pruneSkipped_sublist _ _).map _).trans ?_
      rw [List.map_append,storeKeys_ctr,hkeys]
      exact (hsub.map _).append (List.Sublist.refl _)

end Effects

theorem SendEffect.sound {s t : Session} {now : ℕ} (h : SendEffect s t now) (hs : Sound s)
    (hlt : s.sendCtr+1 < 2^64) : Sound t := by
  refine ⟨by rw [h.sendCtr]; exact hlt,by rw [h.recvCtr]; exact hs.recvCtr,?_,
    by rw [h.peerKem]; exact hs.peerKem,?_,h.sentSincePq,by rw [h.pqEvery]; exact hs.pqEvery,?_,
    by rw [h.skipped]; exact hs.skipped,by rw [h.skipped,h.recvCtr]; exact hs.skipped_le⟩
  · rcases h.oldKps with hk | hk
    · rw [hk]
      exact hs.oldKps
    · exact hk
  · rcases h.epochPqCt with hk | hk
    · rw [hk]
      exact hs.epochPqCt
    · exact hk
  · have hrot := hs.rotatedAt
    rw [h.sendCtr]
    rcases h.rotatedAt with hk | hk <;> omega

theorem SendEffect.notBefore {s t : Session} {now : ℕ} (h : SendEffect s t now)
    (hn : NotBefore s now) : NotBefore t now := by
  refine ⟨?_,by rw [h.skipped]; exact hn.2⟩
  rcases h.lastPq with hk | hk
  · rw [hk]
    exact hn.1
  · exact hk.le

/-- Skipped counters are distinct and at most the receive counter. A session starts
without any, and every operation keeps this. -/
structure Tidy (s : Session) : Prop where
  nodup : (s.skipped.map SkippedKey.ctr).Nodup
  le : ∀ c ∈ s.skipped.map SkippedKey.ctr, c ≤ s.recvCtr

theorem SendEffect.tidy {s t : Session} {now : ℕ} (h : SendEffect s t now) (hs : Tidy s) :
    Tidy t := by
  refine ⟨?_,?_⟩
  · rw [h.skipped]
    exact hs.nodup
  · rw [h.skipped,h.recvCtr]
    exact hs.le

/-- A counter whose key is gone does not get a key again. -/
theorem ReceiveEffect.gone {s t : Session} {ctr now c : ℕ} (h : ReceiveEffect s t ctr now)
    (hc : c ≤ s.recvCtr) (hgone : c ∉ s.skipped.map SkippedKey.ctr) :
    c ∉ t.skipped.map SkippedKey.ctr := by
  intro hmem
  by_cases hle : ctr ≤ s.recvCtr
  · exact hgone (List.mem_of_mem_erase ((h.old hle).2.subset hmem))
  · rcases List.mem_append.mp ((h.new (by omega)).subset hmem) with hm | hm
    · exact hgone hm
    · rw [List.mem_range'_1] at hm
      omega

/-- The received counter has no key afterwards. -/
theorem ReceiveEffect.spent {s t : Session} {ctr now : ℕ} (h : ReceiveEffect s t ctr now)
    (hs : Tidy s) : ctr ∉ t.skipped.map SkippedKey.ctr := by
  intro hmem
  by_cases hle : ctr ≤ s.recvCtr
  · exact hs.nodup.not_mem_erase ((h.old hle).2.subset hmem)
  · rcases List.mem_append.mp ((h.new (by omega)).subset hmem) with hm | hm
    · exact hle (hs.le ctr hm)
    · rw [List.mem_range'_1] at hm
      omega

theorem ReceiveEffect.tidy {s t : Session} {ctr now : ℕ} (h : ReceiveEffect s t ctr now)
    (hs : Tidy s) : Tidy t := by
  have hrecv := h.recvCtr
  by_cases hle : ctr ≤ s.recvCtr
  · have hsub := (h.old hle).2
    refine ⟨(hs.nodup.erase _).sublist hsub,fun c hc => ?_⟩
    have := hs.le c (List.mem_of_mem_erase (hsub.subset hc))
    omega
  · have hsub := h.new (by omega)
    refine ⟨List.Nodup.sublist hsub ?_,fun c hc => ?_⟩
    · refine List.Nodup.append hs.nodup List.nodup_range' ?_
      intro c hc hr
      have := hs.le c hc
      rw [List.mem_range'_1] at hr
      omega
    · rcases List.mem_append.mp (hsub.subset hc) with hc | hc
      · have := hs.le c hc
        omega
      · rw [List.mem_range'_1] at hc
        omega

theorem ReceiveEffect.sound {s t : Session} {ctr now : ℕ} (h : ReceiveEffect s t ctr now)
    (hs : Sound s) (ht : Tidy s) (hlt : ctr < 2^64) : Sound t := by
  have hrecv := h.recvCtr
  have hslt := hs.recvCtr
  have hle : ∀ k ∈ t.skipped, k.ctr ≤ t.recvCtr := fun k hk =>
    (h.tidy ht).le k.ctr (List.mem_map_of_mem hk)
  have hlen := h.length
  rw [h.keeps] at hrecv hle hlen ⊢
  exact ⟨hs.sendCtr,by omega,hs.oldKps,hs.peerKem,hs.epochPqCt,hs.sentSincePq,hs.pqEvery,
    hs.rotatedAt,hlen,hle⟩

theorem ReceiveEffect.notBefore {s t : Session} {ctr now : ℕ} (h : ReceiveEffect s t ctr now)
    (hn : NotBefore s now) : NotBefore t now := by
  refine ⟨?_,fun k hk => ?_⟩
  · rw [h.keeps]
    exact hn.1
  · rcases h.stored k hk with hk | hk
    · exact hn.2 k hk
    · exact hk.le

/-! ## Prepared transactions -/

structure PreparedSend where
  baseSendCtr : ℕ
  baseRecvCtr : ℕ
  wire : Bytes
  sealed : Bytes
  next : Session
  deriving DecidableEq

structure PreparedReceive where
  baseSendCtr : ℕ
  baseRecvCtr : ℕ
  plaintext : Bytes
  sealed : Bytes
  next : Session
  deriving DecidableEq

section Transactions
variable (P : Suite)

def prepareSendAt (s : Session) (payload : Bytes) (wrappingKey : Block 32)
    (context : SessionContext) (attachment : Bytes) (now : ℕ) (draw : Draw) (nonce : Block 12) :
    Except CryptoError PreparedSend :=
  match s.sendAt P payload now draw with
  | (_,.error e) => .error e
  | (next,.ok frame) =>
      match sealStateAt P next wrappingKey context attachment now nonce with
      | .error e => .error e
      | .ok sealed => .ok ⟨s.sendCtr,s.recvCtr,frame.encode,sealed,next⟩

def prepareReceiveAt (s : Session) (frame : Frame) (wrappingKey : Block 32)
    (context : SessionContext) (now : ℕ) (nonce : Block 12) :
    Except CryptoError PreparedReceive :=
  match s.receiveAt P frame now with
  | (_,.error e) => .error e
  | (next,.ok plaintext) =>
      match sealStateAt P next wrappingKey context [] now nonce with
      | .error e => .error e
      | .ok sealed => .ok ⟨s.sendCtr,s.recvCtr,plaintext,sealed,next⟩

def commitSend (s : Session) (p : PreparedSend) : Session × Except CryptoError Unit :=
  if s.sendCtr ≠ p.baseSendCtr ∨ s.recvCtr ≠ p.baseRecvCtr then (s,.error .staleTransaction)
  else (p.next,.ok ())

def commitReceive (s : Session) (p : PreparedReceive) : Session × Except CryptoError Unit :=
  if s.sendCtr ≠ p.baseSendCtr ∨ s.recvCtr ≠ p.baseRecvCtr then (s,.error .staleTransaction)
  else (p.next,.ok ())

theorem prepareSendAt_ok {s : Session} {payload : Bytes} {wrappingKey : Block 32}
    {context : SessionContext} {attachment : Bytes} {now : ℕ} {draw : Draw} {nonce : Block 12}
    {p : PreparedSend}
    (h : prepareSendAt P s payload wrappingKey context attachment now draw nonce = .ok p) :
    ∃ frame, s.sendAt P payload now draw = (p.next,.ok frame) ∧
      sealStateAt P p.next wrappingKey context attachment now nonce = .ok p.sealed ∧
      p.baseSendCtr = s.sendCtr ∧ p.baseRecvCtr = s.recvCtr ∧ p.wire = frame.encode := by
  unfold prepareSendAt at h
  rcases hs : s.sendAt P payload now draw with ⟨next,e | frame⟩
  · simp [hs] at h
  · simp only [hs] at h
    cases hseal : sealStateAt P next wrappingKey context attachment now nonce with
    | error e => simp [hseal] at h
    | ok sealed =>
        simp only [hseal] at h
        cases h
        exact ⟨frame,rfl,hseal,rfl,rfl,rfl⟩

theorem prepareReceiveAt_ok {s : Session} {frame : Frame} {wrappingKey : Block 32}
    {context : SessionContext} {now : ℕ} {nonce : Block 12} {p : PreparedReceive}
    (h : prepareReceiveAt P s frame wrappingKey context now nonce = .ok p) :
    s.receiveAt P frame now = (p.next,.ok p.plaintext) ∧
      sealStateAt P p.next wrappingKey context [] now nonce = .ok p.sealed ∧
      p.baseSendCtr = s.sendCtr ∧ p.baseRecvCtr = s.recvCtr := by
  unfold prepareReceiveAt at h
  rcases hs : s.receiveAt P frame now with ⟨next,e | plaintext⟩
  · simp [hs] at h
  · simp only [hs] at h
    cases hseal : sealStateAt P next wrappingKey context [] now nonce with
    | error e => simp [hseal] at h
    | ok sealed =>
        simp only [hseal] at h
        cases h
        exact ⟨rfl,hseal,rfl,rfl⟩

end Transactions

/-! ## A desk of outstanding transactions -/

/-- A prepared transaction; a receive remembers which frame it was prepared for. -/
inductive Txn where
  | send (p : PreparedSend)
  | receive (frame : Frame) (p : PreparedReceive)

namespace Txn

def next : Txn → Session
  | .send p => p.next
  | .receive _ p => p.next

def base : Txn → ℕ × ℕ
  | .send p => (p.baseSendCtr,p.baseRecvCtr)
  | .receive _ p => (p.baseSendCtr,p.baseRecvCtr)

def commit (s : Session) : Txn → Session × Except CryptoError Unit
  | .send p => commitSend s p
  | .receive _ p => commitReceive s p

/-- The counters and payloads that a commit surfaces. -/
def surfaced : Txn → List (ℕ × Bytes)
  | .send _ => []
  | .receive frame p => [(frame.ctr,p.plaintext)]

/-- The transaction moves a counter of the session it was prepared from. -/
def Advances (s : Session) : Txn → Prop
  | .send _ => True
  | .receive frame _ => s.recvCtr < frame.ctr

def counters (s : Session) : ℕ × ℕ := (s.sendCtr,s.recvCtr)

/-- Prepared from `s`, at some time and under some wrapping key. -/
def From (P : Suite) (s : Session) : Txn → Prop
  | .send p => ∃ payload wrappingKey context attachment now draw nonce,
      prepareSendAt P s payload wrappingKey context attachment now draw nonce = .ok p
  | .receive frame p => ∃ wrappingKey context now nonce,
      prepareReceiveAt P s frame wrappingKey context now nonce = .ok p

theorem commit_of_eq {s : Session} {τ : Txn} (h : counters s = τ.base) :
    τ.commit s = (τ.next,.ok ()) := by
  cases τ with
  | send p =>
      obtain ⟨h₁,h₂⟩ := Prod.mk.inj h
      simp [commit,commitSend,next,h₁,h₂]
  | receive frame p =>
      obtain ⟨h₁,h₂⟩ := Prod.mk.inj h
      simp [commit,commitReceive,next,h₁,h₂]

theorem commit_of_ne {s : Session} {τ : Txn} (h : counters s ≠ τ.base) :
    τ.commit s = (s,.error .staleTransaction) := by
  have hor : ∀ a b : ℕ, counters s ≠ (a,b) → s.sendCtr ≠ a ∨ s.recvCtr ≠ b := by
    intro a b hne
    by_contra hc
    push Not at hc
    exact hne (Prod.ext hc.1 hc.2)
  cases τ with
  | send p => rw [commit,commitSend,if_pos (hor _ _ h)]
  | receive frame p => rw [commit,commitReceive,if_pos (hor _ _ h)]

theorem commit_ok {s t : Session} {τ : Txn} (h : τ.commit s = (t,.ok ())) :
    counters s = τ.base ∧ t = τ.next := by
  by_cases hc : counters s = τ.base
  · rw [commit_of_eq hc] at h
    exact ⟨hc,(Prod.mk.inj h).1.symm⟩
  · rw [commit_of_ne hc] at h
    simp at h

theorem commit_error {s t : Session} {τ : Txn} {e : CryptoError} (h : τ.commit s = (t,.error e)) :
    t = s := by
  by_cases hc : counters s = τ.base
  · rw [commit_of_eq hc] at h
    simp at h
  · rw [commit_of_ne hc] at h
    exact (Prod.mk.inj h).1.symm

theorem commit_stale {s : Session} {τ : Txn} :
    τ.commit s = (s,.error .staleTransaction) ↔ counters s ≠ τ.base := by
  refine ⟨fun h hc => ?_,commit_of_ne⟩
  rw [commit_of_eq hc] at h
  simp at h

variable {P : Suite}

theorem From.base_eq {s : Session} {τ : Txn} (h : τ.From P s) : τ.base = counters s := by
  cases τ with
  | send p =>
      obtain ⟨_,_,_,_,_,_,_,hp⟩ := h
      obtain ⟨_,_,_,h₁,h₂,_⟩ := prepareSendAt_ok P hp
      exact Prod.ext h₁ h₂
  | receive frame p =>
      obtain ⟨_,_,_,_,hp⟩ := h
      obtain ⟨_,_,h₁,h₂⟩ := prepareReceiveAt_ok P hp
      exact Prod.ext h₁ h₂

/-- A prepared receive has the effect of receiving its frame. -/
theorem From.received {s : Session} {frame : Frame} {p : PreparedReceive}
    (h : (Txn.receive frame p).From P s) : ∃ now, ReceiveEffect s p.next frame.ctr now := by
  obtain ⟨_,_,now,_,hp⟩ := h
  exact ⟨now,receiveAt_effect P (prepareReceiveAt_ok P hp).1⟩

theorem From.sent {s : Session} {p : PreparedSend} (h : (Txn.send p).From P s) :
    ∃ now, SendEffect s p.next now := by
  obtain ⟨_,_,_,_,now,_,_,hp⟩ := h
  obtain ⟨_,hs,_⟩ := prepareSendAt_ok P hp
  exact ⟨now,sendAt_effect P hs⟩

theorem From.counters_le {s : Session} {τ : Txn} (h : τ.From P s) :
    counters s ≤ counters τ.next := by
  cases τ with
  | send p =>
      obtain ⟨_,he⟩ := h.sent
      exact ⟨by change s.sendCtr ≤ p.next.sendCtr; rw [he.sendCtr]; omega,he.recvCtr.ge⟩
  | receive frame p =>
      obtain ⟨_,he⟩ := h.received
      refine ⟨?_,?_⟩
      · change s.sendCtr ≤ p.next.sendCtr
        rw [he.keeps]
      · change s.recvCtr ≤ p.next.recvCtr
        rw [he.recvCtr]
        omega

/-- The counters move exactly when the transaction is a send or a receive above them. -/
theorem From.counters_ne {s : Session} {τ : Txn} (h : τ.From P s) :
    counters τ.next ≠ counters s ↔ τ.Advances s := by
  cases τ with
  | send p =>
      obtain ⟨_,he⟩ := h.sent
      have hc := he.sendCtr
      simp only [counters,next,Advances,ne_eq,Prod.mk.injEq,iff_true]
      omega
  | receive frame p =>
      obtain ⟨_,he⟩ := h.received
      have hr := he.recvCtr
      have hs : p.next.sendCtr = s.sendCtr := by rw [he.keeps]
      simp only [counters,next,Advances,ne_eq,Prod.mk.injEq]
      omega

end Txn

/-- One session with the transactions prepared so far. Each is numbered by the
commits that preceded its preparation. -/
structure Desk where
  session : Session
  commits : ℕ
  outstanding : List (ℕ × Txn)
  surfaced : List (ℕ × Bytes)

namespace Desk
variable (P : Suite)

def start (s : Session) : Desk := ⟨s,0,[],[]⟩

/-- The steps of a desk; a commit may be subject to a condition on the session, the
committed transaction and the other outstanding ones. -/
inductive Step (may : Session → Txn → List (ℕ × Txn) → Prop) : Desk → Desk → Prop
  | prepare {d : Desk} {τ : Txn} (h : τ.From P d.session) :
      Step may d { d with outstanding := (d.commits,τ)::d.outstanding }
  | commit {d : Desk} {before after : List (ℕ × Txn)} {n : ℕ} {τ : Txn} {s : Session}
      (ho : d.outstanding = before++(n,τ)::after) (hm : may d.session τ (before++after))
      (h : τ.commit d.session = (s,.ok ())) :
      Step may d ⟨s,d.commits+1,before++after,τ.surfaced++d.surfaced⟩
  | reject {d : Desk} {before after : List (ℕ × Txn)} {n : ℕ} {τ : Txn} {s : Session}
      {e : CryptoError} (ho : d.outstanding = before++(n,τ)::after)
      (h : τ.commit d.session = (s,.error e)) :
      Step may d { d with session := s, outstanding := before++after }
  | discard {d : Desk} {before after : List (ℕ × Txn)} {x : ℕ × Txn}
      (ho : d.outstanding = before++x::after) :
      Step may d { d with outstanding := before++after }

/-- The committed transaction moves a counter, or no other outstanding one could still
be committed. -/
def Exclusive (s : Session) (τ : Txn) (others : List (ℕ × Txn)) : Prop :=
  τ.Advances s ∨ ∀ x ∈ others, x.2.base ≠ Txn.counters s

structure Inv (d : Desk) : Prop where
  current : ∀ x ∈ d.outstanding, x.1 = d.commits → x.2.From P d.session
  numbered : ∀ x ∈ d.outstanding, x.1 ≤ d.commits
  stale : ∀ x ∈ d.outstanding, x.1 < d.commits →
    x.2.base ≤ Txn.counters d.session ∧ x.2.base ≠ Txn.counters d.session
  tidy : Tidy d.session
  spent : ∀ x ∈ d.surfaced, x.1 ≤ d.session.recvCtr ∧
    x.1 ∉ d.session.skipped.map SkippedKey.ctr
  once : (d.surfaced.map Prod.fst).Nodup

variable {P}

theorem inv_start {s : Session} (h : Tidy s) : Inv P (start s) :=
  ⟨by simp [start],by simp [start],by simp [start],h,by simp [start],by simp [start]⟩

/-- Removing transactions keeps everything. -/
theorem Inv.drop {d : Desk} (h : Inv P d) {rest : List (ℕ × Txn)} (hsub : rest ⊆ d.outstanding) :
    Inv P { d with outstanding := rest } :=
  ⟨fun x hx => h.current x (hsub hx),fun x hx => h.numbered x (hsub hx),
    fun x hx => h.stale x (hsub hx),h.tidy,h.spent,h.once⟩

theorem subset_middle {α : Type} (before after : List α) (x : α) :
    before++after ⊆ before++x::after := by
  intro y hy
  rcases List.mem_append.mp hy with hy | hy
  · exact List.mem_append_left _ hy
  · exact List.mem_append_right _ (List.mem_cons_of_mem _ hy)

/-- A transaction that commits was prepared from the current session. -/
theorem Inv.committed {d : Desk} (h : Inv P d) {n : ℕ} {τ : Txn} {s : Session}
    (hmem : (n,τ) ∈ d.outstanding) (hc : τ.commit d.session = (s,.ok ())) :
    τ.From P d.session ∧ s = τ.next := by
  obtain ⟨hbase,rfl⟩ := Txn.commit_ok hc
  have hle := h.numbered _ hmem
  have hn : n = d.commits := by
    by_contra hne
    have hlt : n < d.commits := by
      change n ≤ d.commits at hle
      omega
    exact (h.stale _ hmem hlt).2 hbase.symm
  exact ⟨h.current _ hmem hn,rfl⟩

/-- After an exclusive commit every other transaction has fallen behind. -/
theorem Inv.behind {d : Desk} (h : Inv P d) {τ : Txn} {others : List (ℕ × Txn)}
    (hsub : others ⊆ d.outstanding) (hf : τ.From P d.session) (he : Exclusive d.session τ others) :
    ∀ x ∈ others, x.2.base ≤ Txn.counters τ.next ∧ x.2.base ≠ Txn.counters τ.next := by
  intro x hx
  have hle := hf.counters_le
  have hnum := h.numbered x (hsub hx)
  rcases lt_or_eq_of_le hnum with hlt | heq
  · obtain ⟨h₁,h₂⟩ := h.stale x (hsub hx) hlt
    exact ⟨h₁.trans hle,fun hb => h₂ (le_antisymm h₁ (hb ▸ hle))⟩
  · have hbase := (h.current x (hsub hx) heq).base_eq
    rcases he with ha | hnone
    · exact ⟨hbase ▸ hle,fun hb => hf.counters_ne.mpr ha (hb ▸ hbase)⟩
    · exact absurd hbase (hnone x hx)

theorem inv_commit {d : Desk} (h : Inv P d) {before after : List (ℕ × Txn)} {n : ℕ} {τ : Txn}
    {s : Session} (ho : d.outstanding = before++(n,τ)::after)
    (he : Exclusive d.session τ (before++after)) (hc : τ.commit d.session = (s,.ok ())) :
    Inv P ⟨s,d.commits+1,before++after,τ.surfaced++d.surfaced⟩ := by
  have hsub : before++after ⊆ d.outstanding := ho ▸ subset_middle _ _ _
  have hmem : (n,τ) ∈ d.outstanding := by simp [ho]
  obtain ⟨hf,rfl⟩ := h.committed hmem hc
  have hbehind := h.behind hsub hf he
  have hnum : ∀ x ∈ before++after, x.1 ≤ d.commits := fun x hx => h.numbered x (hsub hx)
  have hout : ∀ x ∈ before++after, x.1 = d.commits+1 → x.2.From P τ.next := fun x hx heq =>
    absurd (hnum x hx) (by omega)
  have hnum' : ∀ x ∈ before++after, x.1 ≤ d.commits+1 := fun x hx => (hnum x hx).trans (by omega)
  cases τ with
  | send p =>
      obtain ⟨now,heff⟩ := hf.sent
      refine ⟨hout,hnum',fun x hx _ => hbehind x hx,heff.tidy h.tidy,?_,h.once⟩
      intro x hx
      have hs := h.spent x hx
      change x.1 ≤ p.next.recvCtr ∧ x.1 ∉ p.next.skipped.map SkippedKey.ctr
      rw [heff.recvCtr,heff.skipped]
      exact hs
  | receive frame p =>
      obtain ⟨now,heff⟩ := hf.received
      have hrecv := heff.recvCtr
      have hgone : ∀ x ∈ d.surfaced, x.1 ≠ frame.ctr := by
        rintro x hx heq
        obtain ⟨hle,hns⟩ := h.spent x hx
        rw [heq] at hle hns
        exact hns (heff.old hle).1
      refine ⟨hout,hnum',fun x hx _ => hbehind x hx,heff.tidy h.tidy,?_,?_⟩
      · intro x hx
        change x.1 ≤ p.next.recvCtr ∧ x.1 ∉ p.next.skipped.map SkippedKey.ctr
        rcases List.mem_cons.mp hx with rfl | hx
        · exact ⟨by simp only [hrecv]; omega,heff.spent h.tidy⟩
        · obtain ⟨hle,hns⟩ := h.spent x hx
          exact ⟨by omega,heff.gone hle hns⟩
      · refine List.nodup_cons.mpr ⟨?_,h.once⟩
        intro hmem
        obtain ⟨x,hx,heq⟩ := List.mem_map.mp hmem
        exact hgone x hx heq

theorem inv_step {d d' : Desk} (h : Inv P d) (hs : Step P Exclusive d d') : Inv P d' := by
  cases hs with
  | prepare hf =>
      refine ⟨?_,?_,?_,h.tidy,h.spent,h.once⟩
      · intro x hx heq
        rcases List.mem_cons.mp hx with rfl | hx
        · exact hf
        · exact h.current x hx heq
      · intro x hx
        rcases List.mem_cons.mp hx with rfl | hx
        · exact le_rfl
        · exact h.numbered x hx
      · intro x hx hlt
        rcases List.mem_cons.mp hx with rfl | hx
        · exact absurd hlt (lt_irrefl _)
        · exact h.stale x hx hlt
  | commit ho hm hc => exact inv_commit h ho hm hc
  | reject ho hc =>
      have hs := Txn.commit_error hc
      subst hs
      exact h.drop (ho ▸ subset_middle _ _ _)
  | discard ho => exact h.drop (ho ▸ subset_middle _ _ _)

theorem inv_run {s : Session} (hs : Tidy s) {d : Desk}
    (h : Relation.ReflTransGen (Step P Exclusive) (start s) d) : Inv P d := by
  induction h with
  | refl => exact inv_start hs
  | tail _ hstep ih => exact inv_step ih hstep

/-- Every outstanding transaction that was prepared before the last commit is stale. -/
def Serial (d : Desk) : Prop := ∀ x ∈ d.outstanding, x.1 < d.commits →
  x.2.commit d.session = (d.session,.error .staleTransaction)

/-- In every run whose commits are exclusive, each earlier transaction is rejected and
changes nothing, no counter is surfaced twice, and no key of a surfaced counter is
ever present again. At each state of such a run, the next commit makes all others
stale exactly if it is exclusive too. -/
theorem prepared_transactions_serialise {s : Session} (hs : Tidy s) {d : Desk}
    (h : Relation.ReflTransGen (Step P Exclusive) (start s) d) :
    d.Serial ∧ (d.surfaced.map Prod.fst).Nodup ∧
    (∀ x ∈ d.surfaced, x.1 ∉ d.session.skipped.map SkippedKey.ctr) ∧
    ∀ before n τ after t, d.outstanding = before++(n,τ)::after →
      τ.commit d.session = (t,.ok ()) →
      ((∀ x ∈ before++after, x.2.commit t = (t,.error .staleTransaction)) ↔
        Exclusive d.session τ (before++after)) := by
  have hi := inv_run hs h
  refine ⟨fun x hx hlt => ?_,hi.once,fun x hx => (hi.spent x hx).2,?_⟩
  · exact Txn.commit_stale.mpr (hi.stale x hx hlt).2.symm
  · intro before n τ after t ho hc
    have hsub : before++after ⊆ d.outstanding := ho ▸ subset_middle _ _ _
    have hmem : (n,τ) ∈ d.outstanding := by simp [ho]
    obtain ⟨hf,rfl⟩ := hi.committed hmem hc
    refine ⟨fun hall => ?_,fun he x hx => ?_⟩
    · by_cases ha : τ.Advances d.session
      · exact .inl ha
      · have hsame : Txn.counters τ.next = Txn.counters d.session := by
          by_contra hne
          exact ha (hf.counters_ne.mp hne)
        exact .inr (fun x hx hb => Txn.commit_stale.mp (hall x hx) (hsame.trans hb.symm))
    · exact Txn.commit_stale.mpr (hi.behind hsub hf he x hx).2.symm

/-! ### A session that skipped counter 1 -/

def sampleContext : SessionContext := ⟨[1],[2],[3],[4],by decide⟩

def samplePeer : Session :=
  ⟨wordBlock 32 7,wordBlock 32 5,0,0,wordBlock 32 2,[],none,[],0,none,none,none,none,0,32,0,0⟩

def sampleSession : Session :=
  ⟨wordBlock 32 5,wordBlock 32 7,0,0,wordBlock 32 1,[],some (wordBlock 32 2),[],0,
    some (wordBlock 32 2),none,none,none,0,32,0,0⟩

def sampleDraw : Draw := ⟨wordBlock 32 9,wordBlock 32 10⟩

/-- The two frames of the peer. -/
def sampleFrames : Except CryptoError (Frame × Frame) :=
  match samplePeer.sendAt openSuite [1] 0 sampleDraw with
  | (_,.error e) => .error e
  | (s,.ok f) =>
      match s.sendAt openSuite [2] 0 sampleDraw with
      | (_,.error e) => .error e
      | (_,.ok g) => .ok (f,g)

def sampleReceive (s : Session) (frame : Frame) : Except CryptoError PreparedReceive :=
  prepareReceiveAt openSuite s frame (wordBlock 32 0) sampleContext 0 (wordBlock 12 0)

def sampleSend (s : Session) : Except CryptoError PreparedSend :=
  prepareSendAt openSuite s [3] (wordBlock 32 0) sampleContext [] 0 sampleDraw (wordBlock 12 0)

set_option maxRecDepth 20000 in
theorem sample_prepared : ∃ f g p q r s, sampleFrames = .ok (f,g) ∧
    sampleReceive sampleSession g = .ok p ∧ commitReceive sampleSession p = (s,.ok ()) ∧
    sampleReceive s f = .ok q ∧ sampleSend s = .ok r ∧ g.ctr = 2 ∧ f.ctr = 1 ∧
    Txn.counters s = (0,2) ∧ Txn.counters q.next = (0,2) ∧
    r.next.skipped.map SkippedKey.ctr = [1] :=
  ⟨_,_,_,_,_,_,rfl,rfl,rfl,rfl,rfl,rfl,rfl,rfl,rfl,rfl⟩

theorem sampleReceive_from {s : Session} {frame : Frame} {p : PreparedReceive}
    (h : sampleReceive s frame = .ok p) : (Txn.receive frame p).From openSuite s :=
  ⟨wordBlock 32 0,sampleContext,0,wordBlock 12 0,h⟩

theorem sampleSend_from {s : Session} {p : PreparedSend} (h : sampleSend s = .ok p) :
    (Txn.send p).From openSuite s :=
  ⟨[3],wordBlock 32 0,sampleContext,[],0,sampleDraw,wordBlock 12 0,h⟩

/-- Counter 2 is received first. Three transactions are then prepared from the same
session: counter 1 twice, and a send. After the first commit of counter 1 the other two
still commit, one surfaces counter 1 again and the other brings its key back. -/
theorem skipped_receive_commits_again :
    (∃ d, Relation.ReflTransGen (Step openSuite (fun _ _ _ => True)) (start sampleSession) d ∧
      ¬ d.Serial) ∧
    (∃ d, Relation.ReflTransGen (Step openSuite (fun _ _ _ => True)) (start sampleSession) d ∧
      d.surfaced.map Prod.fst = [1,1,2]) ∧
    ∃ d, Relation.ReflTransGen (Step openSuite (fun _ _ _ => True)) (start sampleSession) d ∧
      d.surfaced.map Prod.fst = [1,2] ∧ d.session.skipped.map SkippedKey.ctr = [1] := by
  obtain ⟨f,g,p,q,r,s,_,hp,hs,hq,hr,hg,hf,hcs,hcq,hrs⟩ := sample_prepared
  have hqf := sampleReceive_from hq
  have hrf := sampleSend_from hr
  have hqb : Txn.counters q.next = (Txn.receive f q).base := by rw [hqf.base_eq,hcs,hcq]
  have hrb : Txn.counters q.next = (Txn.send r).base := by rw [hrf.base_eq,hcs,hcq]
  have hqc : (Txn.receive f q).commit s = (q.next,.ok ()) := Txn.commit_of_eq hqf.base_eq.symm
  have hqc' : (Txn.receive f q).commit q.next = (q.next,.ok ()) := Txn.commit_of_eq hqb
  have hrc : (Txn.send r).commit q.next = (r.next,.ok ()) := Txn.commit_of_eq hrb
  let τ : Txn := .receive f q
  let σ : Txn := .send r
  have h₁ : Relation.ReflTransGen (Step openSuite (fun _ _ _ => True)) (start sampleSession)
      ⟨s,1,[(1,σ),(1,τ),(1,τ)],[(g.ctr,p.plaintext)]⟩ := by
    refine .tail (.tail (.tail (.tail (.tail .refl (.prepare (sampleReceive_from hp)))
      (@Step.commit _ _ _ [] [] _ _ _ rfl trivial hs)) (.prepare hqf)) (.prepare hqf))
      (.prepare hrf)
  have h₂ := h₁.tail (@Step.commit _ _ _ [(1,σ)] [(1,τ)] _ _ _ rfl trivial hqc)
  refine ⟨⟨_,h₂,?_⟩,⟨_,h₂.tail (@Step.commit _ _ _ [(1,σ)] [] _ _ _ rfl trivial hqc'),?_⟩,
    ⟨_,h₂.tail (@Step.commit _ _ _ [] [(1,τ)] _ _ _ rfl trivial hrc),?_,hrs⟩⟩
  · intro hser
    exact Txn.commit_stale.mp (hser (1,τ) (by simp) (Nat.lt_succ_self 1)) hqb
  · simp [τ,Txn.surfaced,hf,hg]
  · simp [τ,σ,Txn.surfaced,hf,hg]

/-- With the second copy discarded first, the same receives commit once each. -/
theorem prepared_transactions_serialise_discarded :
    ∃ d : Desk, d.surfaced.map Prod.fst = [1,2] ∧ d.Serial ∧ (d.surfaced.map Prod.fst).Nodup ∧
      ∀ x ∈ d.surfaced, x.1 ∉ d.session.skipped.map SkippedKey.ctr := by
  obtain ⟨f,g,p,q,r,s,_,hp,hs,hq,_,hg,hf,hcs,_,_⟩ := sample_prepared
  have hqf := sampleReceive_from hq
  have hqc : (Txn.receive f q).commit s = (q.next,.ok ()) := Txn.commit_of_eq hqf.base_eq.symm
  have hadv : (Txn.receive g p).Advances sampleSession := by
    change 0 < g.ctr
    omega
  let τ : Txn := .receive f q
  have h₁ : Relation.ReflTransGen (Step openSuite Exclusive) (start sampleSession)
      ⟨s,1,[(1,τ),(1,τ)],[(g.ctr,p.plaintext)]⟩ := by
    refine .tail (.tail (.tail (.tail .refl (.prepare (sampleReceive_from hp)))
      (@Step.commit _ _ _ [] [] _ _ _ rfl (.inl hadv) hs)) (.prepare hqf)) (.prepare hqf)
  have h₂ := h₁.tail (@Step.discard _ _ _ [] [(1,τ)] _ rfl)
  have hend := h₂.tail (@Step.commit _ _ _ [] [] _ _ _ rfl (.inr (by simp)) hqc)
  have htidy : Tidy sampleSession := ⟨by decide,by decide⟩
  obtain ⟨h₁,h₂,h₃,_⟩ := prepared_transactions_serialise htidy hend
  exact ⟨_,by simp [τ,Txn.surfaced,hf,hg],h₁,h₂,h₃⟩

end Desk

end Gcoms.RatchetTransactions
