import Gcoms.RatchetSession

/-!
# One direction of the ratchet

A `Link` relates a sender and a receiver: the sender's chain history is a
transcript, the receiver stands at one of its points, and the stored keys are
exactly those of the counters that were passed over and not delivered. The
receiver is either in the sender's present epoch (`InSync`) or in the one before
it (`Ahead`), and in both cases every frame above its counter can be followed.
-/
namespace Gcoms.RatchetLinks
open ByteCodec Primitives RatchetFrame KeyChains RatchetSession

structure Sent where
  frame : Frame
  payload : Bytes
  deriving DecidableEq

/-- A frame to be received fits: its gap and the stored keys stay within the bound. -/
def GapFits (s : Session) (frame : Frame) : Prop :=
  s.skipped.length+(frame.ctr-1-s.recvCtr) ≤ maxSkip

instance (s : Session) (frame : Frame) : Decidable (GapFits s frame) :=
  inferInstanceAs (Decidable (_ ≤ _))

section Direction
variable (P : Suite)

/-- The sender's frames from `base` on, and what the receiver holds of them. -/
structure Link (T : Transcript (Block 32)) (base : ℕ) (S R : Session) (sent : List Sent)
    (done : List ℕ) : Prop where
  base_le : base ≤ R.recvCtr
  recv_le : R.recvCtr ≤ S.sendCtr
  send_chain : S.sendChain = T.chain S.sendCtr
  recv_chain : R.recvChain = T.chain R.recvCtr
  stepped : ∀ i, base < i → i ≤ S.sendCtr → T.Stepped (chainStep P) i
  sent_ok : ∀ e ∈ sent, base < e.frame.ctr ∧ e.frame.ctr ≤ S.sendCtr ∧ e.frame.pn < e.frame.ctr ∧
    e.frame.ct = sealMessage P (T.key (chainStep P) e.frame.ctr) e.payload e.frame.headerBytes
  sent_unique : ∀ e ∈ sent, ∀ f ∈ sent, e.frame.ctr = f.frame.ctr → e = f
  done_le : ∀ i ∈ done, base < i ∧ i ≤ R.recvCtr
  skipped_iff : ∀ i, i ∈ R.skipped.map SkippedKey.ctr ↔ base < i ∧ i ≤ R.recvCtr ∧ i ∉ done
  skipped_key : ∀ k ∈ R.skipped, (k.messageKey,k.nonce) = T.key (chainStep P) k.ctr
  skipped_nodup : (R.skipped.map SkippedKey.ctr).Nodup
  rotated_le : S.sendRotatedAt ≤ S.sendCtr

/-- The receiver can compute the keys up to `frame`: either no epoch starts on the
way, or the frame's own epoch does and the receiver can mix what it announces. -/
def Follows (T : Transcript (Block 32)) (R : Session) (frame : Frame) : Prop :=
  (some frame.senderPub = R.peerPub ∧ ∀ i, R.recvCtr < i → i ≤ frame.ctr → T.Plain i) ∨
  (some frame.senderPub ≠ R.peerPub ∧ R.recvCtr ≤ frame.pn ∧
    (∀ i, R.recvCtr < i → i ≤ frame.ctr → i ≠ frame.pn+1 → T.Plain i) ∧
    R.mixFrame P frame (T.chain frame.pn) = .ok (T.mixed (frame.pn+1)))

/-- The keys of the counters strictly between `a` and `b`. -/
def between (T : Transcript (Block 32)) (a b : ℕ) : List (ℕ × (Block 32 × Block 12)) :=
  (List.range' (a+1) (b-1-a)).map (fun i => (i,T.key (chainStep P) i))

/-- The receiver after the frame with counter `ctr`. -/
def received (T : Transcript (Block 32)) (R : Session) (frame : Frame) (now : ℕ) : Session :=
  { R with
    recvChain := T.chain frame.ctr
    recvCtr := frame.ctr
    peerPub := some frame.senderPub
    skipped := R.skipped++Session.storeKeys now (between P T R.recvCtr frame.ctr) }

theorem storeKeys_between_ctr (T : Transcript (Block 32)) (a b now : ℕ) :
    (Session.storeKeys now (between P T a b)).map SkippedKey.ctr = List.range' (a+1) (b-1-a) := by
  simp [Session.storeKeys,between,Function.comp_def]

theorem received_fresh {T : Transcript (Block 32)} {R : Session} {frame : Frame} {now : ℕ}
    (h : R.Fresh now) : (received P T R frame now).Fresh now := by
  intro k hk
  rcases List.mem_append.mp hk with hk | hk
  · exact h k hk
  · obtain ⟨_,_,rfl⟩ := List.mem_map.mp hk
    have hpos : 0 < skipKeyTtl := by decide
    simpa using hpos

/-! ## Receiving along a link -/

variable {P}
variable {T : Transcript (Block 32)} {base : ℕ} {S R : Session} {sent : List Sent} {done : List ℕ}

/-- A delivered counter has no stored key left. -/
theorem Link.receive_done (h : Link P T base S R sent done) {e : Sent} {now : ℕ}
    (hd : e.frame.ctr ∈ done) (hf : R.Fresh now) (hl : R.skipped.length ≤ maxSkip) :
    R.receiveAt P e.frame now = (R,.error .replay) := by
  have hle := (h.done_le _ hd).2
  have hnone : R.skipped.find? (fun key => key.ctr = e.frame.ctr) = none := by
    rw [List.find?_eq_none]
    intro k hk hkey
    have hmem := (h.skipped_iff e.frame.ctr).mp
      (List.mem_map.mpr ⟨k,hk,by simpa using hkey⟩)
    exact hmem.2.2 hd
  simp only [Session.receiveAt,Session.pruneSkipped_of_fresh hf hl,hle,if_true,
    Session.receiveSkipped,hnone]

/-- A passed-over counter is opened with its stored key, which is then gone. -/
theorem Link.receive_skipped (h : Link P T base S R sent done) {e : Sent} {now : ℕ}
    (he : e ∈ sent) (hle : e.frame.ctr ≤ R.recvCtr) (hd : e.frame.ctr ∉ done) (hf : R.Fresh now)
    (hl : R.skipped.length ≤ maxSkip) :
    R.receiveAt P e.frame now =
      ({ R with skipped := R.skipped.eraseP (fun key => key.ctr = e.frame.ctr) },.ok e.payload) := by
  obtain ⟨hbase,_,_,hct⟩ := h.sent_ok e he
  obtain ⟨k,hk,hkc⟩ := List.mem_map.mp ((h.skipped_iff e.frame.ctr).mpr ⟨hbase,hle,hd⟩)
  have hsome : (R.skipped.find? (fun key => key.ctr = e.frame.ctr)).isSome := by
    rw [List.find?_isSome]
    exact ⟨k,hk,by simpa using hkc⟩
  obtain ⟨j,hj⟩ := Option.isSome_iff_exists.mp hsome
  have hjc : j.ctr = e.frame.ctr := by simpa using List.find?_some hj
  have hkey := h.skipped_key j (List.mem_of_find?_eq_some hj)
  rw [hjc] at hkey
  have hopen : openMessage P (j.messageKey,j.nonce) e.frame.ct e.frame.headerBytes =
      some e.payload := by
    rw [hkey,hct]
    exact openMessage_sealMessage P _ _ _
  simp only [Session.receiveAt,Session.pruneSkipped_of_fresh hf hl,hle,if_true,
    Session.receiveSkipped,hj,hopen]

/-- Every key up to a frame that can be followed is computed. -/
theorem Link.receive_new (h : Link P T base S R sent done) {e : Sent} {now : ℕ} (he : e ∈ sent)
    (hgt : R.recvCtr < e.frame.ctr) (hfol : Follows P T R e.frame) (hf : R.Fresh now)
    (hg : GapFits R e.frame) :
    R.receiveAt P e.frame now = (received P T R e.frame now,.ok e.payload) := by
  obtain ⟨hbase,hsend,hpn,hct⟩ := h.sent_ok e he
  have hl : R.skipped.length ≤ maxSkip := by
    unfold GapFits at hg
    omega
  have hstep : ∀ i, R.recvCtr < i → i ≤ e.frame.ctr → T.Stepped (chainStep P) i := fun i h₁ h₂ =>
    h.stepped i (h.base_le.trans_lt h₁) (h₂.trans hsend)
  have hopen : openMessage P (chainStep P (T.mixed e.frame.ctr) e.frame.ctr).2 e.frame.ct
      e.frame.headerBytes = some e.payload := by
    rw [hct]
    exact openMessage_sealMessage P _ _ _
  have hlast : (chainStep P (T.mixed e.frame.ctr) e.frame.ctr).1 = T.chain e.frame.ctr :=
    (hstep _ hgt le_rfl).symm
  have hprune : (received P T R e.frame now).pruneSkipped now = received P T R e.frame now := by
    apply Session.pruneSkipped_of_fresh (received_fresh P hf)
    have hlen := congrArg List.length (storeKeys_between_ctr P T R.recvCtr e.frame.ctr now)
    rw [List.length_map,List.length_range'] at hlen
    unfold GapFits at hg
    simp only [received,List.length_append,hlen]
    omega
  unfold GapFits at hg
  simp only [Session.receiveAt,Session.pruneSkipped_of_fresh hf hl]
  rw [if_neg (by omega)]
  unfold Session.receiveNew
  rw [if_neg (by omega)]
  rcases hfol with ⟨hsame,hplain⟩ | ⟨hnew,hpos,hplain,hmix⟩
  · -- no epoch starts on the way: one plain stretch
    have hne : ¬ (some e.frame.senderPub ≠ R.peerPub) := by simp [hsame]
    have hmixed : T.mixed (R.recvCtr+1) = T.chain R.recvCtr :=
      hplain (R.recvCtr+1) (by omega) (by omega)
    have hadv := T.advance_mixed (chainStep P) (R.recvCtr+1) (e.frame.ctr-1-R.recvCtr)
      (fun i h₁ h₂ => hstep i (by omega) (by omega))
      (fun i h₁ h₂ => hplain i (by omega) (by omega))
    have hend : R.recvCtr+1+(e.frame.ctr-1-R.recvCtr) = e.frame.ctr := by omega
    rw [hmixed,← h.recv_chain,hend] at hadv
    simp only [hne,if_false,Nat.add_zero]
    rw [if_neg (by omega)]
    simp only [hadv,advance,hopen,hlast,List.append_nil]
    rw [← hprune]
    rfl
  · -- the frame's epoch starts at `pn+1`: two plain stretches around its mixtures
    have hadv₁ := T.advance_chain (chainStep P) R.recvCtr (e.frame.pn-R.recvCtr)
      (fun i h₁ h₂ => hstep i (by omega) (by omega))
      (fun i h₁ h₂ => hplain i (by omega) (by omega) (by omega))
    have hadv₂ := T.advance_mixed (chainStep P) (e.frame.pn+1) (e.frame.ctr-1-e.frame.pn)
      (fun i h₁ h₂ => hstep i (by omega) (by omega))
      (fun i h₁ h₂ => hplain i (by omega) (by omega) (by omega))
    have hmid : R.recvCtr+(e.frame.pn-R.recvCtr) = e.frame.pn := by omega
    have hmid' : R.recvCtr+1+(e.frame.pn-R.recvCtr) = e.frame.pn+1 := by omega
    have hend : e.frame.pn+1+(e.frame.ctr-1-e.frame.pn) = e.frame.ctr := by omega
    have hmax : max e.frame.pn R.recvCtr = e.frame.pn := by omega
    have hrange : List.range' (R.recvCtr+1) (e.frame.pn-R.recvCtr)++
        List.range' (e.frame.pn+1) (e.frame.ctr-1-e.frame.pn) =
        List.range' (R.recvCtr+1) (e.frame.ctr-1-R.recvCtr) := by
      have hsum : e.frame.ctr-1-R.recvCtr =
          (e.frame.pn-R.recvCtr)+(e.frame.ctr-1-e.frame.pn) := by omega
      rw [hsum,← List.range'_append_1,hmid']
    rw [← h.recv_chain,hmid] at hadv₁
    rw [hend] at hadv₂
    simp only [hnew,ne_eq,not_false_eq_true,if_true,hmax]
    rw [if_neg (by omega)]
    simp only [hadv₁,hmix,hmid',hadv₂,hopen,hlast,← List.map_append,hrange]
    rw [← hprune]
    rfl

/-! ## What a delivery keeps -/

theorem Link.after_skipped (h : Link P T base S R sent done) {e : Sent} (he : e ∈ sent)
    (hle : e.frame.ctr ≤ R.recvCtr) :
    Link P T base S { R with skipped := R.skipped.eraseP (fun key => key.ctr = e.frame.ctr) } sent
      (e.frame.ctr::done) := by
  have hmap : (R.skipped.eraseP (fun key => key.ctr = e.frame.ctr)).map SkippedKey.ctr =
      (R.skipped.map SkippedKey.ctr).erase e.frame.ctr := by
    rw [List.erase_eq_eraseP,List.eraseP_map]
    congr 1
    apply congrArg (fun p => List.eraseP p R.skipped)
    funext k
    rw [Function.comp_apply,Bool.eq_iff_iff,beq_iff_eq,decide_eq_true_eq]
    exact eq_comm
  refine { h with
    done_le := ?_, skipped_iff := ?_, skipped_key := ?_, skipped_nodup := ?_ }
  · intro i hi
    rcases List.mem_cons.mp hi with rfl | hi
    · exact ⟨(h.sent_ok e he).1,hle⟩
    · exact h.done_le i hi
  · intro i
    simp only [hmap,h.skipped_nodup.mem_erase_iff,h.skipped_iff,List.mem_cons,not_or]
    tauto
  · intro k hk
    exact h.skipped_key k (List.mem_of_mem_eraseP hk)
  · simp only [hmap]
    exact h.skipped_nodup.erase _

/-- Delivering once more changes nothing. -/
theorem Link.after_done (h : Link P T base S R sent done) {i : ℕ} (hi : i ∈ done) :
    Link P T base S R sent (i::done) := by
  have hmem : ∀ j, j ∈ i::done ↔ j ∈ done := by
    intro j
    rw [List.mem_cons]
    exact ⟨fun hj => hj.elim (fun he => he ▸ hi) id,.inr⟩
  refine { h with done_le := fun j hj => h.done_le j ((hmem j).mp hj), skipped_iff := ?_ }
  intro j
  rw [hmem]
  exact h.skipped_iff j

theorem Link.after_new (h : Link P T base S R sent done) {e : Sent} (now : ℕ) (he : e ∈ sent)
    (hgt : R.recvCtr < e.frame.ctr) :
    Link P T base S (received P T R e.frame now) sent (e.frame.ctr::done) := by
  obtain ⟨hbase,hsend,_,_⟩ := h.sent_ok e he
  have hbl := h.base_le
  have hmap : (received P T R e.frame now).skipped.map SkippedKey.ctr =
      R.skipped.map SkippedKey.ctr++List.range' (R.recvCtr+1) (e.frame.ctr-1-R.recvCtr) := by
    simp only [received,List.map_append,storeKeys_between_ctr]
  refine { h with
    base_le := hbase.le, recv_le := hsend, recv_chain := rfl, done_le := ?_, skipped_iff := ?_
    skipped_key := ?_, skipped_nodup := ?_ }
  · intro i hi
    rcases List.mem_cons.mp hi with rfl | hi
    · exact ⟨hbase,le_rfl⟩
    · have := h.done_le i hi
      exact ⟨this.1,this.2.trans hgt.le⟩
  · intro i
    have hold := h.skipped_iff i
    have hdone := h.done_le i
    simp only [hmap,List.mem_append,hold,List.mem_range'_1,List.mem_cons,not_or]
    change _ ↔ base < i ∧ i ≤ e.frame.ctr ∧ ¬ i = e.frame.ctr ∧ i ∉ done
    constructor
    · rintro (⟨h₁,h₂,h₃⟩ | h₁)
      · exact ⟨h₁,by omega,by omega,h₃⟩
      · refine ⟨by omega,by omega,by omega,fun hi => ?_⟩
        have := hdone hi
        omega
    · rintro ⟨h₁,h₂,h₃,h₄⟩
      by_cases hle : i ≤ R.recvCtr
      · exact .inl ⟨h₁,hle,h₄⟩
      · exact .inr (by omega)
  · intro k hk
    rcases List.mem_append.mp hk with hk | hk
    · exact h.skipped_key k hk
    · obtain ⟨⟨i,key⟩,hi,rfl⟩ := List.mem_map.mp hk
      obtain ⟨j,_,hj⟩ := List.mem_map.mp hi
      cases hj
      rfl
  · rw [hmap,List.nodup_append]
    refine ⟨h.skipped_nodup,List.nodup_range',?_⟩
    intro i hi j hj hij
    have h₁ := (h.skipped_iff i).mp hi
    rw [List.mem_range'_1] at hj
    omega

/-! ## Epochs -/

/-- The receiver is in the sender's present epoch. -/
structure InSync (T : Transcript (Block 32)) (S R : Session) (sent : List Sent) : Prop where
  rotated : S.sendRotatedAt ≤ R.recvCtr
  plain : ∀ i, R.recvCtr < i → i ≤ S.sendCtr → T.Plain i
  key : ∀ e ∈ sent, R.recvCtr < e.frame.ctr → some e.frame.senderPub = R.peerPub

variable (P)

/-- The receiver is in the epoch before the sender's present one, and can mix what
the present one announces. -/
structure Ahead (T : Transcript (Block 32)) (S R : Session) (sent : List Sent) : Prop where
  behind : R.recvCtr < S.sendRotatedAt
  plain : ∀ i, R.recvCtr < i → i ≤ S.sendCtr → i ≠ S.sendRotatedAt → T.Plain i
  mixes : R.mixFrame P (S.sendHeader P S.sendRotatedAt) (T.chain (S.sendRotatedAt-1)) =
    .ok (T.mixed S.sendRotatedAt)
  old_key : ∀ e ∈ sent, R.recvCtr < e.frame.ctr → e.frame.ctr < S.sendRotatedAt →
    some e.frame.senderPub = R.peerPub
  new_key : ∀ e ∈ sent, S.sendRotatedAt ≤ e.frame.ctr →
    e.frame = { S.sendHeader P e.frame.ctr with ct := e.frame.ct }
  fresh : some (S.myPub P) ≠ R.peerPub

variable {P}

theorem InSync.not_ahead (h : InSync T S R sent) : ¬ Ahead P T S R sent := fun ha =>
  absurd (h.rotated.trans_lt ha.behind) (lt_irrefl _)

theorem InSync.follows (h : InSync T S R sent) (hl : Link P T base S R sent done) {e : Sent}
    (he : e ∈ sent) (hgt : R.recvCtr < e.frame.ctr) : Follows P T R e.frame :=
  .inl ⟨h.key e he hgt,fun i h₁ h₂ => h.plain i h₁ (h₂.trans (hl.sent_ok e he).2.1)⟩

/-- Mixing reads the announced keys of a frame only. -/
theorem mixFrame_congr {f g : Frame} (h₁ : f.senderPub = g.senderPub)
    (h₂ : f.mixedWith = g.mixedWith) (h₃ : f.pqCt = g.pqCt) (chain : Block 32) :
    R.mixFrame P f chain = R.mixFrame P g chain := by
  unfold Session.mixFrame
  rw [h₁,h₂,h₃]

theorem Ahead.follows (h : Ahead P T S R sent) (hl : Link P T base S R sent done) {e : Sent}
    (he : e ∈ sent) (hgt : R.recvCtr < e.frame.ctr) : Follows P T R e.frame := by
  have hsend := (hl.sent_ok e he).2.1
  have hbehind := h.behind
  by_cases hlt : e.frame.ctr < S.sendRotatedAt
  · exact .inl ⟨h.old_key e he hgt hlt,fun i h₁ h₂ =>
      h.plain i h₁ (h₂.trans hsend) (by omega)⟩
  · have hnew := h.new_key e he (by omega)
    have hpub : e.frame.senderPub = S.myPub P := by rw [hnew]; rfl
    have hpn : e.frame.pn = S.sendRotatedAt-1 := by rw [hnew]; rfl
    have hpos : e.frame.pn+1 = S.sendRotatedAt := by omega
    refine .inr ⟨by rw [hpub]; exact h.fresh,by omega,?_,?_⟩
    · intro i h₁ h₂ hne
      exact h.plain i h₁ (h₂.trans hsend) (by omega)
    · rw [hpos,hpn,← h.mixes]
      apply mixFrame_congr
      · rw [hpub]; rfl
      · rw [hnew]; rfl
      · rw [hnew]; rfl

/-- A delivery within the present epoch keeps it. -/
theorem InSync.after_new (h : InSync T S R sent) {e : Sent} (now : ℕ) (he : e ∈ sent) (hgt : R.recvCtr < e.frame.ctr) :
    InSync T S (received P T R e.frame now) sent := by
  have hrot := h.rotated
  refine ⟨hrot.trans hgt.le,?_,?_⟩
  · intro i h₁ h₂
    exact h.plain i (hgt.trans h₁) h₂
  · intro f hf hfgt
    have hfr := h.key f hf (hgt.trans hfgt)
    have her := h.key e he hgt
    rw [hfr,← her]
    rfl

/-- The first delivery of a new epoch brings the receiver into it. -/
theorem Ahead.after_start (h : Ahead P T S R sent) {e : Sent} (now : ℕ) (he : e ∈ sent)
    (hge : S.sendRotatedAt ≤ e.frame.ctr) :
    InSync T S (received P T R e.frame now) sent ∧
      (received P T R e.frame now).peerPub = some (S.myPub P) := by
  have hbehind := h.behind
  have hpub : ∀ f ∈ sent, S.sendRotatedAt ≤ f.frame.ctr → f.frame.senderPub = S.myPub P := by
    intro f hf hfge
    rw [h.new_key f hf hfge]
    rfl
  refine ⟨⟨hge,?_,?_⟩,?_⟩
  · intro i h₁ h₂
    change e.frame.ctr < i at h₁
    exact h.plain i (by omega) h₂ (by omega)
  · intro f hf hfgt
    change e.frame.ctr < f.frame.ctr at hfgt
    rw [hpub f hf (by omega),← hpub e he hge]
    rfl
  · rw [← hpub e he hge]
    rfl

/-- A late frame of the earlier epoch leaves the receiver behind. -/
theorem Ahead.after_old (h : Ahead P T S R sent) {e : Sent} (now : ℕ) (he : e ∈ sent)
    (hgt : R.recvCtr < e.frame.ctr) (hlt : e.frame.ctr < S.sendRotatedAt) :
    Ahead P T S (received P T R e.frame now) sent ∧
      (received P T R e.frame now).peerPub = R.peerPub := by
  have hpeer : some e.frame.senderPub = R.peerPub := h.old_key e he hgt hlt
  have hsame : (received P T R e.frame now).peerPub = R.peerPub := hpeer
  refine ⟨⟨hlt,?_,h.mixes,?_,h.new_key,by rw [hsame]; exact h.fresh⟩,hsame⟩
  · intro i h₁ h₂ hne
    exact h.plain i (hgt.trans h₁) h₂ hne
  · intro f hf h₁ h₂
    rw [hsame]
    exact h.old_key f hf (hgt.trans h₁) h₂

/-! ## Sending along a link -/

/-- The sender has moved on by one frame, from the chain value `chain`. -/
theorem Link.after_send (h : Link P T base S R sent done) {t : Session} {chain : Block 32}
    {payload : Bytes} (hctr : t.sendCtr = S.sendCtr) (hrot : t.sendRotatedAt ≤ S.sendCtr+1) :
    Link P (T.push (S.sendCtr+1) chain (chainStep P chain (S.sendCtr+1)).1) base
      (t.sendFrame P chain payload).1 R (⟨(t.sendFrame P chain payload).2,payload⟩::sent) done := by
  have hbl := h.base_le
  have hrl := h.recv_le
  have hold : ∀ i, i ≤ S.sendCtr → i ≠ S.sendCtr+1 := fun i hi => by omega
  have hself : (T.push (S.sendCtr+1) chain (chainStep P chain (S.sendCtr+1)).1).key (chainStep P)
      (S.sendCtr+1) = (chainStep P chain (S.sendCtr+1)).2 := by
    simp [Transcript.key,Transcript.push_mixed_self]
  refine ⟨hbl,?_,?_,?_,?_,?_,?_,h.done_le,h.skipped_iff,?_,h.skipped_nodup,?_⟩
  · simp only [Session.sendFrame,hctr]
    omega
  · simp only [Session.sendFrame,hctr,Transcript.push_chain_self]
  · rw [Transcript.push_chain_of_ne _ _ _ (hold _ hrl)]
    exact h.recv_chain
  · intro i h₁ h₂
    simp only [Session.sendFrame,hctr] at h₂
    by_cases hi : i = S.sendCtr+1
    · rw [hi,Transcript.Stepped,Transcript.push_chain_self,Transcript.push_mixed_self]
    · rw [Transcript.push_stepped_of_ne _ _ _ hi]
      exact h.stepped i h₁ (by omega)
  · intro e he
    simp only [Session.sendFrame,hctr]
    rcases List.mem_cons.mp he with rfl | he
    · simp only [Session.sendFrame,hctr]
      refine ⟨by simp only [Session.sendHeader]; omega,by simp only [Session.sendHeader]; omega,
        by simp only [Session.sendHeader]; omega,?_⟩
      change _ = sealMessage P (Transcript.key (chainStep P) _ (S.sendCtr+1)) payload _
      rw [hself]
      rfl
    · obtain ⟨h₁,h₂,h₃,h₄⟩ := h.sent_ok e he
      rw [Transcript.push_key_of_ne _ _ _ _ (hold _ h₂)]
      exact ⟨h₁,by omega,h₃,h₄⟩
  · intro e he f hf hef
    have hnew : ∀ g ∈ sent, g.frame.ctr ≠ (t.sendFrame P chain payload).2.ctr := by
      intro g hg
      have := (h.sent_ok g hg).2.1
      simp only [Session.sendFrame,Session.sendHeader,hctr]
      omega
    rcases List.mem_cons.mp he with rfl | he <;> rcases List.mem_cons.mp hf with rfl | hf
    · rfl
    · exact absurd hef.symm (hnew f hf)
    · exact absurd hef (hnew e he)
    · exact h.sent_unique e he f hf hef
  · intro k hk
    have hkc := (h.skipped_iff k.ctr).mp (List.mem_map.mpr ⟨k,hk,rfl⟩)
    rw [Transcript.push_key_of_ne _ _ _ _ (hold _ (hkc.2.1.trans hrl))]
    exact h.skipped_key k hk
  · simp only [Session.sendFrame,hctr]
    exact hrot

/-- Pushing the next counter keeps plain stretches below it. -/
theorem plain_push {n : ℕ} {m c : Block 32} {i : ℕ} (hi : i ≤ n) (h : T.Plain i) :
    (T.push (n+1) m c).Plain i :=
  (Transcript.push_plain_of_lt _ _ (by omega)).mpr h

/-- A frame within the epoch of a receiver that is in step. -/
theorem InSync.after_plain (h : InSync T S R sent) (hl : Link P T base S R sent done)
    {payload : Bytes} (hkey : some (S.myPub P) = R.peerPub) :
    InSync (T.push (S.sendCtr+1) S.sendChain (chainStep P S.sendChain (S.sendCtr+1)).1)
      (S.sendFrame P S.sendChain payload).1 R
      (⟨(S.sendFrame P S.sendChain payload).2,payload⟩::sent) := by
  refine ⟨h.rotated,?_,?_⟩
  · intro i h₁ h₂
    change i ≤ S.sendCtr+1 at h₂
    by_cases hi : i = S.sendCtr+1
    · rw [hi,Transcript.Plain,Transcript.push_mixed_self,Nat.add_sub_cancel,
        Transcript.push_chain_of_ne _ _ _ (by omega),hl.send_chain]
    · exact plain_push (by omega) (h.plain i h₁ (by omega))
  · intro e he hgt
    rcases List.mem_cons.mp he with rfl | he
    · exact hkey
    · exact h.key e he hgt

theorem Ahead.after_plain (h : Ahead P T S R sent) (hl : Link P T base S R sent done)
    {payload : Bytes} :
    Ahead P (T.push (S.sendCtr+1) S.sendChain (chainStep P S.sendChain (S.sendCtr+1)).1)
      (S.sendFrame P S.sendChain payload).1 R
      (⟨(S.sendFrame P S.sendChain payload).2,payload⟩::sent) := by
  have hrot := hl.rotated_le
  have hbehind := h.behind
  refine ⟨h.behind,?_,?_,?_,?_,h.fresh⟩
  · intro i h₁ h₂ hne
    change i ≤ S.sendCtr+1 at h₂
    by_cases hi : i = S.sendCtr+1
    · rw [hi,Transcript.Plain,Transcript.push_mixed_self,Nat.add_sub_cancel,
        Transcript.push_chain_of_ne _ _ _ (by omega),hl.send_chain]
    · exact plain_push (by omega) (h.plain i h₁ (by omega) hne)
  · change R.mixFrame P (S.sendHeader P S.sendRotatedAt) _ = .ok (_ : Block 32)
    rw [Transcript.push_chain_of_ne _ _ _ (by simp only [Session.sendFrame]; omega),
      Transcript.push_mixed_of_ne _ _ _ (by simp only [Session.sendFrame]; omega)]
    exact h.mixes
  · intro e he h₁ h₂
    rcases List.mem_cons.mp he with rfl | he
    · simp only [Session.sendFrame,Session.sendHeader] at h₂
      omega
    · exact h.old_key e he h₁ h₂
  · intro e he h₁
    rcases List.mem_cons.mp he with rfl | he
    · rfl
    · exact h.new_key e he h₁

/-- Starting an epoch toward a receiver that is in step puts the sender ahead: the
receiver's present key is the one that was mixed, Diffie-Hellman commutes, and the
encapsulated secret can be recovered. -/
theorem InSync.after_rotation (h : InSync T S R sent) (hl : Link P T base S R sent done)
    {t : Session} {draw : Draw} {chain : Block 32} (payload : Bytes)
    (ht : Session.EpochStarted P S t (R.myPub P) (S.sendCtr+1) draw chain)
    (hkem : ∀ ek, S.peerKem = some ek → ∃ dk, R.kemDk = some dk ∧
      ek = P.mlKem768.encapsulationKey dk)
    (hfresh : some (P.x25519.publicKey draw.ratchet) ≠ R.peerPub) :
    Ahead P (T.push (S.sendCtr+1) chain (chainStep P chain (S.sendCtr+1)).1)
      (t.sendFrame P chain payload).1 R
      (⟨(t.sendFrame P chain payload).2,payload⟩::sent) := by
  have hrl := hl.recv_le
  have hrot : (t.sendFrame P chain payload).1.sendRotatedAt = S.sendCtr+1 := ht.rotatedAt
  have hpub : t.myPub P = P.x25519.publicKey draw.ratchet := by rw [Session.myPub,ht.myKp]
  have hfind : R.findKeypair P (R.myPub P) = some R.myKp := by simp [Session.findKeypair]
  have hcomm : P.x25519.diffieHellman R.myKp (P.x25519.publicKey draw.ratchet) =
      P.x25519.diffieHellman draw.ratchet (R.myPub P) := P.x25519.diffieHellman_comm _ _
  refine ⟨by rw [hrot]; omega,?_,?_,?_,?_,?_⟩
  · intro i h₁ h₂ hne
    rw [hrot] at hne
    simp only [Session.sendFrame,ht.sendCtr] at h₂
    exact plain_push (by omega) (h.plain i h₁ (by omega))
  · rw [hrot,Transcript.push_mixed_self,Nat.add_sub_cancel,
      Transcript.push_chain_of_ne _ _ _ (by omega),← hl.send_chain]
    unfold Session.mixFrame
    have hmw : ((t.sendFrame P chain payload).1.sendHeader P (S.sendCtr+1)).mixedWith =
      some (R.myPub P) := ht.mixedPeer
    have hsp : ((t.sendFrame P chain payload).1.sendHeader P (S.sendCtr+1)).senderPub =
      P.x25519.publicKey draw.ratchet := hpub
    have hpq : ((t.sendFrame P chain payload).1.sendHeader P (S.sendCtr+1)).pqCt =
      t.epochPqCt := rfl
    simp only [hmw,hsp,hpq,hfind,hcomm]
    rcases ht.pq with ⟨hnone,rfl⟩ | ⟨ek,hek,hsome,rfl⟩
    · simp only [hnone]
    · obtain ⟨dk,hdk,rfl⟩ := hkem ek hek
      simp only [hsome,hdk,decapsulateSlice_encapsulate]
  · intro e he h₁ h₂
    rw [hrot] at h₂
    rcases List.mem_cons.mp he with rfl | he
    · simp only [Session.sendFrame,Session.sendHeader,ht.sendCtr] at h₂
      omega
    · exact h.key e he h₁
  · intro e he h₁
    rcases List.mem_cons.mp he with rfl | he
    · rfl
    · rw [hrot] at h₁
      have := (hl.sent_ok e he).2.1
      omega
  · change some (t.myPub P) ≠ R.peerPub
    rw [hpub]
    exact hfresh

/-! ## Frame conditions: which fields each fact reads -/

def keysOf (s : Session) : List (ℕ × (Block 32 × Block 12)) :=
  s.skipped.map (fun k => (k.ctr,(k.messageKey,k.nonce)))

theorem keysOf_ctr (s : Session) : (keysOf s).map Prod.fst = s.skipped.map SkippedKey.ctr := by
  simp [keysOf,Function.comp_def]

theorem Link.congr {S' R' : Session} (h : Link P T base S R sent done)
    (h₁ : S'.sendCtr = S.sendCtr) (h₂ : S'.sendChain = S.sendChain)
    (h₃ : S'.sendRotatedAt = S.sendRotatedAt) (h₄ : R'.recvCtr = R.recvCtr)
    (h₅ : R'.recvChain = R.recvChain) (h₆ : keysOf R' = keysOf R) :
    Link P T base S' R' sent done := by
  have hmap : R'.skipped.map SkippedKey.ctr = R.skipped.map SkippedKey.ctr := by
    rw [← keysOf_ctr,← keysOf_ctr,h₆]
  refine ⟨h₄ ▸ h.base_le,?_,?_,?_,?_,?_,h.sent_unique,?_,?_,?_,hmap ▸ h.skipped_nodup,?_⟩
  · rw [h₁,h₄]
    exact h.recv_le
  · rw [h₁,h₂]
    exact h.send_chain
  · rw [h₄,h₅]
    exact h.recv_chain
  · rw [h₁]
    exact h.stepped
  · rw [h₁]
    exact h.sent_ok
  · rw [h₄]
    exact h.done_le
  · rw [h₄,hmap]
    exact h.skipped_iff
  · intro k hk
    have hmem : (k.ctr,(k.messageKey,k.nonce)) ∈ keysOf R :=
      h₆ ▸ List.mem_map.mpr ⟨k,hk,rfl⟩
    obtain ⟨j,hj,hjk⟩ := List.mem_map.mp hmem
    simp only [Prod.mk.injEq] at hjk
    have hkey := h.skipped_key j hj
    rwa [hjk.2.1,hjk.2.2,hjk.1] at hkey
  · rw [h₁,h₃]
    exact h.rotated_le

theorem InSync.congr {S' R' : Session} (h : InSync T S R sent)
    (h₁ : S'.sendRotatedAt = S.sendRotatedAt) (h₂ : S'.sendCtr = S.sendCtr)
    (h₃ : R'.recvCtr = R.recvCtr) (h₄ : R'.peerPub = R.peerPub) : InSync T S' R' sent := by
  refine ⟨?_,?_,?_⟩
  · rw [h₁,h₃]
    exact h.rotated
  · rw [h₂,h₃]
    exact h.plain
  · rw [h₃,h₄]
    exact h.key

theorem Ahead.congr {S' R' : Session} (h : Ahead P T S R sent)
    (h₁ : S'.sendRotatedAt = S.sendRotatedAt) (h₂ : S'.sendCtr = S.sendCtr)
    (h₃ : S'.myKp = S.myKp) (h₄ : S'.mixedPeer = S.mixedPeer) (h₅ : S'.epochPqCt = S.epochPqCt)
    (h₆ : R'.recvCtr = R.recvCtr) (h₇ : R'.peerPub = R.peerPub) (h₈ : R'.myKp = R.myKp)
    (h₉ : R'.oldKps = R.oldKps) (h₀ : R'.kemDk = R.kemDk) : Ahead P T S' R' sent := by
  have hheader : ∀ i, S'.sendHeader P i = S.sendHeader P i := by
    intro i
    simp only [Session.sendHeader,Session.myPub,h₁,h₃,h₄,h₅]
  have hmix : ∀ f c, R'.mixFrame P f c = R.mixFrame P f c := by
    intro f c
    have hfind : ∀ t, R'.findKeypair P t = R.findKeypair P t := by
      intro t
      unfold Session.findKeypair Session.myPub
      rw [h₈,h₉]
    unfold Session.mixFrame
    rw [h₀]
    simp only [hfind]
  refine ⟨?_,?_,?_,?_,?_,?_⟩
  · rw [h₁,h₆]
    exact h.behind
  · rw [h₁,h₂,h₆]
    exact h.plain
  · rw [hmix,hheader,h₁]
    exact h.mixes
  · rw [h₁,h₆,h₇]
    exact h.old_key
  · intro e he hge
    rw [hheader]
    exact h.new_key e he (h₁ ▸ hge)
  · rw [h₇,Session.myPub,h₃]
    exact h.fresh

end Direction

end Gcoms.RatchetLinks
