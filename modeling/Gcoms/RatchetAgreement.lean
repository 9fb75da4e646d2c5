import Gcoms.RatchetHandshake
import Gcoms.RatchetLinks

/-!
# Ratchet agreement

Two sessions and a network that keeps every frame. The keys of the two directions
alternate: the party with the newest ratchet key waits until the other one has
answered it, so a receiver never falls more than one epoch behind, and a frame
that starts a new epoch is always mixed with the receiver's present key. One send
and one delivery keep this agreement, and with it every deliverable frame opens to
the payload it was sent with, exactly once.
-/
namespace Gcoms.RatchetAgreement
open ByteCodec Primitives RatchetFrame KeyChains RatchetSession RatchetLinks RatchetHandshake

inductive Side where
  | initiator | responder
  deriving DecidableEq, Repr

def Side.other : Side → Side
  | .initiator => .responder
  | .responder => .initiator

@[simp] theorem Side.other_other (d : Side) : d.other.other = d := by cases d <;> rfl

theorem Side.other_ne (d : Side) : d.other ≠ d := by cases d <;> decide

theorem Side.eq_or_eq_other (d e : Side) : d = e ∨ d = e.other := by
  cases d <;> cases e <;> decide

structure Net where
  party : Side → Session
  sent : Side → List Sent
  delivered : Side → List ℕ
  announced : List (Block 32)

namespace Net
variable (P : Suite)

/-- `announced` collects the ratchet keys that have appeared in the run. -/
def send (n : Net) (d : Side) (payload : Bytes) (now : ℕ) (draw : Draw) : Net :=
  match (n.party d).sendAt P payload now draw with
  | (t,.error _) => { n with party := Function.update n.party d t }
  | (t,.ok frame) =>
      { n with
        party := Function.update n.party d t
        sent := Function.update n.sent d (⟨frame,payload⟩::n.sent d)
        announced := if (n.party d).rotates = none then n.announced
          else t.myPub P::n.announced }

/-- Delivers a frame that `d` sent, and records the delivery whatever its result. -/
def deliver (n : Net) (d : Side) (frame : Frame) (now : ℕ) : Net :=
  { n with
    party := Function.update n.party d.other ((n.party d.other).receiveAt P frame now).1
    delivered := Function.update n.delivered d (frame.ctr::n.delivered d) }

inductive Step : Net → Net → Prop where
  | send (n : Net) (d : Side) (payload : Bytes) (now : ℕ) (draw : Draw) :
      Step n (n.send P d payload now draw)
  | deliver (n : Net) (d : Side) (e : Sent) (now : ℕ) (he : e ∈ n.sent d)
      (hf : (n.party d.other).Fresh now) (hg : GapFits (n.party d.other) e.frame) :
      Step n (n.deliver P d e.frame now)

/-- The two sides agree; `l` holds the newest ratchet key. -/
structure Agreed (base : Side → ℕ) (n : Net) (T : Side → Transcript (Block 32)) (l : Side) :
    Prop where
  link : ∀ d, Link P (T d) (base d) (n.party d) (n.party d.other) (n.sent d) (n.delivered d)
  kem : ∀ d ek, (n.party d).peerKem = some ek → ∃ dk, (n.party d.other).kemDk = some dk ∧
    ek = P.mlKem768.encapsulationKey dk
  waits : (n.party l).peerPub = (n.party l).mixedPeer
  back : InSync (T l.other) (n.party l.other) (n.party l) (n.sent l.other)
  phase : (Ahead P (T l) (n.party l) (n.party l.other) (n.sent l) ∧
      (n.party l.other).peerPub = (n.party l.other).mixedPeer ∧
      (n.party l).peerPub = some ((n.party l.other).myPub P)) ∨
    (InSync (T l) (n.party l) (n.party l.other) (n.sent l) ∧
      (n.party l.other).peerPub = some ((n.party l).myPub P) ∧
      (n.party l.other).peerPub ≠ (n.party l.other).mixedPeer)
  newest : (n.party l).myPub P ∈ n.announced
  known : ∀ d p, (n.party d).peerPub = some p → p ∈ n.announced

def Inv (base : Side → ℕ) (n : Net) : Prop := ∃ T l, Agreed P base n T l

variable {P}
variable {base : Side → ℕ} {n : Net} {T : Side → Transcript (Block 32)} {l : Side}

theorem Agreed.kemReady (h : Agreed P base n T l) (d : Side) : (n.party d).KemReady P := by
  intro ek hek
  obtain ⟨dk,_,rfl⟩ := h.kem d ek hek
  exact P.mlKem768.encapsulationKey_valid dk

/-- A direction is in step unless it carries the newest epoch to a peer that waits. -/
theorem Agreed.inSync_or_ahead (h : Agreed P base n T l) (d : Side) :
    InSync (T d) (n.party d) (n.party d.other) (n.sent d) ∨
      (d = l ∧ Ahead P (T d) (n.party d) (n.party d.other) (n.sent d)) := by
  rcases Side.eq_or_eq_other d l with rfl | rfl
  · rcases h.phase with ⟨ha,_⟩ | ⟨hs,_⟩
    · exact .inr ⟨rfl,ha⟩
    · exact .inl hs
  · have hb := h.back
    rw [Side.other_other]
    exact .inl hb

/-- Any frame above the receive counter can be followed. -/
theorem Agreed.follows (h : Agreed P base n T l) {d : Side} {e : Sent} (he : e ∈ n.sent d)
    (hgt : (n.party d.other).recvCtr < e.frame.ctr) :
    Follows P (T d) (n.party d.other) e.frame := by
  rcases h.inSync_or_ahead d with hs | ⟨_,ha⟩
  · exact hs.follows (h.link d) he hgt
  · exact ha.follows (h.link d) he hgt

/-- A frame of a new epoch was mixed with the receiver's present key. -/
theorem Agreed.mixed_with (h : Agreed P base n T l) {d : Side} {e : Sent} (he : e ∈ n.sent d)
    (hgt : (n.party d.other).recvCtr < e.frame.ctr)
    (hne : some e.frame.senderPub ≠ (n.party d.other).peerPub) :
    e.frame.mixedWith = some ((n.party d.other).myPub P) := by
  rcases h.inSync_or_ahead d with hs | ⟨rfl,ha⟩
  · exact absurd (hs.key e he hgt) hne
  have hge : (n.party d).sendRotatedAt ≤ e.frame.ctr := by
    by_contra hlt
    exact hne (ha.old_key e he hgt (by omega))
  rcases h.phase with ⟨_,_,hkey⟩ | ⟨hs,_⟩
  · rw [ha.new_key e he hge,← hkey,h.waits]
    rfl
  · exact absurd ha hs.not_ahead

/-- Frames not yet passed belong to the receiver's epoch or to any later frame's. -/
theorem Agreed.two_epochs (h : Agreed P base n T l) {d : Side} {e f : Sent} (he : e ∈ n.sent d)
    (hf : f ∈ n.sent d) (hgt : (n.party d.other).recvCtr < f.frame.ctr)
    (hle : f.frame.ctr ≤ e.frame.ctr) :
    some f.frame.senderPub = (n.party d.other).peerPub ∨
      f.frame.senderPub = e.frame.senderPub := by
  rcases h.inSync_or_ahead d with hs | ⟨_,ha⟩
  · exact .inl (hs.key f hf hgt)
  by_cases hlt : f.frame.ctr < (n.party d).sendRotatedAt
  · exact .inl (ha.old_key f hf hgt hlt)
  · right
    rw [ha.new_key f hf (by omega),ha.new_key e he (by omega)]
    rfl

/-! ### Sending -/

/-- `n'` is `n` after party `d` became `t` and sent `e`. -/
structure Sends (n n' : Net) (d : Side) (t : Session) (e : Sent) : Prop where
  party : n'.party d = t
  party_other : n'.party d.other = n.party d.other
  sent : n'.sent d = e::n.sent d
  sent_other : n'.sent d.other = n.sent d.other
  delivered : n'.delivered = n.delivered

def record (n : Net) (T : Side → Transcript (Block 32)) (d : Side) (chain : Block 32) (P : Suite) :
    Side → Transcript (Block 32) :=
  Function.update T d ((T d).push ((n.party d).sendCtr+1) chain
    (chainStep P chain ((n.party d).sendCtr+1)).1)

theorem record_self (d : Side) (chain : Block 32) : record n T d chain P d =
    (T d).push ((n.party d).sendCtr+1) chain (chainStep P chain ((n.party d).sendCtr+1)).1 :=
  Function.update_self _ _ _

theorem record_other (d : Side) (chain : Block 32) : record n T d chain P d.other = T d.other :=
  Function.update_of_ne (Side.other_ne d) _ _

/-- Both links after a send: the reverse one reads fields that sending keeps. -/
theorem Agreed.link_sends (h : Agreed P base n T l) {n' : Net} {d : Side} {t : Session}
    {chain : Block 32} {payload : Bytes}
    (hn : Sends n n' d (t.sendFrame P chain payload).1 ⟨(t.sendFrame P chain payload).2,payload⟩)
    (hctr : t.sendCtr = (n.party d).sendCtr) (hrot : t.sendRotatedAt ≤ (n.party d).sendCtr+1)
    (hrecv : t.recvCtr = (n.party d).recvCtr) (hchain : t.recvChain = (n.party d).recvChain)
    (hskip : t.skipped = (n.party d).skipped) (a : Side) :
    Link P (record n T d chain P a) (base a) (n'.party a) (n'.party a.other) (n'.sent a)
      (n'.delivered a) := by
  rw [hn.delivered]
  rcases Side.eq_or_eq_other a d with rfl | rfl
  · rw [record_self,hn.party,hn.party_other,hn.sent]
    exact (h.link a).after_send hctr hrot
  · have hl := h.link d.other
    rw [Side.other_other] at hl ⊢
    rw [record_other,hn.party,hn.party_other,hn.sent_other]
    exact hl.congr rfl rfl rfl hrecv hchain (by simp only [keysOf,Session.sendFrame,hskip])

theorem Agreed.kem_sends (h : Agreed P base n T l) {n' : Net} {d : Side} {t : Session} {e : Sent}
    (hn : Sends n n' d t e) (h₁ : t.peerKem = (n.party d).peerKem)
    (h₂ : t.kemDk = (n.party d).kemDk) (a : Side) (ek : Bytes)
    (hek : (n'.party a).peerKem = some ek) :
    ∃ dk, (n'.party a.other).kemDk = some dk ∧ ek = P.mlKem768.encapsulationKey dk := by
  rcases Side.eq_or_eq_other a d with rfl | rfl
  · rw [hn.party,h₁] at hek
    rw [hn.party_other]
    exact h.kem a ek hek
  · have hk := h.kem d.other ek
    rw [hn.party_other] at hek
    rw [Side.other_other] at hk ⊢
    rw [hn.party,h₂]
    exact hk hek

theorem Agreed.known_sends (h : Agreed P base n T l) {n' : Net} {d : Side} {t : Session} {e : Sent}
    (hn : Sends n n' d t e) (h₁ : t.peerPub = (n.party d).peerPub)
    (hsub : n.announced ⊆ n'.announced) (a : Side) (p : Block 32)
    (hp : (n'.party a).peerPub = some p) : p ∈ n'.announced := by
  rcases Side.eq_or_eq_other a d with rfl | rfl
  · rw [hn.party,h₁] at hp
    exact hsub (h.known a p hp)
  · rw [hn.party_other] at hp
    exact hsub (h.known _ p hp)

/-- A party that has nothing new to mix sends within its epoch. -/
theorem Agreed.plain (h : Agreed P base n T l) {n' : Net} {d : Side} {payload : Bytes}
    (hp : (n.party d).peerPub = (n.party d).mixedPeer)
    (hn : Sends n n' d ((n.party d).sendFrame P (n.party d).sendChain payload).1
      ⟨((n.party d).sendFrame P (n.party d).sendChain payload).2,payload⟩)
    (ha : n'.announced = n.announced) :
    Agreed P base n' (record n T d (n.party d).sendChain P) l := by
  refine ⟨h.link_sends hn rfl ((h.link d).rotated_le.trans (by omega)) rfl rfl rfl,
    h.kem_sends hn rfl rfl,?_,?_,?_,?_,h.known_sends hn rfl (by rw [ha]; exact List.Subset.refl _)⟩
  · rcases Side.eq_or_eq_other d l with rfl | rfl
    · rw [hn.party]
      exact h.waits
    · have ho := hn.party_other
      rw [Side.other_other] at ho
      rw [ho]
      exact h.waits
  · rcases Side.eq_or_eq_other d l with rfl | rfl
    · rw [record_other,hn.party,hn.party_other,hn.sent_other]
      exact h.back.congr rfl rfl rfl rfl
    · have ho := hn.party_other
      have hl := h.link l.other
      rw [Side.other_other] at ho hl
      rw [record_self,hn.party,ho,hn.sent]
      rcases h.phase with ⟨_,_,hkey⟩ | ⟨_,_,hne⟩
      · exact h.back.after_plain hl hkey.symm
      · exact absurd hp hne
  · rcases Side.eq_or_eq_other d l with rfl | rfl
    · rw [record_self,hn.party,hn.party_other,hn.sent]
      rcases h.phase with ⟨hah,hwait,hkey⟩ | ⟨hs,hkey,hne⟩
      · exact .inl ⟨hah.after_plain (h.link d),hwait,hkey⟩
      · exact .inr ⟨hs.after_plain (h.link d) hkey.symm,hkey,hne⟩
    · have ho := hn.party_other
      have hso := hn.sent_other
      have hr := record_other (n := n) (T := T) (P := P) l.other (n.party l.other).sendChain
      rw [Side.other_other] at ho hso hr
      rw [hr,hn.party,ho,hso]
      rcases h.phase with ⟨hah,hwait,hkey⟩ | ⟨_,_,hne⟩
      · exact .inl ⟨hah.congr rfl rfl rfl rfl rfl rfl rfl rfl rfl rfl,hwait,hkey⟩
      · exact absurd hp hne
  · rw [ha]
    rcases Side.eq_or_eq_other d l with rfl | rfl
    · rw [hn.party]
      exact h.newest
    · have ho := hn.party_other
      rw [Side.other_other] at ho
      rw [ho]
      exact h.newest

/-- A party that has learned the newest key of its peer answers with a newer one. -/
theorem Agreed.rotation (h : Agreed P base n T l) {n' : Net} {t : Session} {chain : Block 32}
    {draw : Draw} {payload : Bytes}
    (hne : (n.party l.other).peerPub ≠ (n.party l.other).mixedPeer)
    (ht : Session.EpochStarted P (n.party l.other) t ((n.party l).myPub P)
      ((n.party l.other).sendCtr+1) draw chain)
    (hn : Sends n n' l.other (t.sendFrame P chain payload).1
      ⟨(t.sendFrame P chain payload).2,payload⟩)
    (ha : n'.announced = t.myPub P::n.announced) (hnodup : n'.announced.Nodup) :
    Agreed P base n' (record n T l.other chain P) l.other := by
  rcases h.phase with ⟨_,hwait,_⟩ | ⟨hs,hkey,_⟩
  · exact absurd hwait hne
  have ho := hn.party_other
  have hso := hn.sent_other
  have hl := h.link l.other
  have hr := record_other (n := n) (T := T) (P := P) l.other chain
  rw [Side.other_other] at ho hso hl hr
  have hnew : P.x25519.publicKey draw.ratchet ∉ n.announced := by
    have hmy : t.myPub P = P.x25519.publicKey draw.ratchet := by rw [Session.myPub,ht.myKp]
    rw [ha,List.nodup_cons,hmy] at hnodup
    exact hnodup.1
  have hah := h.back.after_rotation hl payload ht (by
    have hk := h.kem l.other
    rwa [Side.other_other] at hk) (fun heq => hnew (h.known l _ heq.symm))
  refine ⟨h.link_sends hn ht.sendCtr ht.rotatedAt.le ht.recvCtr ht.recvChain ht.skipped,
    h.kem_sends hn ht.peerKem ht.kemDk,?_,?_,.inl ⟨?_,?_,?_⟩,?_,
    h.known_sends hn ht.peerPub (by rw [ha]; exact List.subset_cons_self _ _)⟩
  · rw [hn.party]
    change t.peerPub = t.mixedPeer
    rw [ht.peerPub,ht.mixedPeer,hkey]
  · rw [Side.other_other,hr,ho,hn.party,hso]
    exact hs.congr rfl rfl ht.recvCtr ht.peerPub
  · rw [Side.other_other,record_self,hn.party,ho,hn.sent]
    exact hah
  · rw [Side.other_other,ho]
    exact h.waits
  · rw [Side.other_other,hn.party,ho]
    change t.peerPub = _
    rw [ht.peerPub,hkey]
  · rw [hn.party,ha]
    exact List.mem_cons_self

/-! ### Delivering -/

/-- `n'` is `n` after the peer of `d` became `r` on delivery of counter `ctr`. -/
structure Receives (n n' : Net) (d : Side) (r : Session) (ctr : ℕ) : Prop where
  party : n'.party d.other = r
  party_other : n'.party d = n.party d
  sent : n'.sent = n.sent
  delivered : n'.delivered d = ctr::n.delivered d
  delivered_other : n'.delivered d.other = n.delivered d.other
  announced : n'.announced = n.announced

/-- The receiving half changed and everything the other direction reads was kept. -/
structure KeepsSending (R r : Session) : Prop where
  sendCtr : r.sendCtr = R.sendCtr
  sendChain : r.sendChain = R.sendChain
  rotatedAt : r.sendRotatedAt = R.sendRotatedAt
  myKp : r.myKp = R.myKp
  oldKps : r.oldKps = R.oldKps
  mixedPeer : r.mixedPeer = R.mixedPeer
  epochPqCt : r.epochPqCt = R.epochPqCt
  peerKem : r.peerKem = R.peerKem
  kemDk : r.kemDk = R.kemDk

/-- Both links, given the one of the delivered frame. -/
theorem Agreed.link_receives (h : Agreed P base n T l) {n' : Net} {d : Side} {r : Session}
    {ctr : ℕ} (hn : Receives n n' d r ctr) (hk : KeepsSending (n.party d.other) r)
    (hl : Link P (T d) (base d) (n.party d) r (n.sent d) (ctr::n.delivered d)) (a : Side) :
    Link P (T a) (base a) (n'.party a) (n'.party a.other) (n'.sent a) (n'.delivered a) := by
  rw [hn.sent]
  rcases Side.eq_or_eq_other a d with rfl | rfl
  · rw [hn.party,hn.party_other,hn.delivered]
    exact hl
  · have hrev := h.link d.other
    rw [Side.other_other] at hrev ⊢
    rw [hn.party,hn.party_other,hn.delivered_other]
    exact hrev.congr hk.sendCtr hk.sendChain hk.rotatedAt rfl rfl rfl

theorem Agreed.kem_receives (h : Agreed P base n T l) {n' : Net} {d : Side} {r : Session}
    {ctr : ℕ} (hn : Receives n n' d r ctr) (hk : KeepsSending (n.party d.other) r) (a : Side)
    (ek : Bytes) (hek : (n'.party a).peerKem = some ek) :
    ∃ dk, (n'.party a.other).kemDk = some dk ∧ ek = P.mlKem768.encapsulationKey dk := by
  rcases Side.eq_or_eq_other a d with rfl | rfl
  · rw [hn.party_other] at hek
    rw [hn.party,hk.kemDk]
    exact h.kem a ek hek
  · have hrev := h.kem d.other ek
    rw [hn.party,hk.peerKem] at hek
    rw [Side.other_other] at hrev ⊢
    rw [hn.party_other]
    exact hrev hek

/-- A delivery that keeps the receiver's epoch keeps the phase. -/
theorem Agreed.receives_same (h : Agreed P base n T l) {n' : Net} {d : Side} {r : Session}
    {ctr : ℕ} (hn : Receives n n' d r ctr) (hk : KeepsSending (n.party d.other) r)
    (hl : Link P (T d) (base d) (n.party d) r (n.sent d) (ctr::n.delivered d))
    (hpeer : r.peerPub = (n.party d.other).peerPub)
    (hsync : InSync (T d) (n.party d) (n.party d.other) (n.sent d) →
      InSync (T d) (n.party d) r (n.sent d))
    (hahead : Ahead P (T d) (n.party d) (n.party d.other) (n.sent d) →
      Ahead P (T d) (n.party d) r (n.sent d)) : Agreed P base n' T l := by
  refine ⟨h.link_receives hn hk hl,h.kem_receives hn hk,?_,?_,?_,?_,?_⟩
  · rcases Side.eq_or_eq_other d l with rfl | rfl
    · rw [hn.party_other]
      exact h.waits
    · have ho := hn.party
      rw [Side.other_other] at ho hk hpeer
      rw [ho,hpeer,hk.mixedPeer]
      exact h.waits
  · rw [hn.sent]
    rcases Side.eq_or_eq_other d l with rfl | rfl
    · rw [hn.party,hn.party_other]
      exact h.back.congr hk.rotatedAt hk.sendCtr rfl rfl
    · have ho := hn.party
      rw [Side.other_other] at ho hsync
      rw [ho,hn.party_other]
      exact hsync h.back
  · rw [hn.sent]
    rcases Side.eq_or_eq_other d l with rfl | rfl
    · rw [hn.party,hn.party_other,hpeer,hk.mixedPeer,Session.myPub,Session.myPub,hk.myKp]
      rcases h.phase with ⟨hah,hrest⟩ | ⟨hs,hrest⟩
      · exact .inl ⟨hahead hah,hrest⟩
      · exact .inr ⟨hsync hs,hrest⟩
    · have ho := hn.party
      rw [Side.other_other] at ho hk hpeer
      rw [ho,hn.party_other,hpeer,Session.myPub,Session.myPub,hk.myKp]
      rcases h.phase with ⟨hah,hrest⟩ | ⟨hs,hrest⟩
      · exact .inl ⟨hah.congr hk.rotatedAt hk.sendCtr hk.myKp hk.mixedPeer hk.epochPqCt rfl rfl
          rfl rfl rfl,hrest⟩
      · exact .inr ⟨hs.congr hk.rotatedAt hk.sendCtr rfl rfl,hrest⟩
  · rw [hn.announced]
    rcases Side.eq_or_eq_other d l with rfl | rfl
    · rw [hn.party_other]
      exact h.newest
    · have ho := hn.party
      rw [Side.other_other] at ho hk
      rw [ho,Session.myPub,hk.myKp]
      exact h.newest
  · intro a p hp
    rw [hn.announced]
    rcases Side.eq_or_eq_other a d with rfl | rfl
    · rw [hn.party_other] at hp
      exact h.known a p hp
    · rw [hn.party,hpeer] at hp
      exact h.known _ p hp

/-- The first delivery of the newest epoch: the receiver has learned the newest key. -/
theorem Agreed.receives_start (h : Agreed P base n T l) {n' : Net} {r : Session} {ctr : ℕ}
    (hn : Receives n n' l r ctr) (hk : KeepsSending (n.party l.other) r)
    (hl : Link P (T l) (base l) (n.party l) r (n.sent l) (ctr::n.delivered l))
    (hahead : Ahead P (T l) (n.party l) (n.party l.other) (n.sent l))
    (hsync : InSync (T l) (n.party l) r (n.sent l))
    (hpeer : r.peerPub = some ((n.party l).myPub P)) : Agreed P base n' T l := by
  have hwait : (n.party l.other).peerPub = (n.party l.other).mixedPeer := by
    rcases h.phase with ⟨_,hw,_⟩ | ⟨hs,_,_⟩
    · exact hw
    · have := hs.rotated
      have := hahead.behind
      omega
  refine ⟨h.link_receives hn hk hl,h.kem_receives hn hk,?_,?_,.inr ⟨?_,?_,?_⟩,?_,?_⟩
  · rw [hn.party_other]
    exact h.waits
  · rw [hn.sent,hn.party,hn.party_other]
    exact h.back.congr hk.rotatedAt hk.sendCtr rfl rfl
  · rw [hn.sent,hn.party,hn.party_other]
    exact hsync
  · rw [hn.party,hn.party_other]
    exact hpeer
  · rw [hn.party,hpeer,hk.mixedPeer,← hwait]
    exact hahead.fresh
  · rw [hn.party_other,hn.announced]
    exact h.newest
  · intro a p hp
    rw [hn.announced]
    rcases Side.eq_or_eq_other a l with rfl | rfl
    · rw [hn.party_other] at hp
      exact h.known a p hp
    · rw [hn.party,hpeer] at hp
      cases hp
      exact h.newest

/-- One delivery: a first one opens to the payload that was sent, a later one is a
replay, and the agreement is kept. -/
theorem Agreed.delivers (h : Agreed P base n T l) {d : Side} {e : Sent} {now : ℕ}
    (he : e ∈ n.sent d) (hf : (n.party d.other).Fresh now)
    (hg : GapFits (n.party d.other) e.frame) :
    ∃ r, (n.party d.other).receiveAt P e.frame now =
        (r,if e.frame.ctr ∈ n.delivered d then .error .replay else .ok e.payload) ∧
      KeepsSending (n.party d.other) r ∧
      ∀ n', Receives n n' d r e.frame.ctr → Agreed P base n' T l := by
  have hl := h.link d
  have hlen : (n.party d.other).skipped.length ≤ maxSkip := by
    unfold GapFits at hg
    omega
  by_cases hdone : e.frame.ctr ∈ n.delivered d
  · rw [if_pos hdone,hl.receive_done hdone hf hlen]
    refine ⟨_,rfl,⟨rfl,rfl,rfl,rfl,rfl,rfl,rfl,rfl,rfl⟩,fun n' hn => ?_⟩
    exact h.receives_same hn ⟨rfl,rfl,rfl,rfl,rfl,rfl,rfl,rfl,rfl⟩ (hl.after_done hdone) rfl id id
  rw [if_neg hdone]
  by_cases hle : e.frame.ctr ≤ (n.party d.other).recvCtr
  · rw [hl.receive_skipped he hle hdone hf hlen]
    refine ⟨_,rfl,⟨rfl,rfl,rfl,rfl,rfl,rfl,rfl,rfl,rfl⟩,fun n' hn => ?_⟩
    exact h.receives_same hn ⟨rfl,rfl,rfl,rfl,rfl,rfl,rfl,rfl,rfl⟩ (hl.after_skipped he hle) rfl
      (fun hs => hs.congr rfl rfl rfl rfl)
      (fun ha => ha.congr rfl rfl rfl rfl rfl rfl rfl rfl rfl rfl)
  have hgt : (n.party d.other).recvCtr < e.frame.ctr := by omega
  rw [hl.receive_new he hgt (h.follows he hgt) hf hg]
  refine ⟨_,rfl,⟨rfl,rfl,rfl,rfl,rfl,rfl,rfl,rfl,rfl⟩,fun n' hn => ?_⟩
  have hkeeps : KeepsSending (n.party d.other) (received P (T d) (n.party d.other) e.frame now) :=
    ⟨rfl,rfl,rfl,rfl,rfl,rfl,rfl,rfl,rfl⟩
  have hlink := hl.after_new now he hgt
  rcases h.inSync_or_ahead d with hs | ⟨rfl,ha⟩
  · exact h.receives_same hn hkeeps hlink (hs.key e he hgt) (fun _ => hs.after_new now he hgt)
      (fun ha => absurd ha hs.not_ahead)
  · by_cases hlt : e.frame.ctr < (n.party d).sendRotatedAt
    · have hold := ha.after_old now he hgt hlt
      exact h.receives_same hn hkeeps hlink hold.2 (fun hs => absurd ha hs.not_ahead)
        (fun _ => hold.1)
    · have hstart := ha.after_start now he (by omega)
      exact h.receives_start hn hkeeps hlink ha hstart.1 hstart.2

/-! ### Whole runs -/

def firstCounter : Side → ℕ
  | .initiator => 1
  | .responder => 0

/-- The net after a completed handshake between `a` and `b`. -/
def start (P : Suite) (a b : Session) : Net where
  party
    | .initiator => a
    | .responder => b
  sent _ := []
  delivered _ := []
  announced := [a.myPub P]

theorem inv_start {a b : Session} (h : Paired P a b) : (start P a b).Inv P firstCounter := by
  obtain ⟨ha₁,ha₂,hb₁,hb₂⟩ := h.counters
  obtain ⟨hra,hrb⟩ := h.rotated
  obtain ⟨hsa,hsb⟩ := h.skipped
  let T : Side → Transcript (Block 32) := fun d =>
    match d with
    | .initiator => ⟨fun _ => a.sendChain,fun _ => a.sendChain⟩
    | .responder => ⟨fun _ => b.sendChain,fun _ => b.sendChain⟩
  have hlink : ∀ d, Link P (T d) (firstCounter d) ((start P a b).party d)
      ((start P a b).party d.other) [] [] := by
    intro d
    cases d with
    | initiator =>
        refine ⟨hb₂.ge,(hb₂.trans ha₁.symm).le,rfl,h.forward,?_,by simp,by simp,by simp,?_,?_,?_,
          (hra.trans ha₁.symm).le⟩
        · intro i h₁ h₂
          change 1 < i at h₁
          change i ≤ a.sendCtr at h₂
          omega
        · intro i
          change i ∈ b.skipped.map SkippedKey.ctr ↔ 1 < i ∧ i ≤ b.recvCtr ∧ i ∉ []
          simp only [hsb,hb₂,List.map_nil,List.not_mem_nil,not_false_eq_true,and_true,false_iff]
          omega
        · intro k hk
          change k ∈ b.skipped at hk
          simp [hsb] at hk
        · change (b.skipped.map SkippedKey.ctr).Nodup
          simp [hsb]
    | responder =>
        refine ⟨Nat.zero_le _,(ha₂.trans hb₁.symm).le,rfl,h.backward,?_,by simp,by simp,by simp,?_,
          ?_,?_,(hrb.trans hb₁.symm).le⟩
        · intro i h₁ h₂
          change 0 < i at h₁
          change i ≤ b.sendCtr at h₂
          omega
        · intro i
          change i ∈ a.skipped.map SkippedKey.ctr ↔ 0 < i ∧ i ≤ a.recvCtr ∧ i ∉ []
          simp only [hsa,ha₂,List.map_nil,List.not_mem_nil,not_false_eq_true,and_true,false_iff]
          omega
        · intro k hk
          change k ∈ a.skipped at hk
          simp [hsa] at hk
        · change (a.skipped.map SkippedKey.ctr).Nodup
          simp [hsa]
  refine ⟨T,.initiator,hlink,?_,?_,?_,.inr ⟨?_,h.responder_peer.1,?_⟩,List.mem_singleton_self _,?_⟩
  · intro d ek hek
    cases d with
    | initiator => exact h.kem.1 ek hek
    | responder => exact h.kem.2 ek hek
  · change a.peerPub = a.mixedPeer
    rw [h.initiator_peer.1,h.initiator_peer.2]
  · refine ⟨(hrb.trans ha₂.symm).le,?_,?_⟩
    · intro i h₁ h₂
      change a.recvCtr < i at h₁
      change i ≤ b.sendCtr at h₂
      omega
    · intro e he
      simp [start] at he
  · refine ⟨(hra.trans hb₂.symm).le,?_,?_⟩
    · intro i h₁ h₂
      change b.recvCtr < i at h₁
      change i ≤ a.sendCtr at h₂
      omega
    · intro e he
      simp [start] at he
  · change b.peerPub ≠ b.mixedPeer
    rw [h.responder_peer.1,h.responder_peer.2]
    simp
  · intro d p hp
    cases d with
    | initiator =>
        change a.peerPub = some p at hp
        rw [h.initiator_peer.1] at hp
        cases hp
    | responder =>
        change b.peerPub = some p at hp
        rw [h.responder_peer.1] at hp
        cases hp
        exact List.mem_singleton_self _

/-- One send of either side: always a frame, and the agreement is kept as long as
the drawn ratchet key is new. -/
theorem Agreed.sends (h : Agreed P base n T l) (d : Side) (payload : Bytes) (now : ℕ)
    (draw : Draw) :
    ∃ t frame, (n.party d).sendAt P payload now draw = (t,.ok frame) ∧
      ∀ n', Sends n n' d t ⟨frame,payload⟩ →
        n'.announced = (if (n.party d).rotates = none then n.announced
          else t.myPub P::n.announced) →
        n'.announced.Nodup → ∃ T' l', Agreed P base n' T' l' := by
  by_cases hp : (n.party d).peerPub = (n.party d).mixedPeer
  · have hnone := Session.rotates_eq_none hp
    refine ⟨_,_,Session.sendAt_plain P hnone payload now draw,fun n' hn ha _ => ?_⟩
    rw [if_pos hnone] at ha
    exact ⟨_,_,h.plain hp hn ha⟩
  · -- only the party without the newest key can have something new to mix
    have hd : d = l.other := by
      rcases Side.eq_or_eq_other d l with rfl | rfl
      · exact absurd h.waits hp
      · rfl
    subst hd
    rcases h.phase with ⟨_,hwait,_⟩ | ⟨_,hkey,_⟩
    · exact absurd hwait hp
    have hrot := Session.rotates_eq_some hkey hp
    obtain ⟨t,chain,ht,hsend⟩ :=
      Session.sendAt_rotating P (h.kemReady l.other) hrot payload now draw
    refine ⟨_,_,hsend,fun n' hn ha hnodup => ?_⟩
    rw [if_neg (by rw [hrot]; simp)] at ha
    exact ⟨_,_,h.rotation hp ht hn ha hnodup⟩

theorem inv_send (h : n.Inv P base) (d : Side) (payload : Bytes) (now : ℕ) (draw : Draw)
    (hnodup : (n.send P d payload now draw).announced.Nodup) :
    (n.send P d payload now draw).Inv P base := by
  obtain ⟨T,l,h⟩ := h
  obtain ⟨t,frame,hsend,hnext⟩ := h.sends d payload now draw
  refine hnext _ ⟨?_,?_,?_,?_,?_⟩ ?_ hnodup
  · simp only [send,hsend,Function.update_self]
  · simp only [send,hsend,Function.update_of_ne (Side.other_ne d)]
  · simp only [send,hsend,Function.update_self]
  · simp only [send,hsend,Function.update_of_ne (Side.other_ne d)]
  · simp only [send,hsend]
  · simp only [send,hsend]

theorem inv_deliver (h : n.Inv P base) {d : Side} {e : Sent} {now : ℕ} (he : e ∈ n.sent d)
    (hf : (n.party d.other).Fresh now) (hg : GapFits (n.party d.other) e.frame) :
    (n.deliver P d e.frame now).Inv P base := by
  obtain ⟨T,l,h⟩ := h
  obtain ⟨r,hr,_,hnext⟩ := h.delivers he hf hg
  refine ⟨T,l,hnext _ ⟨?_,?_,rfl,?_,?_,rfl⟩⟩
  · simp only [deliver,hr,Function.update_self]
  · simp only [deliver,Function.update_of_ne (Side.other_ne d).symm]
  · simp only [deliver,Function.update_self]
  · simp only [deliver,Function.update_of_ne (Side.other_ne d)]

theorem announced_subset (n : Net) (d : Side) (payload : Bytes) (now : ℕ) (draw : Draw) :
    n.announced <:+ (n.send P d payload now draw).announced := by
  unfold send
  split
  · exact List.suffix_rfl
  · simp only
    split_ifs
    · exact List.suffix_rfl
    · exact List.suffix_cons _ _

theorem inv_run {m : Net} (h : n.Inv P base) (hrun : Relation.ReflTransGen (Step P) n m)
    (hnodup : m.announced.Nodup) : m.Inv P base := by
  induction hrun with
  | refl => exact h
  | tail _ hstep ih =>
      cases hstep with
      | send d payload now draw =>
          exact inv_send (ih (hnodup.sublist (announced_subset _ d payload now draw).sublist)) d
            payload now draw hnodup
      | deliver d e now he hf hg => exact inv_deliver (ih hnodup) he hf hg

/-- From a completed handshake, along every schedule of sends and bounded deliveries:
(1) a first delivery returns the payload that was sent; (2) a later one returns an
error; (3) a frame that starts a new epoch is mixed with a key the receiver holds,
namely its present one; (4) every frame not yet passed belongs to the receiver's
epoch or to the epoch of any later frame, so no epoch is ever skipped. -/
theorem ratchet_agreement {identity ecdh ratchet : Block 32} {seed : Block 64} {created : U64}
    {material : InitiatorMaterial} {build : Block 32 → Bytes → Block 12 → Bytes} {now₁ now₂ : ℕ}
    {fm : FirstMove} {payload₀ : Bytes} {a b : Session} {m : Net}
    (ha : initiateCore P (P.mlDsa.publicKey identity)
      (issueBundleFromMaterial P identity ecdh seed created).1 material now₁ build = .ok (fm,a))
    (hb : (issueBundleFromMaterial P identity ecdh seed created).2.acceptFromMaterial P fm ratchet
      now₂ = .ok (payload₀,b))
    (hrun : Relation.ReflTransGen (Step P) (start P a b) m) (hkeys : m.announced.Nodup)
    (d : Side) (e : Sent) (he : e ∈ m.sent d) :
    (∀ now, (m.party d.other).Fresh now → GapFits (m.party d.other) e.frame →
      e.frame.ctr ∉ m.delivered d →
        ((m.party d.other).receiveAt P e.frame now).2 = .ok e.payload) ∧
    (∀ now, (m.party d.other).Fresh now → GapFits (m.party d.other) e.frame →
      e.frame.ctr ∈ m.delivered d →
        ((m.party d.other).receiveAt P e.frame now).2 = .error .replay) ∧
    ((m.party d.other).recvCtr < e.frame.ctr →
      some e.frame.senderPub ≠ (m.party d.other).peerPub →
        ∃ target sk, e.frame.mixedWith = some target ∧
          (m.party d.other).findKeypair P target = some sk ∧ P.x25519.publicKey sk = target) ∧
    (∀ f ∈ m.sent d, (m.party d.other).recvCtr < f.frame.ctr → f.frame.ctr ≤ e.frame.ctr →
      some f.frame.senderPub = (m.party d.other).peerPub ∨
        f.frame.senderPub = e.frame.senderPub) := by
  obtain ⟨b',hb',hpair⟩ := accept_initiate P ha ratchet now₂
  rw [hb] at hb'
  cases hb'
  obtain ⟨T,l,h⟩ := inv_run (inv_start hpair) hrun hkeys
  refine ⟨?_,?_,?_,?_⟩
  · intro now hf hg hd
    obtain ⟨r,hr,_⟩ := h.delivers he hf hg
    rw [hr,if_neg hd]
  · intro now hf hg hd
    obtain ⟨r,hr,_⟩ := h.delivers he hf hg
    rw [hr,if_pos hd]
  · intro hgt hne
    exact ⟨_,(m.party d.other).myKp,h.mixed_with he hgt hne,by simp [Session.findKeypair],rfl⟩
  · intro f hf hgt hle
    exact h.two_epochs he hf hgt hle

def sampleMaterial : InitiatorMaterial where
  eph := wordBlock 32 1
  kemMessage := wordBlock 32 2
  nonce := wordBlock 12 3
  ratchet := wordBlock 32 4

/-- The responder's first frame starts an epoch, and the initiator opens it. -/
theorem ratchet_agreement_reply : ∃ fm a b m e,
    initiateCore openSuite (openSuite.mlDsa.publicKey (wordBlock 32 7))
      (issueBundleFromMaterial openSuite (wordBlock 32 7) (wordBlock 32 8) (wordBlock 64 9) 0).1
      sampleMaterial 0 (fun _ _ _ => []) = .ok (fm,a) ∧
    (issueBundleFromMaterial openSuite (wordBlock 32 7) (wordBlock 32 8) (wordBlock 64 9)
      0).2.acceptFromMaterial openSuite fm (wordBlock 32 5) 0 = .ok ([],b) ∧
    m = (start openSuite a b).send openSuite .responder [1] 0 ⟨wordBlock 32 6,wordBlock 32 2⟩ ∧
    e ∈ m.sent .responder ∧ e.payload = [1] ∧
    ((m.party .initiator).receiveAt openSuite e.frame 0).2 = .ok [1] := by
  obtain ⟨fm,a,ha,hkp⟩ := initiateCore_isOk openSuite (wordBlock 32 7) (wordBlock 32 8)
    (wordBlock 64 9) 0 sampleMaterial 0 (fun _ _ _ => [])
  obtain ⟨b,hb,hpair⟩ := accept_initiate openSuite ha (wordBlock 32 5) 0
  have hrot : b.rotates = some (a.myPub openSuite) :=
    Session.rotates_eq_some hpair.responder_peer.1
      (by rw [hpair.responder_peer.1,hpair.responder_peer.2]; simp)
  have hkem : b.KemReady openSuite := by
    intro ek hek
    obtain ⟨dk,_,rfl⟩ := hpair.kem.2 ek hek
    exact openSuite.mlKem768.encapsulationKey_valid dk
  obtain ⟨t,chain,ht,hsend⟩ := Session.sendAt_rotating openSuite hkem hrot [1] 0
    ⟨wordBlock 32 6,wordBlock 32 2⟩
  let m := (start openSuite a b).send openSuite .responder [1] 0 ⟨wordBlock 32 6,wordBlock 32 2⟩
  have hm : m = { start openSuite a b with
      party := Function.update (start openSuite a b).party .responder (t.sendFrame openSuite chain [1]).1
      sent := Function.update (fun _ => []) .responder [⟨(t.sendFrame openSuite chain [1]).2,[1]⟩]
      announced := (t.sendFrame openSuite chain [1]).1.myPub openSuite::[a.myPub openSuite] } := by
    change (start openSuite a b).send openSuite .responder [1] 0 _ = _
    unfold send
    change (match b.sendAt openSuite [1] 0 ⟨wordBlock 32 6,wordBlock 32 2⟩ with
      | (t,.error _) => _
      | (t,.ok frame) => _) = _
    rw [hsend]
    have hne : ¬ ((start openSuite a b).party .responder).rotates = none := by
      change ¬ b.rotates = none
      rw [hrot]
      simp
    simp only [hne,if_false]
    rfl
  have hsent : (⟨(t.sendFrame openSuite chain [1]).2,[1]⟩ : Sent) ∈ m.sent .responder := by
    rw [hm]
    simp
  have hinit : m.party Side.responder.other = a := by
    rw [hm]
    rfl
  have hkeys : m.announced.Nodup := by
    have h₁ : (t.sendFrame openSuite chain [1]).1.myKp = wordBlock 32 6 := ht.myKp
    rw [hm]
    simp only [Session.myPub,h₁,hkp]
    decide
  have hmain := ratchet_agreement (P := openSuite) ha hb
    (.single (.send (start openSuite a b) .responder [1] 0 ⟨wordBlock 32 6,wordBlock 32 2⟩)) hkeys
    .responder _ hsent
  refine ⟨fm,a,b,m,_,ha,hb,rfl,hsent,rfl,hmain.1 0 ?_ ?_ ?_⟩
  · rw [hinit]
    intro k hk
    rw [hpair.skipped.1] at hk
    simp at hk
  · rw [hinit]
    unfold GapFits
    rw [hpair.skipped.1]
    simp only [Session.sendFrame,Session.sendHeader,ht.sendCtr,hpair.counters.2.2.1,
      hpair.counters.2.1]
    decide
  · change _ ∉ m.delivered Side.responder
    rw [hm]
    simp [start]


end Net

end Gcoms.RatchetAgreement
