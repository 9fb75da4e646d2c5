import Gcoms.FlowWindow

/-!
# Credit across a lossy network

One direction of a session: a sender window, a receiver window, and a network
that keeps every packet and every receipt ever emitted. A step sends a packet,
delivers any emitted packet, or delivers any emitted receipt, so loss,
reordering and duplication are all schedules of the same relation. A call that
fails leaves the joint state as it was.

The invariant ties the two windows together: what the sender believes to be
received was received, nothing beyond the sent counter was received, and every
receipt in the network seals an earlier receive coverage under the authority of
a packet that was sent. The three window widths then agree: a retained packet is
at most 63 above the receive floor and at most 62 below the highest received
counter.
-/
namespace Gcoms.FlowCredit
open ByteCodec SortedMaps Primitives FlowRecord FlowCoverage FlowWindow

structure Packet where
  counter : ℕ
  bytes : Bytes
  record : Record
  deriving DecidableEq

def Packet.authority (P : Suite) (session : Block 16) (p : Packet) : Authority :=
  Authority.new P session (P.sha256 p.bytes) p.record.secret

/-- The receiver's work on a delivered packet: authenticate a new counter, then
issue the current receipt. -/
def handle (P : Suite) (w : Window) (p : Packet) : Except Error (Bytes × Window) :=
  if w.received.contains p.counter then w.creditForDuplicate P p.counter p.bytes
  else
    match w.recordAuthenticated P p.counter p.bytes p.record with
    | .error e => .error e
    | .ok v => v.creditForDuplicate P p.counter p.bytes

/-- Handling succeeds, by acceptance of a new counter or by a surviving entry. -/
def Handles (P : Suite) (w : Window) (p : Packet) : Prop :=
  (w.received.contains p.counter = false ∧ ∃ v,
    w.recordAuthenticated P p.counter p.bytes p.record = .ok v ∧
      ∃ r, v.creditForDuplicate P p.counter p.bytes = .ok r) ∨
  (w.received.contains p.counter = true ∧ (∃ e, w.rx.find? p.counter = some e) ∧
    ∃ r, w.creditForDuplicate P p.counter p.bytes = .ok r)

structure Joint where
  sender : Window
  receiver : Window
  packets : List Packet
  credits : List Bytes
  deriving DecidableEq

namespace Joint
variable (P : Suite)

def start (w : Window) : Joint := ⟨w,w,[],[]⟩

def send (s : Joint) (bytes : Bytes) (record : Record) (sentUnix : U64) : Except Error Joint :=
  match s.sender.nextCounter record.purpose with
  | .error e => .error e
  | .ok counter =>
    match s.sender.recordSent P counter bytes record sentUnix.val with
    | .error e => .error e
    | .ok v => .ok { s with sender := v, packets := ⟨counter,bytes,record⟩::s.packets }

def deliver (s : Joint) (p : Packet) : Except Error Joint :=
  match handle P s.receiver p with
  | .error e => .error e
  | .ok (credit,v) => .ok { s with receiver := v, credits := credit::s.credits }

def credit (s : Joint) (bytes : Bytes) : Except Error Joint :=
  match s.sender.acceptCredit P bytes with
  | .error e => .error e
  | .ok (_,v) => .ok { s with sender := v }

inductive Step : Joint → Joint → Prop where
  | send {s t : Joint} (bytes : Bytes) (record : Record) (sentUnix : U64)
      (h : s.send P bytes record sentUnix = .ok t) : Step s t
  | deliver {s t : Joint} (p : Packet) (hp : p ∈ s.packets) (h : s.deliver P p = .ok t) : Step s t
  | credit {s t : Joint} (bytes : Bytes) (hb : bytes ∈ s.credits)
      (h : s.credit P bytes = .ok t) : Step s t

/-- One event of an executable schedule; packets and receipts are chosen by their
position in the network. -/
inductive Event where
  | send (bytes : Bytes) (record : Record) (sentUnix : U64)
  | deliver (index : ℕ)
  | credit (index : ℕ)

def act (s : Joint) : Event → Except Error Joint
  | .send bytes record sentUnix => s.send P bytes record sentUnix
  | .deliver index =>
      match s.packets[index]? with
      | none => .ok s
      | some p => s.deliver P p
  | .credit index =>
      match s.credits[index]? with
      | none => .ok s
      | some bytes => s.credit P bytes

def schedule (s : Joint) : List Event → Except Error Joint
  | [] => .ok s
  | e::es =>
      match s.act P e with
      | .error err => .error err
      | .ok t => t.schedule es

theorem act_reaches {s t : Joint} {e : Event} (h : s.act P e = .ok t) :
    Relation.ReflTransGen (Step P) s t := by
  cases e with
  | send bytes record sentUnix => exact .single (.send bytes record sentUnix h)
  | deliver index =>
      simp only [act] at h
      split at h
      · cases h
        exact .refl
      · next p hp => exact .single (.deliver p (List.mem_of_getElem? hp) h)
  | credit index =>
      simp only [act] at h
      split at h
      · cases h
        exact .refl
      · next bytes hb => exact .single (.credit bytes (List.mem_of_getElem? hb) h)

theorem schedule_reaches {s t : Joint} {es : List Event} (h : s.schedule P es = .ok t) :
    Relation.ReflTransGen (Step P) s t := by
  induction es generalizing s with
  | nil =>
      cases h
      exact .refl
  | cons e es ih =>
      simp only [schedule] at h
      split at h
      · simp at h
      · next u hu => exact (act_reaches P hu).trans (ih h)

/-- Within the run, a receipt reference determines the authority it was derived for. -/
def CollisionFree (s : Joint) : Prop :=
  ∀ p ∈ s.packets, ∀ q ∈ s.packets,
    (p.authority P s.sender.session).reference = (q.authority P s.sender.session).reference →
      p.authority P s.sender.session = q.authority P s.sender.session

structure Inv (s : Joint) : Prop where
  sender : s.sender.Valid P
  receiver : s.receiver.Valid P
  session : s.receiver.session = s.sender.session
  credited_sub : s.sender.credited.covered ⊆ s.receiver.received.covered
  received_le : s.receiver.received.top ≤ s.sender.sent
  packet_ok : ∀ p ∈ s.packets, 0 < p.counter ∧ p.counter ≤ s.sender.sent ∧ p.bytes ≠ [] ∧
    p.bytes.length ≤ maxMessage
  packet_unique : ∀ p ∈ s.packets, ∀ q ∈ s.packets, p.counter = q.counter → p = q
  tx_sent : ∀ c e, s.sender.tx.find? c = some e → ∃ p ∈ s.packets,
    p.counter = c ∧ p.bytes = e.packet ∧ e.authority = p.authority P s.sender.session
  rx_sent : ∀ c e, s.receiver.rx.find? c = some e → ∃ p ∈ s.packets,
    p.counter = c ∧ e.authority = p.authority P s.sender.session
  credit_sent : ∀ b ∈ s.credits, ∃ p ∈ s.packets, ∃ c : Coverage, c.Valid ∧
    b = sealCredit P s.sender.session (p.authority P s.sender.session) c ∧
    c.covered ⊆ s.receiver.received.covered

theorem inv_start {session : Block 16} {w : Window} (h : Window.new session = .ok w) :
    (start w).Inv P := by
  have hw : w.Valid P := Window.newGeneration_valid P (by norm_num) h
  obtain ⟨_,_,rfl⟩ := Window.newGeneration_ok h
  exact ⟨hw,hw,rfl,subset_rfl,le_refl 0,by simp [start],by simp [start],by simp [start],
    by simp [start],by simp [start]⟩

/-! ## One step -/

theorem inv_send {s t : Joint} (hs : s.Inv P) {bytes : Bytes} {record : Record} {sentUnix : U64}
    (h : s.send P bytes record sentUnix = .ok t) : t.Inv P := by
  unfold send at h
  cases hn : s.sender.nextCounter record.purpose with
  | error e => simp [hn] at h
  | ok counter =>
      simp only [hn] at h
      cases hr : s.sender.recordSent P counter bytes record sentUnix.val with
      | error e => simp [hr] at h
      | ok v =>
          simp only [hr] at h
          cases h
          have hv := Window.recordSent_valid P hs.sender sentUnix.isLt hr
          obtain ⟨⟨hne,hle⟩,_,_,_,rfl⟩ := Window.recordSent_ok P hr
          obtain ⟨rfl,_,_⟩ := Window.nextCounter_ok hn
          have hrl := hs.received_le
          refine ⟨hv,hs.receiver,hs.session,hs.credited_sub,by simp only; omega,?_,?_,?_,?_,?_⟩
          · intro p hp
            rcases List.mem_cons.mp hp with rfl | hp
            · exact ⟨Nat.succ_pos _,le_rfl,hne,hle⟩
            · have := hs.packet_ok p hp
              exact ⟨this.1,by simp only; omega,this.2.2⟩
          · intro p hp q hq hpq
            rcases List.mem_cons.mp hp with rfl | hp <;> rcases List.mem_cons.mp hq with rfl | hq
            · rfl
            · have := (hs.packet_ok q hq).2.1
              simp only at hpq
              omega
            · have := (hs.packet_ok p hp).2.1
              simp only at hpq
              omega
            · exact hs.packet_unique p hp q hq hpq
          · intro c e he
            simp only [SortedMap.find?_insert] at he
            split_ifs at he with hc
            · cases he
              exact ⟨_,List.mem_cons_self,hc.symm,rfl,rfl⟩
            · obtain ⟨p,hp,hrest⟩ := hs.tx_sent c e he
              exact ⟨p,List.mem_cons_of_mem _ hp,hrest⟩
          · intro c e he
            obtain ⟨p,hp,hrest⟩ := hs.rx_sent c e he
            exact ⟨p,List.mem_cons_of_mem _ hp,hrest⟩
          · intro b hb
            obtain ⟨p,hp,hrest⟩ := hs.credit_sent b hb
            exact ⟨p,List.mem_cons_of_mem _ hp,hrest⟩

/-- Emitting the current receipt keeps the invariant. -/
theorem inv_issue {s : Joint} (hs : s.Inv P) {counter : ℕ} {packet credit : Bytes} {v : Window}
    (h : s.receiver.creditForDuplicate P counter packet = .ok (credit,v)) :
    Inv P { s with receiver := v, credits := credit::s.credits } := by
  have hv := Window.creditForDuplicate_valid P hs.receiver h
  obtain ⟨_,t,_,_,ht,hcredit,rfl⟩ := Window.creditForDuplicate_ok P hs.receiver h
  refine ⟨hs.sender,hv,hs.session,hs.credited_sub,hs.received_le,hs.packet_ok,hs.packet_unique,
    hs.tx_sent,?_,?_⟩
  · intro c e he
    simp only [SortedMap.find?_insert] at he
    split_ifs at he with hc
    · cases he
      rw [hc]
      exact hs.rx_sent _ t ht
    · exact hs.rx_sent c e he
  · intro b hb
    rcases List.mem_cons.mp hb with rfl | hb
    · obtain ⟨p,hp,_,ha⟩ := hs.rx_sent _ t ht
      refine ⟨p,hp,s.receiver.received,hs.receiver.received,?_,subset_rfl⟩
      rw [hcredit,Window.currentCredit,ha,hs.session]
    · exact hs.credit_sent b hb

/-- Recording a sent packet keeps the invariant. -/
theorem inv_record {s : Joint} (hs : s.Inv P) {p : Packet} (hp : p ∈ s.packets) {v : Window}
    (h : s.receiver.recordAuthenticated P p.counter p.bytes p.record = .ok v) :
    Inv P { s with receiver := v } := by
  obtain ⟨_,hle,_,_⟩ := hs.packet_ok p hp
  have hlt : p.counter < 2^64 := hle.trans_lt hs.sender.sent_lt
  have hv := Window.recordAuthenticated_valid P hs.receiver hlt h
  obtain ⟨_,_,_,d,_,hset,_,htop,rfl⟩ := Window.recordAuthenticated_ok P hs.receiver hlt h
  have hgrow : s.receiver.received.covered ⊆ d.covered := by
    rw [hset]
    exact Set.subset_insert _ _
  refine ⟨hs.sender,hv,hs.session,hs.credited_sub.trans hgrow,?_,hs.packet_ok,hs.packet_unique,
    hs.tx_sent,?_,?_⟩
  · simp only [htop]
    exact max_le hle hs.received_le
  · intro c e he
    simp only [SortedMap.find?_retain,Option.filter_eq_some_iff,SortedMap.find?_insert] at he
    obtain ⟨he,_⟩ := he
    split_ifs at he with hc
    · cases he
      exact ⟨p,hp,hc.symm,by rw [hs.session]; rfl⟩
    · exact hs.rx_sent c e he
  · intro b hb
    obtain ⟨q,hq,c,hc,hbytes,hsub⟩ := hs.credit_sent b hb
    exact ⟨q,hq,c,hc,hbytes,hsub.trans hgrow⟩

theorem inv_deliver {s t : Joint} (hs : s.Inv P) {p : Packet} (hp : p ∈ s.packets)
    (h : s.deliver P p = .ok t) : t.Inv P := by
  unfold deliver at h
  cases hh : handle P s.receiver p with
  | error e => simp [hh] at h
  | ok r =>
      obtain ⟨credit,v⟩ := r
      simp only [hh] at h
      cases h
      unfold handle at hh
      split_ifs at hh
      · exact inv_issue P hs hh
      · cases hr : s.receiver.recordAuthenticated P p.counter p.bytes p.record with
        | error e => simp [hr] at hh
        | ok u =>
            simp only [hr] at hh
            exact inv_issue P (inv_record P hs hp hr) hh

/-- A retained entry with the reference of a sent packet has that packet's authority. -/
theorem Inv.authority_eq {s : Joint} (hs : s.Inv P) (hc : s.CollisionFree P) {c : ℕ} {e : Sent}
    (he : s.sender.tx.find? c = some e) {p : Packet} (hp : p ∈ s.packets)
    (h : e.authority.reference = (p.authority P s.sender.session).reference) :
    e.authority = p.authority P s.sender.session := by
  obtain ⟨q,hq,_,_,ha⟩ := hs.tx_sent c e he
  rw [ha] at h ⊢
  exact hc q hq p hp h

theorem inv_credit {s t : Joint} (hs : s.Inv P) (hfree : s.CollisionFree P) {bytes : Bytes}
    (hb : bytes ∈ s.credits) (h : s.credit P bytes = .ok t) : t.Inv P := by
  unfold credit at h
  cases ha : s.sender.acceptCredit P bytes with
  | error e => simp [ha] at h
  | ok r =>
      obtain ⟨changed,v⟩ := r
      simp only [ha] at h
      cases h
      have hv := Window.acceptCredit_valid P hs.sender ha
      obtain ⟨c,e,coverage,he,href,hdec,⟨_,rfl⟩ | ⟨m,_,hset,_,_,rfl⟩⟩ :=
        Window.acceptCredit_ok P hs.sender ha
      · exact hs
      · obtain ⟨p,hp,k,hk,rfl,hsub⟩ := hs.credit_sent bytes hb
        rw [sealCredit_reference] at href
        have hauth := hs.authority_eq P hfree he hp (List.Vector.eq _ _ href)
        rw [hauth,decodeCredit_sealCredit P _ _ hk] at hdec
        cases hdec
        refine ⟨hv,hs.receiver,hs.session,?_,hs.received_le,hs.packet_ok,hs.packet_unique,?_,
          hs.rx_sent,hs.credit_sent⟩
        · simp only [hset]
          exact Set.union_subset hs.credited_sub hsub
        · intro d f hf
          simp only [SortedMap.find?_retain,Option.filter_eq_some_iff] at hf
          exact hs.tx_sent d f hf.1

theorem inv_step {s t : Joint} (hs : s.Inv P) (hfree : s.CollisionFree P) (h : Step P s t) :
    t.Inv P := by
  cases h with
  | send bytes record sentUnix h => exact inv_send P hs h
  | deliver p hp h => exact inv_deliver P hs hp h
  | credit bytes hb h => exact inv_credit P hs hfree hb h

/-! ## Whole runs -/

/-- A step never forgets a packet and never changes the session. -/
theorem Step.grows {s t : Joint} (h : Step P s t) :
    s.packets ⊆ t.packets ∧ t.sender.session = s.sender.session := by
  cases h with
  | send bytes record sentUnix h =>
      unfold Joint.send at h
      split at h
      · simp at h
      · split at h
        · simp at h
        · next hr =>
            cases h
            obtain ⟨_,_,_,_,rfl⟩ := Window.recordSent_ok P hr
            exact ⟨List.subset_cons_self _ _,rfl⟩
  | deliver p hp h =>
      unfold Joint.deliver at h
      split at h
      · simp at h
      · cases h
        exact ⟨List.Subset.refl _,rfl⟩
  | credit bytes hb h =>
      unfold Joint.credit at h
      split at h
      · simp at h
      · next ha =>
          cases h
          obtain ⟨_,_,rfl⟩ := Window.acceptCredit_frame P ha
          exact ⟨List.Subset.refl _,rfl⟩

theorem CollisionFree.of_step {s t : Joint} (h : Step P s t) (ht : t.CollisionFree P) :
    s.CollisionFree P := by
  obtain ⟨hsub,hsession⟩ := h.grows
  intro p hp q hq
  rw [← hsession]
  exact ht p (hsub hp) q (hsub hq)

theorem inv_run {s t : Joint} (hs : s.Inv P) (h : Relation.ReflTransGen (Step P) s t)
    (hfree : t.CollisionFree P) : t.Inv P := by
  induction h with
  | refl => exact hs
  | tail _ hstep ih =>
      have hprev := CollisionFree.of_step P hstep hfree
      exact inv_step P (ih hprev) hprev hstep

/-! ## What the invariant gives -/

/-- A retained packet is handled: the window, the bitmap and the receive horizon
have matching widths. -/
theorem Inv.handles {s : Joint} (hs : s.Inv P) {c : ℕ} {e : Sent}
    (he : s.sender.tx.find? c = some e) {p : Packet} (hp : p ∈ s.packets) (hpc : p.counter = c) :
    Handles P s.receiver p := by
  obtain ⟨hfloor,hsent⟩ := (hs.sender.tx_dom c).mp ⟨e,he⟩
  obtain ⟨hpos,hle,hne,hlen⟩ := hs.packet_ok p hp
  have hwin := hs.sender.window
  have hmono := Coverage.floor_le_of_subset hs.receiver.received.even hs.credited_sub
  have htop := hs.received_le
  have hlt : p.counter < 2^64 := hle.trans_lt hs.sender.sent_lt
  by_cases hmem : p.counter ∈ s.receiver.received.covered
  · have hcont := (Coverage.contains_iff hs.receiver.received.mask_lt).mpr hmem
    obtain ⟨f,hf⟩ := (hs.receiver.rx_dom p.counter).mpr ⟨hpos,by omega,hmem⟩
    obtain ⟨q,hq,hqc,ha⟩ := hs.rx_sent _ f hf
    have hqp := hs.packet_unique q hq p hp hqc
    subst hqp
    exact .inr ⟨hcont,⟨f,hf⟩,Window.creditForDuplicate_isOk P hs.receiver hlen hf (by rw [ha]; rfl)⟩
  · have hcont : s.receiver.received.contains p.counter = false := by
      rw [← Bool.not_eq_true,Coverage.contains_iff hs.receiver.received.mask_lt]
      exact hmem
    obtain ⟨v,hv⟩ := Window.recordAuthenticated_isOk P hs.receiver hlt ⟨hne,hlen⟩ p.record hmem
      (by omega)
    refine .inl ⟨hcont,v,hv,?_⟩
    have hvalid := Window.recordAuthenticated_valid P hs.receiver hlt hv
    obtain ⟨_,_,_,d,_,_,_,hdtop,rfl⟩ := Window.recordAuthenticated_ok P hs.receiver hlt hv
    have hcw : counterWindow-1 = 62 := rfl
    refine Window.creditForDuplicate_isOk P hvalid hlen
      (e := ⟨Authority.new P s.receiver.session (P.sha256 p.bytes) p.record.secret,none⟩) ?_ rfl
    simp only [SortedMap.find?_retain,SortedMap.find?_insert_self,Option.filter_some]
    rw [if_pos (by simp only [decide_eq_true_eq,hdtop,hcw]; omega)]

/-- The current receipt either brings the sender level with the receiver, or names
a retired reference of a sender that is level already. -/
theorem Inv.credit_levels {s : Joint} (hs : s.Inv P) (hfree : s.CollisionFree P) {counter : ℕ}
    {packet bytes : Bytes} {v : Window}
    (h : s.receiver.creditForDuplicate P counter packet = .ok (bytes,v)) :
    (∃ changed u, s.sender.acceptCredit P bytes = .ok (changed,u) ∧
      u.credited = s.receiver.received) ∨
    (s.sender.acceptCredit P bytes = .error .unknownReceipt ∧
      s.sender.credited = s.receiver.received) := by
  obtain ⟨_,t,_,_,ht,rfl,_⟩ := Window.creditForDuplicate_ok P hs.receiver h
  obtain ⟨p,hp,hpc,ha⟩ := hs.rx_sent _ t ht
  have hr := hs.receiver.received
  have hmono := Coverage.floor_le_of_subset hr.even hs.credited_sub
  have htop := hs.received_le
  unfold Window.acceptCredit Window.currentCredit
  rw [hs.session,ha,if_neg (by simp [sealCredit_length]),if_neg (by simp [sealCredit_magic]),
    if_neg (by simp [sealCredit_session]),sealCredit_reference]
  cases hf : s.sender.tx.entries.find? (fun e => decide (e.2.authority.reference.toList =
      (p.authority P s.sender.session).reference.toList)) with
  | none =>
      refine .inr ⟨rfl,Coverage.ext_covered hs.sender.credited.even hr.even ?_⟩
      refine hs.credited_sub.antisymm ?_
      -- were the highest received counter still retained, its reference would be found
      have hretired : s.receiver.received.top ≤ s.sender.credited.floor := by
        by_contra hgt
        obtain ⟨e,he⟩ := (hs.sender.tx_dom s.receiver.received.top).mpr ⟨by omega,htop⟩
        obtain ⟨q,hq,hqc,_,hqa⟩ := hs.tx_sent _ e he
        have hqp := hs.packet_unique q hq p hp (hqc.trans hpc.symm)
        rw [List.find?_eq_none] at hf
        have := hf _ (SortedMap.mem_iff_find?.mpr he)
        simp [hqa,hqp] at this
      intro k hk
      exact Coverage.mem_of_le_floor ((Coverage.le_top hk).trans hretired)
  | some entry =>
      obtain ⟨d,e⟩ := entry
      have he := SortedMap.mem_iff_find?.mp (List.mem_of_find?_eq_some hf)
      have href : e.authority.reference.toList =
          (p.authority P s.sender.session).reference.toList := by simpa using List.find?_some hf
      have hauth := hs.authority_eq P hfree he hp (List.Vector.eq _ _ href)
      obtain ⟨m,hm,hmv,hset⟩ := Coverage.merge_spec hs.sender.credited hr hmono
        hs.sender.credited_le htop hs.sender.window
      simp only [hauth,decodeCredit_sealCredit P _ _ hr,hr.highest,hm]
      rw [if_neg (by omega),if_neg (by omega)]
      refine .inl ⟨_,_,rfl,Coverage.ext_covered hmv.even hr.even ?_⟩
      simp only [hset]
      exact Set.union_eq_self_of_subset_left hs.credited_sub

/-- A sender that is level with a receiver missing nothing may send for every purpose. -/
theorem nextCounter_of_level {w : Window} (h : w.sent ≤ w.credited.floor)
    (hlt : w.sent+1 < 2^64) (purpose : Purpose) : w.nextCounter purpose = .ok (w.sent+1) := by
  have hpos : 1 ≤ purpose.limit := by cases purpose <;> decide
  unfold Window.nextCounter
  rw [if_pos hlt,if_neg (by omega)]

/-- In every reachable joint state: (a) credited counters were received and the
sender stays within its window; (b) every retained packet is handled when it is
delivered; (c) the receipt the receiver would issue now brings the sender level,
or names a reference that a level sender has retired; (d) a receiver that misses
nothing can therefore always reopen the sender's window for every purpose. -/
theorem credit_never_strands {session : Block 16} {w : Window} {s : Joint}
    (hw : Window.new session = .ok w) (hs : Relation.ReflTransGen (Step P) (start w) s)
    (hfree : s.CollisionFree P) :
    ((∀ c, s.sender.credited.contains c = true → s.receiver.received.contains c = true) ∧
      s.sender.credited.floor ≤ s.sender.sent ∧
      s.sender.sent-s.sender.credited.floor ≤ counterWindow) ∧
    (∀ c e, s.sender.tx.find? c = some e → ∃ p ∈ s.packets,
      p.counter = c ∧ p.bytes = e.packet ∧ Handles P s.receiver p) ∧
    (∀ counter packet bytes v, s.receiver.creditForDuplicate P counter packet = .ok (bytes,v) →
      (∃ changed u, s.sender.acceptCredit P bytes = .ok (changed,u) ∧
        u.credited = s.receiver.received) ∨
      (s.sender.acceptCredit P bytes = .error .unknownReceipt ∧
        s.sender.credited = s.receiver.received)) ∧
    (s.receiver.received.floor = s.sender.sent → s.sender.sent+1 < 2^64 →
      ∀ counter packet bytes v, s.receiver.creditForDuplicate P counter packet = .ok (bytes,v) →
        ∃ u, ((∃ changed, s.sender.acceptCredit P bytes = .ok (changed,u)) ∨ u = s.sender) ∧
          ∀ purpose, u.nextCounter purpose = .ok (s.sender.sent+1)) := by
  have hi := inv_run P (inv_start P hw) hs hfree
  have hwin := hi.sender.window
  have hle := s.sender.credited.floor_le_top.trans hi.sender.credited_le
  have hcw : counterWindow = 63 := rfl
  refine ⟨⟨?_,hle,by omega⟩,?_,?_,?_⟩
  · intro c hc
    rw [Coverage.contains_iff hi.sender.credited.mask_lt] at hc
    rw [Coverage.contains_iff hi.receiver.received.mask_lt]
    exact hi.credited_sub hc
  · intro c e he
    obtain ⟨p,hp,hpc,hpb,_⟩ := hi.tx_sent c e he
    exact ⟨p,hp,hpc,hpb,hi.handles P he hp hpc⟩
  · intro counter packet bytes v h
    exact hi.credit_levels P hfree h
  · intro hall hlt counter packet bytes v h
    rcases hi.credit_levels P hfree h with ⟨changed,u,hu,hcred⟩ | ⟨_,hcred⟩
    · obtain ⟨credited,tx,rfl⟩ := Window.acceptCredit_frame P hu
      simp only at hcred
      refine ⟨_,.inl ⟨changed,hu⟩,nextCounter_of_level ?_ hlt⟩
      simp only [hcred,hall,le_refl]
    · refine ⟨_,.inr rfl,fun purpose => nextCounter_of_level ?_ hlt purpose⟩
      rw [hcred,hall]

def sampleSession : Block 16 := wordBlock 16 1

def sampleRecord : Record where
  purpose := .control
  notAfter := 0
  secret := wordBlock 32 5
  body := []
  body_le := by decide
  timed := fun _ => rfl

def sampleWindow : Window where
  generation := 1
  session := sampleSession
  sent := 0
  credited := .empty
  received := .empty
  tx := .empty
  rx := .empty

/-- Two packets are sent, the second is delivered, and its receipt comes back. -/
def sampleEvents : List Event :=
  [.send [7] sampleRecord 1,.send [8] sampleRecord 1,.deliver 0,.credit 0]

/-- Both packets are still retained, and each is handled. -/
theorem credit_never_strands_gap : ∃ s, schedule openSuite (start sampleWindow) sampleEvents = .ok s ∧
    s.sender.credited = ⟨0,2⟩ ∧ s.sender.tx.size = 2 ∧
    ∀ c e, s.sender.tx.find? c = some e → ∃ p ∈ s.packets,
      p.counter = c ∧ p.bytes = e.packet ∧ Handles openSuite s.receiver p := by
  obtain ⟨s,hs,hcredited,hsize,hfree⟩ : ∃ s,
      schedule openSuite (start sampleWindow) sampleEvents = .ok s ∧
      s.sender.credited = ⟨0,2⟩ ∧ s.sender.tx.size = 2 ∧ s.CollisionFree openSuite :=
    ⟨_,rfl,by decide,by decide,by unfold CollisionFree; decide⟩
  have hw : Window.new sampleSession = .ok sampleWindow := rfl
  exact ⟨s,hs,hcredited,hsize,
    (credit_never_strands openSuite hw (schedule_reaches openSuite hs) hfree).2.1⟩

end Joint

end Gcoms.FlowCredit
