import Gcoms.FlowCredit
import Gcoms.FlowStorage

/-!
# Credit nonces across a receiver's lifetime

A receiver log pairs every receipt ever returned with the coverage it was
returned for. New receives, duplicates, traffic of the other direction and
restarts from private storage may follow one another in any order. The count of
the coverage strictly grows with every committed receive and is kept by every
other operation, so a nonce identifies one coverage, one authority and one
receipt.
-/
namespace Gcoms.FlowNonces
open ByteCodec SortedMaps Primitives FlowRecord FlowCoverage FlowWindow FlowStorage

structure Receiver where
  window : Window
  issued : List (Bytes × Coverage)
  deriving DecidableEq

inductive Op where
  | receive (counter : U64) (packet : Bytes) (record : Record)
  | duplicate (counter : U64) (packet : Bytes)
  | restart
  | send (counter : U64) (packet : Bytes) (record : Record) (sentUnix : U64)
  | credit (bytes : Bytes)

namespace Receiver
variable (P : Suite)

/-- Returns the receipt of a staged window and commits it; a failure commits nothing. -/
def issue (s : Receiver) (staged : Window) (counter : ℕ) (packet : Bytes) : Receiver :=
  match staged.creditForDuplicate P counter packet with
  | .error _ => s
  | .ok (bytes,v) => ⟨v,(bytes,v.received)::s.issued⟩

def step (s : Receiver) : Op → Receiver
  | .receive counter packet record =>
      match s.window.recordAuthenticated P counter.val packet record with
      | .error _ => s
      | .ok staged => s.issue P staged counter.val packet
  | .duplicate counter packet => s.issue P s.window counter.val packet
  | .restart =>
      match decodePrivate P (encodePrivate s.window) with
      | .error _ => s
      | .ok v => { s with window := v }
  | .send counter packet record sentUnix =>
      match s.window.recordSent P counter.val packet record sentUnix.val with
      | .error _ => s
      | .ok v => { s with window := v }
  | .credit bytes =>
      match s.window.acceptCredit P bytes with
      | .error _ => s
      | .ok (_,v) => { s with window := v }

def run (s : Receiver) (ops : List Op) : Receiver := ops.foldl (step P) s

/-- A logged receipt seals its coverage; that coverage has a smaller count than the
present one, or is the present one under the present authority. -/
def Logged (w : Window) (x : Bytes × Coverage) : Prop :=
  ∃ a, x.1 = sealCredit P w.session a x.2 ∧ x.2.Valid ∧
    (x.2.size < w.received.size ∨
      (x.2 = w.received ∧ ∃ t, w.rx.find? w.received.top = some t ∧ t.authority = a))

structure Inv (s : Receiver) : Prop where
  valid : s.window.Valid P
  logged : ∀ x ∈ s.issued, Logged P s.window x
  unique : ∀ x ∈ s.issued, ∀ y ∈ s.issued, x.2.size = y.2.size → x = y

/-! ## One operation -/

/-- Operations that leave the receiving half alone keep the log valid. -/
theorem Inv.of_frame {s : Receiver} (hs : s.Inv P) {v : Window} (hv : v.Valid P)
    (hsession : v.session = s.window.session) (hreceived : v.received = s.window.received)
    (hrx : v.rx = s.window.rx) : Inv P { s with window := v } := by
  refine ⟨hv,?_,hs.unique⟩
  intro x hx
  obtain ⟨a,hbytes,hc,hrest⟩ := hs.logged x hx
  refine ⟨a,?_,hc,?_⟩
  · rw [hsession]
    exact hbytes
  · simp only [hreceived,hrx]
    exact hrest

/-- A committed receive makes every logged coverage an earlier one. -/
theorem Inv.of_record {s : Receiver} (hs : s.Inv P) {counter : ℕ} (hn : counter < 2^64)
    {packet : Bytes} {record : Record} {v : Window}
    (h : s.window.recordAuthenticated P counter packet record = .ok v) :
    Inv P { s with window := v } := by
  have hv := Window.recordAuthenticated_valid P hs.valid hn h
  obtain ⟨_,_,_,d,_,_,hsize,_,rfl⟩ := Window.recordAuthenticated_ok P hs.valid hn h
  refine ⟨hv,?_,hs.unique⟩
  intro x hx
  obtain ⟨a,hbytes,hc,hrest⟩ := hs.logged x hx
  refine ⟨a,hbytes,hc,.inl ?_⟩
  simp only [hsize]
  rcases hrest with hlt | ⟨heq,_⟩
  · omega
  · rw [heq]
    omega

theorem inv_issue {s : Receiver} {staged : Window} (hs : s.Inv P)
    (h : Inv P { s with window := staged }) (counter : ℕ) (packet : Bytes) :
    (s.issue P staged counter packet).Inv P := by
  unfold issue
  split
  · exact hs
  · next bytes v hc =>
      have hv := Window.creditForDuplicate_valid P h.valid hc
      obtain ⟨_,t,_,_,ht,hbytes,rfl⟩ := Window.creditForDuplicate_ok P h.valid hc
      have hcurrent : ∀ x ∈ s.issued, x.2.size = staged.received.size →
          x = (bytes,staged.received) := by
        intro x hx hsize
        obtain ⟨a,hxb,_,hlt | ⟨heq,u,hu,hua⟩⟩ := h.logged x hx
        · simp only at hlt
          omega
        · simp only at heq hu hxb
          rw [ht] at hu
          cases hu
          rw [Prod.ext_iff]
          refine ⟨?_,heq⟩
          rw [hxb,← hua,heq,hbytes]
          rfl
      refine ⟨hv,?_,?_⟩
      · intro x hx
        rcases List.mem_cons.mp hx with rfl | hx
        · exact ⟨t.authority,hbytes,h.valid.received,.inr ⟨rfl,_,SortedMap.find?_insert_self _ _ _,
            rfl⟩⟩
        · obtain ⟨a,hxb,hc,hlt | ⟨heq,u,hu,hua⟩⟩ := h.logged x hx
          · exact ⟨a,hxb,hc,.inl hlt⟩
          · simp only at heq hu
            rw [ht] at hu
            cases hu
            exact ⟨a,hxb,hc,.inr ⟨heq,_,SortedMap.find?_insert_self _ _ _,hua⟩⟩
      · intro x hx y hy hsize
        rcases List.mem_cons.mp hx with rfl | hx <;> rcases List.mem_cons.mp hy with rfl | hy
        · rfl
        · exact (hcurrent y hy hsize.symm).symm
        · exact hcurrent x hx hsize
        · exact h.unique x hx y hy hsize

theorem inv_step {s : Receiver} (hs : s.Inv P) (op : Op) : (s.step P op).Inv P := by
  cases op with
  | receive counter packet record =>
      simp only [step]
      split
      · exact hs
      · next staged h => exact inv_issue P hs (hs.of_record P counter.isLt h) _ _
  | duplicate counter packet => exact inv_issue P hs hs _ _
  | restart =>
      simp only [step,decodePrivate_encodePrivate P hs.valid]
      exact hs.of_frame P (restored_valid P hs.valid) rfl rfl rfl
  | send counter packet record sentUnix =>
      simp only [step]
      split
      · exact hs
      · next v h =>
          have hv := Window.recordSent_valid P hs.valid sentUnix.isLt h
          obtain ⟨_,_,_,_,rfl⟩ := Window.recordSent_ok P h
          exact hs.of_frame P hv rfl rfl rfl
  | credit bytes =>
      simp only [step]
      split
      · exact hs
      · next v h =>
          have hv := Window.acceptCredit_valid P hs.valid h
          obtain ⟨_,_,rfl⟩ := Window.acceptCredit_frame P h
          exact hs.of_frame P hv rfl rfl rfl

/-! ## Whole lifetimes -/

theorem inv_run {s : Receiver} (hs : s.Inv P) (ops : List Op) : (s.run P ops).Inv P := by
  induction ops generalizing s with
  | nil => exact hs
  | cons op ops ih => exact ih (inv_step P hs op)

/-- Two receipts with one reference and one nonce are the same bytes, and under one
authority different coverages have different counts. -/
theorem credit_nonce_unique {session : Block 16} {generation : U64} {w : Window}
    (hw : Window.newGeneration session generation.val = .ok w) (ops : List Op) :
    (∀ x ∈ ((⟨w,[]⟩ : Receiver).run P ops).issued, ∀ y ∈ ((⟨w,[]⟩ : Receiver).run P ops).issued,
      slice x.1 20 36 = slice y.1 20 36 → slice x.1 36 48 = slice y.1 36 48 → x.1 = y.1) ∧
    (∀ x ∈ ((⟨w,[]⟩ : Receiver).run P ops).issued, ∀ y ∈ ((⟨w,[]⟩ : Receiver).run P ops).issued,
      slice x.1 20 36 = slice y.1 20 36 → x.2 ≠ y.2 →
        x.2.floor+Bitmaps.popcount 64 x.2.mask ≠ y.2.floor+Bitmaps.popcount 64 y.2.mask) := by
  have hstart : Inv P ⟨w,[]⟩ :=
    ⟨Window.newGeneration_valid P generation.isLt hw,by simp,by simp⟩
  have hi := inv_run P hstart ops
  refine ⟨?_,?_⟩
  · intro x hx y hy _ hnonce
    obtain ⟨a,hxb,hxc,_⟩ := hi.logged x hx
    obtain ⟨b,hyb,hyc,_⟩ := hi.logged y hy
    rw [hxb,hyb,sealCredit_nonce,sealCredit_nonce] at hnonce
    have hsize := creditNonce_injective (x.2.size_le_top.trans_lt hxc.top_lt)
      (y.2.size_le_top.trans_lt hyc.top_lt) hnonce
    rw [hi.unique x hx y hy hsize]
  · intro x hx y hy _ hne hsize
    exact hne (congrArg Prod.snd (hi.unique x hx y hy hsize))

/-- Counter 2 arrives before counter 1, with a duplicate and a restart in between:
three receipts are returned, two of them equal. -/
def sampleOps : List Op :=
  [.receive 2 [8] FlowCredit.Joint.sampleRecord,.restart,.duplicate 2 [8],
    .receive 1 [7] FlowCredit.Joint.sampleRecord]

theorem credit_nonce_unique_reordered :
    (run openSuite ⟨FlowCredit.Joint.sampleWindow,[]⟩ sampleOps).issued.map Prod.snd =
      [⟨2,0⟩,⟨0,2⟩,⟨0,2⟩] ∧
    ∀ x ∈ (run openSuite ⟨FlowCredit.Joint.sampleWindow,[]⟩ sampleOps).issued,
      ∀ y ∈ (run openSuite ⟨FlowCredit.Joint.sampleWindow,[]⟩ sampleOps).issued,
      slice x.1 20 36 = slice y.1 20 36 → slice x.1 36 48 = slice y.1 36 48 → x.1 = y.1 :=
  ⟨by decide +kernel,(@credit_nonce_unique openSuite FlowCredit.Joint.sampleSession 1
    FlowCredit.Joint.sampleWindow rfl sampleOps).1⟩

end Receiver

end Gcoms.FlowNonces
