import Gcoms.ByteCodec

/-!
# Delivery of membership commits

A channel keeps a record for each commit that some recipient has not acknowledged:
the oldest one in a slot of its own, the others in a journal behind it. The ledger
is what the records stand for: every commit that was ever retained, with the
recipients that acknowledged it and those pruned since. The records held are the
unsettled entries of the ledger in its order, and each operation preserves this.
-/
namespace Gcoms.MembershipDelivery
open ByteCodec

abbrev Member := Block 32

/-- `expected` has the recipients without their routes. -/
structure MembershipOutbox where
  commitId : Block 16
  epoch : U64
  expected : Finset Member
  acknowledged : Finset Member

/-- The acknowledgements counted against the recipients. -/
def MembershipOutbox.Complete (r : MembershipOutbox) : Prop :=
  r.acknowledged.card = r.expected.card

instance (r : MembershipOutbox) : Decidable r.Complete :=
  inferInstanceAs (Decidable (r.acknowledged.card = r.expected.card))

/-- The part of a channel that delivers membership commits. -/
structure ChannelState where
  membershipOutbox : Option MembershipOutbox
  membershipJournal : List MembershipOutbox

namespace ChannelState

def empty : ChannelState := ⟨none,[]⟩

def membershipRecords (s : ChannelState) : List MembershipOutbox :=
  s.membershipOutbox.toList++s.membershipJournal

def retainMembership (s : ChannelState) (record : MembershipOutbox) : ChannelState :=
  match s.membershipOutbox with
  | none => {s with membershipOutbox := some record}
  | some _ => {s with membershipJournal := s.membershipJournal++[record]}

def membershipTargetReady (s : ChannelState) (epoch : U64) (member : Member) : Bool :=
  !s.membershipRecords.any fun prior =>
    prior.epoch < epoch ∧ member ∈ prior.expected ∧ member ∉ prior.acknowledged

def pruneCompleteMemberships (s : ChannelState) : ChannelState :=
  let journal := s.membershipJournal.filter fun r => ¬r.Complete
  match s.membershipOutbox with
  | some head =>
      if head.Complete then ⟨journal.head?,journal.tail⟩ else ⟨some head,journal⟩
  | none => ⟨none,journal⟩

def mapRecords (f : MembershipOutbox → MembershipOutbox) (s : ChannelState) : ChannelState :=
  ⟨s.membershipOutbox.map f,s.membershipJournal.map f⟩

def pruneMembershipMember (s : ChannelState) (member : Member) : ChannelState :=
  (s.mapRecords fun r =>
    {r with expected := r.expected.erase member, acknowledged := r.acknowledged.erase member})
    |>.pruneCompleteMemberships

/-- The first record of the journal that satisfies `p` is changed. -/
def mapFirst (p : MembershipOutbox → Bool) (f : MembershipOutbox → MembershipOutbox) :
    List MembershipOutbox → List MembershipOutbox
  | [] => []
  | r::rest => if p r then f r::rest else r::mapFirst p f rest

def updateFirst (p : MembershipOutbox → Bool) (f : MembershipOutbox → MembershipOutbox)
    (s : ChannelState) : ChannelState :=
  match s.membershipOutbox with
  | none => {s with membershipJournal := mapFirst p f s.membershipJournal}
  | some head =>
      if p head then {s with membershipOutbox := some (f head)}
      else {s with membershipJournal := mapFirst p f s.membershipJournal}

def acknowledgeMembership (s : ChannelState) (id : Block 16) (epoch : U64) (member : Member) :
    Bool × ChannelState :=
  match s.membershipRecords.find? fun r => r.commitId = id ∧ r.epoch = epoch with
  | none => (false,s)
  | some record =>
      if member ∉ record.expected then (false,s)
      else
        (true,(s.updateFirst (fun r => r.commitId = id ∧ r.epoch = epoch) fun r =>
          {r with acknowledged := insert member r.acknowledged}).pruneCompleteMemberships)

end ChannelState

/-! ## The ledger -/

/-- A commit that was retained, and what became of its recipients. -/
structure Entry where
  record : MembershipOutbox
  acknowledged : Finset Member
  pruned : Finset Member

namespace Entry

/-- Every recipient has acknowledged the commit or was pruned. -/
def Settled (e : Entry) : Prop := e.record.expected ⊆ e.acknowledged ∪ e.pruned

instance (e : Entry) : Decidable e.Settled :=
  inferInstanceAs (Decidable (e.record.expected ⊆ e.acknowledged ∪ e.pruned))

/-- The record as it is held while the entry is unsettled. -/
def held (e : Entry) : MembershipOutbox :=
  {e.record with
    expected := e.record.expected \ e.pruned
    acknowledged := (e.record.expected ∩ e.acknowledged) \ e.pruned}

end Entry

abbrev Ledger := List Entry

/-- A commit is retained before anyone has acknowledged it. -/
inductive Event where
  | retain (id : Block 16) (epoch : U64) (expected : Finset Member)
  | acknowledge (id : Block 16) (epoch : U64) (member : Member)
  | prune (member : Member)

def ChannelState.apply (s : ChannelState) : Event → ChannelState
  | .retain id epoch expected => s.retainMembership ⟨id,epoch,expected,∅⟩
  | .acknowledge id epoch member => (s.acknowledgeMembership id epoch member).2
  | .prune member => s.pruneMembershipMember member

/-- An acknowledgement counts for the commit it names; a pruned member for all so far. -/
def Ledger.apply (ledger : Ledger) : Event → Ledger
  | .retain id epoch expected => ledger++[⟨⟨id,epoch,expected,∅⟩,∅,∅⟩]
  | .acknowledge id epoch member => ledger.map fun e =>
      if e.record.commitId = id ∧ e.record.epoch = epoch then
        {e with acknowledged := insert member e.acknowledged}
      else e
  | .prune member => ledger.map fun e => {e with pruned := insert member e.pruned}

/-- Commits are retained in the order of their epochs, each for some recipients. -/
def Ledger.Allows (ledger : Ledger) : Event → Prop
  | .retain _ epoch expected => (∀ e ∈ ledger, e.record.epoch < epoch) ∧ expected.Nonempty
  | _ => True

inductive Reached : ChannelState → Ledger → Prop
  | start : Reached .empty []
  | step {s : ChannelState} {ledger : Ledger} (event : Event) : Reached s ledger →
      ledger.Allows event → Reached (s.apply event) (ledger.apply event)

/-! ## The records are the unsettled entries -/

structure Follows (s : ChannelState) (ledger : Ledger) : Prop where
  records : s.membershipRecords = (ledger.filter fun e => ¬e.Settled).map Entry.held
  head : s.membershipOutbox = none → s.membershipJournal = []
  epochs : ledger.Pairwise fun a b => a.record.epoch < b.record.epoch

section Records
variable {s : ChannelState} {ledger : Ledger}

theorem Entry.held_complete (e : Entry) : e.held.Complete ↔ e.Settled := by
  have hsub : e.held.acknowledged ⊆ e.held.expected :=
    Finset.sdiff_subset_sdiff Finset.inter_subset_left (Finset.Subset.refl _)
  rw [MembershipOutbox.Complete,Entry.Settled]
  constructor
  · intro h m hm
    have heq := Finset.eq_of_subset_of_card_le hsub h.ge
    by_cases hp : m ∈ e.pruned
    · exact Finset.mem_union_right _ hp
    · have hmem : m ∈ e.held.expected := Finset.mem_sdiff.mpr ⟨hm,hp⟩
      rw [← heq] at hmem
      have hack := (Finset.mem_sdiff.mp hmem).1
      exact Finset.mem_union_left _ (Finset.mem_inter.mp hack).2
  · intro h
    refine congrArg Finset.card (hsub.antisymm fun m hm => ?_)
    obtain ⟨hm,hp⟩ := Finset.mem_sdiff.mp hm
    have hack := (Finset.mem_union.mp (h hm)).resolve_right hp
    exact Finset.mem_sdiff.mpr ⟨Finset.mem_inter.mpr ⟨hm,hack⟩,hp⟩

theorem records_prune (h : s.membershipOutbox = none → s.membershipJournal = []) :
    s.pruneCompleteMemberships.membershipRecords =
      s.membershipRecords.filter (fun r => ¬r.Complete) ∧
    (s.pruneCompleteMemberships.membershipOutbox = none →
      s.pruneCompleteMemberships.membershipJournal = []) := by
  unfold ChannelState.pruneCompleteMemberships ChannelState.membershipRecords
  generalize hj : s.membershipJournal.filter (fun r => ¬r.Complete) = journal
  cases hhead : s.membershipOutbox with
  | none =>
      have hnil : journal = [] := by rw [← hj,h hhead]; rfl
      simp [hnil,h hhead]
  | some head =>
      rw [List.filter_append,hj]
      by_cases hc : head.Complete
      · cases journal with
        | nil => simp [hc]
        | cons r rest => simp [hc]
      · simp [hc]

theorem records_map (f : MembershipOutbox → MembershipOutbox) :
    (s.mapRecords f).membershipRecords = s.membershipRecords.map f := by
  unfold ChannelState.mapRecords ChannelState.membershipRecords
  cases s.membershipOutbox <;> simp

theorem records_retain {r : MembershipOutbox}
    (h : s.membershipOutbox = none → s.membershipJournal = []) :
    (s.retainMembership r).membershipRecords = s.membershipRecords++[r] ∧
      (s.retainMembership r).membershipOutbox ≠ none := by
  unfold ChannelState.retainMembership ChannelState.membershipRecords
  cases hhead : s.membershipOutbox with
  | none => simp [h hhead]
  | some head => simp

theorem updateFirst_journal {p : MembershipOutbox → Bool} {f : MembershipOutbox → MembershipOutbox}
    (h : s.membershipOutbox = none → s.membershipJournal = [])
    (hnone : (s.updateFirst p f).membershipOutbox = none) :
    (s.updateFirst p f).membershipJournal = [] := by
  unfold ChannelState.updateFirst at hnone ⊢
  cases hhead : s.membershipOutbox with
  | none => simp [h hhead,ChannelState.mapFirst]
  | some head =>
      rw [hhead] at hnone
      dsimp only at hnone
      split_ifs at hnone

theorem records_updateFirst (p : MembershipOutbox → Bool) (f : MembershipOutbox → MembershipOutbox) :
    (s.updateFirst p f).membershipRecords = ChannelState.mapFirst p f s.membershipRecords := by
  unfold ChannelState.updateFirst ChannelState.membershipRecords
  cases s.membershipOutbox with
  | none => rfl
  | some head =>
      by_cases hp : p head = true
      · simp [hp,ChannelState.mapFirst]
      · simp [hp,ChannelState.mapFirst]

theorem Follows.retain {id : Block 16} {epoch : U64} {expected : Finset Member}
    (h : Follows s ledger) (ha : ledger.Allows (.retain id epoch expected)) :
    Follows (s.apply (.retain id epoch expected)) (ledger.apply (.retain id epoch expected)) := by
  obtain ⟨hepoch,m,hm⟩ := ha
  have hopen : ¬(Entry.mk ⟨id,epoch,expected,∅⟩ ∅ ∅).Settled := fun hs =>
    absurd (hs hm) (by simp)
  have hheld : (Entry.mk ⟨id,epoch,expected,∅⟩ ∅ ∅).held = ⟨id,epoch,expected,∅⟩ := by
    simp [Entry.held]
  have hepochs := List.pairwise_append.mpr ⟨h.epochs,
    List.pairwise_singleton _ (Entry.mk ⟨id,epoch,expected,∅⟩ ∅ ∅),fun a ha b hb => by
      rw [List.mem_singleton.mp hb]
      exact hepoch a ha⟩
  obtain ⟨hrecords,hsome⟩ := records_retain (r := ⟨id,epoch,expected,∅⟩) h.head
  refine ⟨hrecords.trans ?_,fun hn => absurd hn hsome,hepochs⟩
  rw [h.records,Ledger.apply,List.filter_append,List.map_append]
  simp [hopen,hheld]

/-- A change of the entries that settles no fewer of them, seen on the records. -/
theorem held_map {g : Entry → Entry} {f : MembershipOutbox → MembershipOutbox}
    (hsettled : ∀ e ∈ ledger, e.Settled → (g e).Settled)
    (hheld : ∀ e ∈ ledger, ¬e.Settled → f e.held = (g e).held) :
    ((ledger.map g).filter fun e => ¬e.Settled).map Entry.held =
      (((ledger.filter fun e => ¬e.Settled).map Entry.held).map f).filter fun r => ¬r.Complete := by
  induction ledger with
  | nil => rfl
  | cons e rest ih =>
      have hrest := ih (fun a ha => hsettled a (List.mem_cons_of_mem _ ha))
        (fun a ha => hheld a (List.mem_cons_of_mem _ ha))
      by_cases he : e.Settled
      · have hg := hsettled e List.mem_cons_self he
        simpa [he,hg] using hrest
      · have hf := hheld e List.mem_cons_self he
        by_cases hg : (g e).Settled
        · have hc := (g e).held_complete.mpr hg
          simpa [he,hg,hf,hc] using hrest
        · have hc := mt (g e).held_complete.mp hg
          simpa [he,hg,hf,hc] using hrest

theorem Follows.incomplete (h : Follows s ledger) {r : MembershipOutbox}
    (hr : r ∈ s.membershipRecords) : ¬r.Complete := by
  rw [h.records] at hr
  obtain ⟨e,he,rfl⟩ := List.mem_map.mp hr
  have hopen : ¬e.Settled := by simpa using (List.mem_filter.mp he).2
  exact mt e.held_complete.mp hopen

theorem Follows.ordered (h : Follows s ledger) :
    s.membershipRecords.Pairwise fun a b => a.epoch < b.epoch := by
  rw [h.records]
  exact List.pairwise_map.mpr (h.epochs.sublist List.filter_sublist)

theorem Follows.epoch_inj (h : Follows s ledger) {r r' : MembershipOutbox}
    (hr : r ∈ s.membershipRecords) (hr' : r' ∈ s.membershipRecords) (heq : r.epoch = r'.epoch) :
    r = r' := by
  have hnodup : (s.membershipRecords.map MembershipOutbox.epoch).Nodup :=
    (List.pairwise_map.mpr h.ordered).imp ne_of_lt
  exact List.inj_on_of_nodup_map hnodup hr hr' heq

theorem pairwise_map_entries {g : Entry → Entry} (hg : ∀ e, (g e).record = e.record)
    (h : ledger.Pairwise fun a b => a.record.epoch < b.record.epoch) :
    (ledger.map g).Pairwise fun a b => a.record.epoch < b.record.epoch := by
  refine List.pairwise_map.mpr (h.imp fun {a b} hab => ?_)
  rw [hg,hg]
  exact hab

theorem Follows.prune (h : Follows s ledger) (member : Member) :
    Follows (s.apply (.prune member)) (ledger.apply (.prune member)) := by
  have hhead : (s.mapRecords fun r => {r with
      expected := r.expected.erase member
      acknowledged := r.acknowledged.erase member}).membershipOutbox = none →
      (s.mapRecords fun r => {r with
        expected := r.expected.erase member
        acknowledged := r.acknowledged.erase member}).membershipJournal = [] := fun hn => by
    have hnone := h.head (Option.map_eq_none_iff.mp hn)
    simp [ChannelState.mapRecords,hnone]
  obtain ⟨hrecords,hshape⟩ := records_prune hhead
  refine ⟨hrecords.trans ?_,hshape,pairwise_map_entries (fun _ => rfl) h.epochs⟩
  rw [records_map,h.records]
  refine (held_map (fun e _ hs => ?_) (fun e _ _ => ?_)).symm
  · exact hs.trans (Finset.union_subset_union_right (Finset.subset_insert _ _))
  · simp only [Entry.held,MembershipOutbox.mk.injEq,true_and]
    constructor
    · rw [Finset.sdiff_insert]
    · rw [Finset.sdiff_insert]

/-- In records of different epochs at most one is changed. -/
theorem mapFirst_eq_map {p : MembershipOutbox → Bool} {f : MembershipOutbox → MembershipOutbox}
    {epoch : U64} {l : List MembershipOutbox} (hp : ∀ r, p r = true → r.epoch = epoch)
    (hl : l.Pairwise fun a b => a.epoch < b.epoch) :
    ChannelState.mapFirst p f l = l.map fun r => if p r then f r else r := by
  induction l with
  | nil => rfl
  | cons r rest ih =>
      obtain ⟨hr,hrest⟩ := List.pairwise_cons.mp hl
      rw [ChannelState.mapFirst,List.map_cons]
      by_cases hpr : p r = true
      · rw [if_pos hpr,if_pos hpr]
        congr 1
        have hsame : ∀ a ∈ rest, (if p a then f a else a) = a := fun a ha =>
          if_neg fun hpa => (hr a ha).ne ((hp r hpr).trans (hp a hpa).symm)
        exact (List.map_congr_left hsame).trans (List.map_id' rest) |>.symm
      · rw [if_neg hpr,if_neg hpr,ih hrest]

end Records

/-! ## Acknowledgements -/

section Acknowledgements
variable {s : ChannelState} {ledger : Ledger} {id : Block 16} {epoch : U64} {member : Member}

/-- The entry after an acknowledgement. -/
def Entry.acknowledgedBy (id : Block 16) (epoch : U64) (member : Member) (e : Entry) : Entry :=
  if e.record.commitId = id ∧ e.record.epoch = epoch then
    {e with acknowledged := insert member e.acknowledged}
  else e

theorem Entry.acknowledgedBy_record (e : Entry) :
    (e.acknowledgedBy id epoch member).record = e.record := by
  unfold Entry.acknowledgedBy
  split_ifs <;> rfl

theorem Entry.acknowledgedBy_settled {e : Entry} (h : e.Settled) :
    (e.acknowledgedBy id epoch member).Settled := by
  unfold Entry.acknowledgedBy
  split_ifs
  · exact h.trans (Finset.union_subset_union_left (Finset.subset_insert _ _))
  · exact h

/-- Nothing changes for someone who is not a recipient any more. -/
theorem Entry.acknowledgedBy_held {e : Entry}
    (h : e.record.commitId = id ∧ e.record.epoch = epoch → member ∉ e.held.expected) :
    (e.acknowledgedBy id epoch member).held = e.held := by
  unfold Entry.acknowledgedBy
  split_ifs with hmatch
  · have hnot := h hmatch
    simp only [Entry.held,MembershipOutbox.mk.injEq,true_and]
    ext m
    simp only [Entry.held,Finset.mem_sdiff,Finset.mem_inter,Finset.mem_insert] at hnot ⊢
    constructor
    · rintro ⟨⟨hm,rfl | hack⟩,hp⟩
      · exact absurd ⟨hm,hp⟩ hnot
      · exact ⟨⟨hm,hack⟩,hp⟩
    · rintro ⟨⟨hm,hack⟩,hp⟩
      exact ⟨⟨hm,.inr hack⟩,hp⟩
  · rfl

theorem Entry.acknowledgedBy_recipient {e : Entry}
    (hmatch : e.record.commitId = id ∧ e.record.epoch = epoch) (h : member ∈ e.held.expected) :
    (e.acknowledgedBy id epoch member).held =
      {e.held with acknowledged := insert member e.held.acknowledged} := by
  obtain ⟨hm,hp⟩ := Finset.mem_sdiff.mp h
  unfold Entry.acknowledgedBy
  rw [if_pos hmatch]
  simp only [Entry.held,MembershipOutbox.mk.injEq,true_and]
  rw [Finset.inter_insert_of_mem hm,Finset.insert_sdiff_of_notMem _ hp]

theorem Follows.unchanged (h : Follows s ledger)
    (hheld : ∀ e ∈ ledger, ¬e.Settled → (e.acknowledgedBy id epoch member).held = e.held) :
    Follows s (ledger.map (Entry.acknowledgedBy id epoch member)) := by
  refine ⟨?_,h.head,pairwise_map_entries Entry.acknowledgedBy_record h.epochs⟩
  rw [held_map (f := fun r => r) (fun e _ hs => Entry.acknowledgedBy_settled hs)
    (fun e he hs => (hheld e he hs).symm),List.map_id',← h.records]
  exact (List.filter_eq_self.mpr fun r hr => by simpa using h.incomplete hr).symm

theorem Follows.acknowledge (h : Follows s ledger) (id : Block 16) (epoch : U64) (member : Member) :
    Follows (s.apply (.acknowledge id epoch member))
      (ledger.apply (.acknowledge id epoch member)) := by
  change Follows (s.acknowledgeMembership id epoch member).2
    (ledger.map (Entry.acknowledgedBy id epoch member))
  have hmem : ∀ e ∈ ledger, ¬e.Settled → e.held ∈ s.membershipRecords := fun e he hs => by
    rw [h.records]
    exact List.mem_map_of_mem (List.mem_filter.mpr ⟨he,by simpa using hs⟩)
  unfold ChannelState.acknowledgeMembership
  cases hfind : s.membershipRecords.find? fun r => r.commitId = id ∧ r.epoch = epoch with
  | none =>
      refine h.unchanged fun e he hs => Entry.acknowledgedBy_held fun hmatch => ?_
      exact absurd (decide_eq_true hmatch) (List.find?_eq_none.mp hfind e.held (hmem e he hs))
  | some record =>
      have hrecord := List.mem_of_find?_eq_some hfind
      have hkey : record.commitId = id ∧ record.epoch = epoch := by
        simpa using List.find?_some hfind
      -- the epoch alone picks the record
      have hunique : ∀ e ∈ ledger, ¬e.Settled → e.record.commitId = id ∧ e.record.epoch = epoch →
          e.held = record := fun e he hs hmatch => by
        exact h.epoch_inj (hmem e he hs) hrecord (hmatch.2.trans hkey.2.symm)
      dsimp only
      by_cases hin : member ∈ record.expected
      · rw [if_neg (not_not.mpr hin)]
        have hepoch : ∀ r : MembershipOutbox,
            decide (r.commitId = id ∧ r.epoch = epoch) = true → r.epoch = epoch := fun r hr =>
          (of_decide_eq_true hr).2
        obtain ⟨hrecords,hshape⟩ := records_prune (s := s.updateFirst _ _) (updateFirst_journal h.head)
        refine ⟨hrecords.trans ?_,hshape,pairwise_map_entries Entry.acknowledgedBy_record h.epochs⟩
        rw [records_updateFirst,mapFirst_eq_map hepoch h.ordered,h.records]
        refine (held_map (fun e _ hs => Entry.acknowledgedBy_settled hs) (fun e he hs => ?_)).symm
        by_cases hmatch : e.record.commitId = id ∧ e.record.epoch = epoch
        · rw [Entry.acknowledgedBy_recipient hmatch (by rw [hunique e he hs hmatch]; exact hin)]
          exact if_pos (decide_eq_true hmatch)
        · rw [Entry.acknowledgedBy_held (fun hm => absurd hm hmatch)]
          exact if_neg fun hd => hmatch (of_decide_eq_true hd)
      · rw [if_pos hin]
        refine h.unchanged fun e he hs => Entry.acknowledgedBy_held fun hmatch => ?_
        rw [hunique e he hs hmatch]
        exact hin

end Acknowledgements

/-! ## Every run -/

theorem Reached.follows {s : ChannelState} {ledger : Ledger} (h : Reached s ledger) :
    Follows s ledger := by
  induction h with
  | start => exact ⟨rfl,fun _ => rfl,List.Pairwise.nil⟩
  | step event _ ha ih =>
      cases event with
      | retain id epoch expected => exact ih.retain ha
      | acknowledge id epoch member => exact ih.acknowledge id epoch member
      | prune member => exact ih.prune member

/-- What holds of the records kept for the commits of a ledger. -/
structure Delivers (s : ChannelState) (ledger : Ledger) : Prop where
  ordered : s.membershipRecords.Pairwise fun a b => a.epoch < b.epoch
  head : s.membershipOutbox = none → s.membershipJournal = []
  acknowledged : ∀ r ∈ s.membershipRecords, r.acknowledged ⊆ r.expected
  incomplete : ∀ r ∈ s.membershipRecords, ¬r.Complete
  kept : ∀ e ∈ ledger, ∀ m ∈ e.record.expected, m ∉ e.acknowledged → m ∉ e.pruned →
    ∃ r ∈ s.membershipRecords, r.commitId = e.record.commitId ∧ r.epoch = e.record.epoch ∧
      m ∈ r.expected ∧ m ∉ r.acknowledged
  ready : ∀ epoch m, s.membershipTargetReady epoch m = true ↔
    ∀ e ∈ ledger, e.record.epoch < epoch → m ∈ e.record.expected →
      m ∈ e.acknowledged ∨ m ∈ e.pruned

theorem membership_commits_delivered {s : ChannelState} {ledger : Ledger} (h : Reached s ledger) :
    Delivers s ledger := by
  have hf := h.follows
  have hkept : ∀ e ∈ ledger, ∀ m ∈ e.record.expected, m ∉ e.acknowledged → m ∉ e.pruned →
      e.held ∈ s.membershipRecords ∧ m ∈ e.held.expected ∧ m ∉ e.held.acknowledged := by
    intro e he m hm hack hp
    have hopen : ¬e.Settled := fun hs => (Finset.mem_union.mp (hs hm)).elim hack hp
    refine ⟨?_,Finset.mem_sdiff.mpr ⟨hm,hp⟩,fun hmem => ?_⟩
    · rw [hf.records]
      exact List.mem_map_of_mem (List.mem_filter.mpr ⟨he,by simpa using hopen⟩)
    · exact hack (Finset.mem_inter.mp (Finset.mem_sdiff.mp hmem).1).2
  refine ⟨hf.ordered,hf.head,fun r hr => ?_,fun r => hf.incomplete,fun e he m hm hack hp => ?_,
    fun epoch m => ?_⟩
  · rw [hf.records] at hr
    obtain ⟨e,_,rfl⟩ := List.mem_map.mp hr
    exact Finset.sdiff_subset_sdiff Finset.inter_subset_left (Finset.Subset.refl _)
  · obtain ⟨hmem,hin,hout⟩ := hkept e he m hm hack hp
    exact ⟨e.held,hmem,rfl,rfl,hin,hout⟩
  · rw [ChannelState.membershipTargetReady,Bool.not_eq_true',List.any_eq_false]
    constructor
    · intro hready e he hepoch hm
      by_contra hnot
      obtain ⟨hack,hp⟩ := not_or.mp hnot
      obtain ⟨hmem,hin,hout⟩ := hkept e he m hm hack hp
      exact hready e.held hmem (by simpa using ⟨hepoch,hin,hout⟩)
    · intro hall r hr hwaits
      rw [hf.records] at hr
      obtain ⟨e,he,rfl⟩ := List.mem_map.mp hr
      have hwaits' : e.held.epoch < epoch ∧ m ∈ e.held.expected ∧ m ∉ e.held.acknowledged := by
        simpa using hwaits
      obtain ⟨hm,hp⟩ := Finset.mem_sdiff.mp hwaits'.2.1
      have hack := (hall e (List.mem_filter.mp he).1 hwaits'.1 hm).resolve_right hp
      exact hwaits'.2.2 (Finset.mem_sdiff.mpr ⟨Finset.mem_inter.mpr ⟨hm,hack⟩,hp⟩)

/-- Two commits, the first acknowledged by one of its two recipients. -/
theorem membership_commits_delivered_sample :
    ∃ s ledger, Reached s ledger ∧ Delivers s ledger ∧
      s.membershipTargetReady 2 (wordBlock 32 1) = false ∧
      s.membershipTargetReady 2 (wordBlock 32 2) = true := by
  have hrun := ((Reached.start.step (.retain (wordBlock 16 1) 1 {wordBlock 32 1,wordBlock 32 2})
    ⟨by simp,by simp⟩).step (.retain (wordBlock 16 2) 2 {wordBlock 32 1})
    ⟨by simp [Ledger.apply],by simp⟩).step (.acknowledge (wordBlock 16 1) 1 (wordBlock 32 2)) trivial
  exact ⟨_,_,hrun,membership_commits_delivered hrun,by decide +kernel,by decide +kernel⟩

end Gcoms.MembershipDelivery
