import Gcoms.FileWorlds

/-!
# Crashes and opening

A crash settles every directory entry and leaves a sound storage. Opening takes
the entries one by one, and the transfers it has taken agree with their slots
while the others wait. Without failures it succeeds; a failure in the middle
leaves storage from which it can be tried again.
-/
namespace Gcoms.FileOpening
open ByteCodec Primitives Fallible Commands SortedMaps Writeback FileRecords FileReceiver FileSlots
open FileTransfers FileRecovery FileWorlds

variable {cfg : Config} {tidy calm : Prop} {w w' : World} {id : TransferId}

/-! ## Crashes -/

/-- Storage after a crash, before the receiver runs again. -/
structure Halted (cfg : Config) (tidy : Prop) (w : World) : Prop extends Stored cfg tidy w where
  uniform : ∀ id, Uniform (w.slot id)
  firm : ∀ id, Firm (w.slot id)
  whole : ∀ {id}, none ∈ (w.slot id).entry.possible → ∀ e ∈ (w.slot id).entry.possible, e = none

theorem blank_crash (r : Remains) : Slot.blank.crash r = Slot.blank := by
  have hcell : ∀ {α : Type} [DecidableEq α] (a b : α), (Cell.settled a).crash b = Cell.settled a := by
    intro α _ a b
    unfold Cell.crash
    split_ifs with h
    · rw [List.mem_singleton.mp h]
    · rfl
  unfold Slot.crash Slot.blank
  rw [hcell,hcell,hcell,Content.crash_of_synced rfl]

theorem slot_crash (w : World) (remains : TransferId → Remains) (id : TransferId) :
    (w.crash remains).slot id = (w.slot id).crash (remains id) := by
  unfold World.slot World.crash
  rw [SortedMap.find?_mapWithKey]
  cases w.slots.find? id with
  | none => exact (blank_crash _).symm
  | some slot => rfl

theorem Stored.crash (h : Stored cfg tidy w) (remains : TransferId → Remains) :
    Halted cfg tidy (w.crash remains) := by
  have hmem : ∀ {id e}, e ∈ ((w.crash remains).slot id).entry.possible →
      e ∈ (w.slot id).entry.possible := by
    intro id e he
    rw [slot_crash] at he
    exact Cell.mem_of_mem_crash he
  have hsum : (w.crash remains).slots.sumBy weight ≤ w.slots.sumBy weight := by
    refine SortedMap.sumBy_le_sumBy (fun id slot hslot _ => ?_)
    have hfind := SortedMap.find?_mapWithKey (fun id (slot : Slot) => slot.crash (remains id)) w.slots id
    have hslot' := hfind.symm.trans hslot
    cases hold : w.slots.find? id with
    | none =>
        rw [hold] at hslot'
        cases hslot'
    | some old =>
        rw [hold] at hslot'
        cases hslot'
        exact ⟨old,rfl,weight_le (fun s hs => le_weight (Cell.mem_of_mem_crash hs))⟩
  have hone : ∀ {id e}, e ∈ ((w.crash remains).slot id).entry.possible →
      e = ((w.crash remains).slot id).entry.current := by
    intro id e he
    rw [slot_crash] at he ⊢
    exact List.mem_singleton.mp he
  refine ⟨⟨fun id => ?_,fun hs => h.ids (hmem hs),hsum.trans h.quota,hsum.trans_lt h.range,
    fun hn e he => h.acked hn e (hmem he),fun hs => h.origin (hmem hs)⟩,fun id => ?_,fun id => ?_,fun hn e he => ?_⟩
  · rw [slot_crash]
    exact (h.sound id).crash _
  · rw [slot_crash]
    exact uniform_crash _ _
  · rw [slot_crash]
    exact crash_firm _ _
  · exact (hone he).trans (hone hn).symm

/-! ## Recovery of one entry -/

theorem slot_found {s : TransferState} (h : some s ∈ (w.slot id).entry.possible) :
    w.slots.find? id = some (w.slot id) := by
  cases hf : w.slots.find? id with
  | none =>
      rw [World.slot,hf] at h
      cases List.mem_singleton.mp h
  | some slot => rw [slot_of_find? hf]

theorem Halted.near (h : Halted cfg tidy w) {s : TransferState}
    (he : (w.slot id).entry.current = some s) : Near cfg.suite tidy (w.slot id) s :=
  .of_entry (h.sound id) (h.uniform id) he

/-- A recovered entry leaves storage that can be opened again. -/
theorem Halted.kept (h : Halted cfg tidy w) {t : ActiveTransfer} {d : Desk}
    (he : (w.slot id).entry.current = some t.state)
    (hk : Keeps cfg.suite tidy calm (w.desk id t) d) (hfirm : Firm d.slot) :
    Halted cfg tidy (w.stow id d) ∧ none ∉ d.slot.entry.possible := by
  have hmem : some t.state ∈ (w.slot id).entry.possible := he ▸ (w.slot id).entry.mem
  have hpresent : none ∉ d.slot.entry.possible := by
    intro hn
    cases h.whole (hk.present hn) _ hmem
  have hentry : ∀ s, some s ∈ d.slot.entry.possible →
      terms s = terms t.state ∧ s.committedOffset = t.state.committedOffset :=
    fun s hs => ⟨(hk.near.agrees s hs).1.trans hk.terms,(hk.near.agrees s hs).2.trans hk.offset⟩
  have hweight : weight d.slot ≤ weight (w.slot id) := by
    refine weight_le (fun s hs => ?_)
    rw [terms_fileSize (hentry s hs).1]
    exact le_weight hmem
  have hsum : (w.stow id d).slots.sumBy weight ≤ w.slots.sumBy weight := by
    refine (SortedMap.sumBy_insert _ _ _ _).trans_le ?_
    rw [SortedMap.sumBy_of_find? (slot_found hmem)]
    exact Nat.add_le_add_right hweight _
  refine ⟨⟨⟨fun a => ?_,fun {a s} hs => ?_,hsum.trans h.quota,hsum.trans_lt h.range,
    fun {a n} hn e hea => ?_,fun {a s} hs => ?_⟩,fun a => ?_,fun a => ?_,fun {a} hn e hea => ?_⟩,
    hpresent⟩
  · rw [slot_stow]
    split_ifs
    · exact hk.near.sound
    · exact h.sound a
  · rw [slot_stow] at hs
    split_ifs at hs with heq
    · rw [transferId_of_terms (hentry s hs).1,heq]
      exact h.ids hmem
    · exact h.ids hs
  · rw [slot_stow] at hea
    split_ifs at hea with heq
    · subst heq
      cases e with
      | none => exact absurd hea hpresent
      | some s =>
          obtain ⟨s',hs',hle⟩ := (h.acked hn _ hmem).resolve_right (fun hno => by cases hno.1)
          cases hs'
          exact .inl ⟨s,rfl,by rw [(hentry s hea).2]; exact hle⟩
    · exact h.acked hn e hea
  · rw [slot_stow] at hs
    split_ifs at hs
    · obtain ⟨b,hb,horigin⟩ := h.origin hmem
      exact ⟨b,hb,horigin.of_terms (hentry s hs).1⟩
    · exact h.origin hs
  · rw [slot_stow]
    split_ifs
    · exact hk.near.uniform
    · exact h.uniform a
  · rw [slot_stow]
    split_ifs
    · exact hfirm
    · exact h.firm a
  · rw [slot_stow] at hn hea
    split_ifs at hn hea
    · exact absurd hn hpresent
    · exact h.whole hn e hea

/-- What opening does not change. -/
structure Resumed (calm : Prop) (w w' : World) : Prop where
  acked : w'.acked = w.acked
  abandoned : w'.abandoned = w.abandoned
  offers : calm → Offered w w'
  entries : ∀ {id s}, (w.slot id).entry.current = some s →
    ∃ s', (w'.slot id).entry.current = some s' ∧ terms s' = terms s ∧
      s'.committedOffset = s.committedOffset ∧
      (w'.slot id).content.bytes.take s.committedOffset =
        (w.slot id).content.bytes.take s.committedOffset

theorem Resumed.refl (w : World) : Resumed calm w w :=
  ⟨rfl,rfl,fun _ _ hs => .inl hs,fun hs => ⟨_,hs,rfl,rfl,rfl⟩⟩

theorem Resumed.trans {w'' : World} (h : Resumed calm w w') (h' : Resumed calm w' w'') :
    Resumed calm w w'' := by
  refine ⟨h'.acked.trans h.acked,h'.abandoned.trans h.abandoned,fun hc s hs => ?_,fun {id s} hs => ?_⟩
  · exact (h'.offers hc s hs).elim (h.offers hc s) .inr
  · obtain ⟨s₁,hs₁,hterms₁,ho₁,hb₁⟩ := h.entries hs
    obtain ⟨s₂,hs₂,hterms₂,ho₂,hb₂⟩ := h'.entries hs₁
    rw [ho₁] at hb₂
    exact ⟨s₂,hs₂,hterms₂.trans hterms₁,ho₂.trans ho₁,hb₂.trans hb₁⟩

theorem Halted.resumed (h : Halted cfg tidy w) {t : ActiveTransfer} {d : Desk}
    (he : (w.slot id).entry.current = some t.state)
    (hk : Keeps cfg.suite tidy calm (w.desk id t) d) (hfirm : Firm d.slot) :
    Resumed calm w (w.stow id d) := by
  have hpresent := (h.kept he hk hfirm).2
  refine ⟨rfl,rfl,hk.offers,fun {a s} hs => ?_⟩
  rw [slot_stow]
  split_ifs with heq
  · subst heq
    rw [he] at hs
    cases hs
    cases hcurrent : d.slot.entry.current with
    | none => exact absurd (hcurrent ▸ d.slot.entry.mem) hpresent
    | some s' =>
        have hs' : some s' ∈ d.slot.entry.possible := hcurrent ▸ d.slot.entry.mem
        exact ⟨s',rfl,(hk.near.agrees s' hs').1.trans hk.terms,
          (hk.near.agrees s' hs').2.trans hk.offset,hk.bytes⟩
  · exact ⟨s,hs,rfl,rfl,rfl⟩

/-! ## Recovery of all entries -/

/-- The receiver while the entries in `rest` still wait. -/
structure Opening (cfg : Config) (tidy calm : Prop) (rest : List (TransferId × TransferState))
    (w : World) : Prop where
  halted : Halted cfg tidy w
  known : ∀ {id t}, w.transfers.find? id = some t → Good cfg.suite tidy (w.slot id) t ∧
    t.state.transferId = id ∧ none ∉ (w.slot id).entry.possible ∧ id ∉ rest.map Prod.fst
  quiet : calm → ∀ {id t}, w.transfers.find? id = some t → Quiet t.state
  todo : ∀ {id s}, (id,s) ∈ rest → (w.slot id).entry.current = some s
  other : ∀ {id}, w.transfers.find? id = none → id ∉ rest.map Prod.fst →
    (w.slot id).entry.current = none
  nodup : (rest.map Prod.fst).Nodup
  reserved : w.reservedBytes = w.transfers.sumBy (·.state.fileSize)

/-- An entry of the storage that is known or waits. -/
theorem Opening.covered {rest : List (TransferId × TransferState)}
    (h : Opening cfg tidy calm rest w) {t : ActiveTransfer} (hf : w.transfers.find? id = some t) :
    ∃ slot, w.slots.find? id = some slot ∧ t.state.fileSize ≤ weight slot := by
  obtain ⟨hgood,-,hpresent,-⟩ := h.known hf
  cases hcurrent : (w.slot id).entry.current with
  | none => exact absurd (hcurrent ▸ (w.slot id).entry.mem) hpresent
  | some s =>
      have hs : some s ∈ (w.slot id).entry.possible := hcurrent ▸ (w.slot id).entry.mem
      refine ⟨w.slot id,slot_found hs,?_⟩
      rw [← terms_fileSize (hgood.agrees s hs).1]
      exact le_weight hs

/-- What is known fits the storage, together with one entry that waits. -/
theorem Opening.sum_next {rest : List (TransferId × TransferState)} {s : TransferState}
    (h : Opening cfg tidy calm ((id,s)::rest) w) :
    w.reservedBytes+s.fileSize ≤ w.slots.sumBy weight := by
  have hnew : w.transfers.find? id = none := by
    cases hf : w.transfers.find? id with
    | none => rfl
    | some t => exact absurd List.mem_cons_self (h.known hf).2.2.2
  have hsum := SortedMap.sumBy_insert_new hnew (⟨s,false,false,0⟩ : ActiveTransfer)
    (·.state.fileSize)
  rw [h.reserved,Nat.add_comm,← hsum]
  refine SortedMap.sumBy_le_sumBy (fun a t ha _ => ?_)
  by_cases heq : a = id
  · subst heq
    rw [SortedMap.find?_insert_self] at ha
    cases ha
    have hs : some s ∈ (w.slot a).entry.possible :=
      h.todo List.mem_cons_self ▸ (w.slot a).entry.mem
    exact ⟨w.slot a,slot_found hs,le_weight hs⟩
  · rw [SortedMap.find?_insert_of_ne _ _ heq] at ha
    exact h.covered ha

/-- The next entry has been taken. -/
theorem Opening.next {rest : List (TransferId × TransferState)} {s : TransferState} {d : Desk}
    (h : Opening cfg tidy calm ((id,s)::rest) w)
    (ha : After cfg.suite tidy calm (w.desk id ⟨s,false,false,0⟩) d) (hfirm : Firm d.slot) :
    Opening cfg tidy calm rest ((w.stow id d).enroll id d.transfer) := by
  have he : (w.slot id).entry.current = some s := h.todo List.mem_cons_self
  have hnotin : id ∉ rest.map Prod.fst := (List.nodup_cons.mp h.nodup).1
  obtain ⟨hhalted,hpresent⟩ := h.halted.kept (t := ⟨s,false,false,0⟩) he ha.toKeeps hfirm
  have hnew : w.transfers.find? id = none := by
    cases hf : w.transfers.find? id with
    | none => rfl
    | some t => exact absurd List.mem_cons_self (h.known hf).2.2.2
  have hfind : ∀ a, ((w.stow id d).enroll id d.transfer).transfers.find? a =
      if a = id then some d.transfer else w.transfers.find? a := find?_put w id d
  have hslot : ∀ a, ((w.stow id d).enroll id d.transfer).slot a =
      if a = id then d.slot else w.slot a := slot_put w id d
  have hsum := SortedMap.sumBy_insert_new hnew d.transfer (·.state.fileSize)
  refine ⟨⟨⟨hhalted.sound,hhalted.ids,hhalted.quota,hhalted.range,hhalted.acked,
    hhalted.origin⟩,hhalted.uniform,hhalted.firm,hhalted.whole⟩,
    fun {a ta} hta => ?_,fun hc {a ta} hta => ?_,fun {a s'} hmem => ?_,fun {a} hta hno => ?_,
    (List.nodup_cons.mp h.nodup).2,?_⟩
  · rw [hfind] at hta
    rw [hslot]
    split_ifs at hta ⊢ with heq
    · cases hta
      subst heq
      refine ⟨ha.good,(transferId_of_terms ha.terms).trans ?_,hpresent,hnotin⟩
      exact h.halted.ids (he ▸ (w.slot a).entry.mem)
    · obtain ⟨hgood,hid,hpresent',hout⟩ := h.known hta
      exact ⟨hgood,hid,hpresent',fun hm => hout (List.mem_cons_of_mem _ hm)⟩
  · rw [hfind] at hta
    split_ifs at hta
    · cases hta
      exact ha.quiet hc
    · exact h.quiet hc hta
  · rw [hslot]
    split_ifs with heq
    · subst heq
      exact absurd (List.mem_map_of_mem hmem) hnotin
    · exact h.todo (List.mem_cons_of_mem _ hmem)
  · rw [hfind] at hta
    rw [hslot]
    split_ifs at hta ⊢ with heq
    refine h.other hta (fun hm => ?_)
    rcases List.mem_cons.mp hm with hm | hm
    · exact heq hm
    · exact hno hm
  · change w.reservedBytes+d.transfer.state.fileSize =
      (w.transfers.insert id d.transfer).sumBy (·.state.fileSize)
    rw [hsum,h.reserved,Nat.add_comm]

/-- A condition on a run that is only of interest without failures. -/
def Clears (tidy : Prop) (w w' : World) : Prop := tidy → w.script = [] → w'.script = []

/-- Opening was interrupted by a failure. -/
structure Halts (cfg : Config) (tidy calm : Prop) (w w' : World) : Prop where
  halted : Halted cfg tidy w'
  resumed : Resumed calm w w'
  failed : tidy → w.script ≠ []

theorem recover_outcome {d : Desk} (h : Near cfg.suite tidy d.slot d.transfer.state)
    (hfirm : Firm d.slot) (hcancelled : d.transfer.cancelled = false)
    (hq : calm → Quiet d.transfer.state) (htidy : calm → tidy) :
    Leads (recover cfg.suite) d
      (fun _ d' => (After cfg.suite tidy calm d d' ∧ Firm d'.slot) ∧
        (tidy → d.script = [] → d'.script = []))
      (fun _ d' => (Keeps cfg.suite tidy calm d d' ∧ Firm d'.slot) ∧ (tidy → d.script ≠ [])) := by
  have hmain := recover_leads h hfirm hcancelled hq htidy
  by_cases hclear : tidy ∧ d.script = []
  · exact (hmain.and (recover_clear hclear.2 hclear.1 h)).mono
      (fun _ _ hd => ⟨hd.1,fun _ _ => hd.2⟩) (fun _ _ hd => hd.2.elim)
  · exact hmain.mono (fun _ _ hd => ⟨hd,fun ht hs => absurd ⟨ht,hs⟩ hclear⟩)
      (fun _ _ hd => ⟨hd,fun ht hs => hclear ⟨ht,hs⟩⟩)

theorem recoverAll_leads (htidy : calm → tidy) {rest : List (TransferId × TransferState)}
    (h : Opening cfg tidy calm rest w) :
    Leads (recoverAll cfg rest) w
      (fun _ w' => Opening cfg tidy calm [] w' ∧ Resumed calm w w' ∧ Clears tidy w w')
      (fun _ => Halts cfg tidy calm w) := by
  -- one entry is taken in each step; the entries before it are already known
  induction rest generalizing w with
  | nil => exact Leads.pure ⟨h,Resumed.refl w,fun _ hs => hs⟩
  | cons entry rest ih =>
      obtain ⟨id,s⟩ := entry
      have he : (w.slot id).entry.current = some s := h.todo List.mem_cons_self
      have hnear := h.halted.near he
      have hvalid := ((h.halted.sound id).entries s (he ▸ (w.slot id).entry.mem)).2
      have hquiet : calm → Quiet s := fun _ => (validate_ok.mp hvalid).2.2
      unfold recoverAll
      refine Leads.read_bind (Leads.demand_bind (fun _ => ?_)
        (fun hno => absurd (h.sum_next.trans_lt h.halted.range) hno))
      refine Leads.bind (onSlot_leads ((recover_outcome (d := w.desk id ⟨s,false,false,0⟩) hnear
        (h.halted.firm id) rfl hquiet htidy).mono (fun _ d hd => ?_) (fun _ d hd => ?_)))
      · obtain ⟨⟨ha,hfirm⟩,hclear⟩ := hd
        have hresumed : Resumed calm w (w.stow id d) :=
          h.halted.resumed (t := ⟨s,false,false,0⟩) he ha.toKeeps hfirm
        have hadmitted : Resumed calm w ((w.stow id d).enroll id d.transfer) :=
          ⟨hresumed.acked,hresumed.abandoned,hresumed.offers,hresumed.entries⟩
        refine Leads.update_bind ((ih (h.next ha hfirm)).mono (fun _ w' hw' => ?_)
          (fun _ w' hw' => ?_))
        · exact ⟨hw'.1,hadmitted.trans hw'.2.1,fun ht hs => hw'.2.2 ht (hclear ht hs)⟩
        · exact ⟨hw'.halted,hadmitted.trans hw'.resumed,fun ht hs => hw'.failed ht (hclear ht hs)⟩
      · obtain ⟨⟨hk,hfirm⟩,hfailed⟩ := hd
        exact ⟨(h.halted.kept (t := ⟨s,false,false,0⟩) he hk hfirm).1,
          h.halted.resumed (t := ⟨s,false,false,0⟩) he hk hfirm,hfailed⟩

/-! ## Orphans -/

theorem Opening.vacant (h : Opening cfg tidy calm [] w) (hf : w.transfers.find? id = none) :
    Vacant (w.slot id) := by
  have hcurrent := h.other hf (by simp)
  have hnone : none ∈ (w.slot id).entry.possible := hcurrent ▸ (w.slot id).entry.mem
  exact ⟨h.halted.whole hnone,(h.halted.sound id).absent hnone⟩

/-- The slot of an orphan stays without an owner. -/
theorem Opening.cleaned (h : Opening cfg tidy calm [] w) (hf : w.transfers.find? id = none)
    {d : Desk} (temp : Cell Bool) (hd : d.slot = {w.slot id with temp := temp})
    (hoffered : d.offered = w.offered) :
    Opening cfg tidy calm [] (w.stow id d) ∧ Resumed calm w (w.stow id d) := by
  have hv := h.vacant hf
  have hvacant : Vacant d.slot := by
    rw [hd]
    exact ⟨hv.entry,hv.final⟩
  have hentry : d.slot.entry = (w.slot id).entry := by rw [hd]
  have hslot : ∀ a, ((w.stow id d).slot a).entry = (w.slot a).entry := by
    intro a
    rw [slot_stow]
    split_ifs with heq
    · rw [heq,hentry]
    · rfl
  have hsum : (w.stow id d).slots.sumBy weight ≤ w.slots.sumBy weight := by
    have hzero : weight d.slot = 0 := by
      refine Nat.le_zero.mp (weight_le (fun s hs => ?_))
      cases hvacant.entry _ hs
    refine (SortedMap.sumBy_insert _ _ _ _).trans_le ?_
    rw [hzero,Nat.zero_add]
    refine SortedMap.sumBy_le_sumBy (fun a slot ha _ => ⟨slot,SortedMap.find?_of_erase ha,le_rfl⟩)
  have hother : ∀ {a : TransferId} {t : ActiveTransfer}, w.transfers.find? a = some t →
      (w.stow id d).slot a = w.slot a := by
    intro a t ha
    rw [slot_stow,if_neg]
    rintro rfl
    rw [hf] at ha
    cases ha
  refine ⟨⟨⟨⟨fun a => ?_,fun {a s} hs => ?_,hsum.trans h.halted.quota,
    hsum.trans_lt h.halted.range,fun {a n} hn e he => ?_,fun {a s} hs => ?_⟩,fun a => ?_,
    fun a => ?_,fun {a} hn e he => ?_⟩,fun {a t} ha => ?_,h.quiet,by simp,fun {a} ha hno => ?_,h.nodup,
    h.reserved⟩,rfl,rfl,fun _ s hs => .inl (hoffered ▸ hs),fun {a s} hs => ?_⟩
  · rw [slot_stow]
    split_ifs
    · exact hvacant.sound
    · exact h.halted.sound a
  · rw [hslot] at hs
    exact h.halted.ids hs
  · rw [hslot] at he
    exact h.halted.acked hn e he
  · rw [hslot] at hs
    exact h.halted.origin hs
  · have hu := h.halted.uniform a
    exact ⟨by rw [hslot]; exact hu.offset,by rw [hslot]; exact hu.present⟩
  · rw [slot_stow]
    split_ifs
    · intro f hm
      exact (hvacant.final f hm).trans (hvacant.final _ d.slot.final.mem).symm
    · exact h.halted.firm a
  · rw [hslot] at hn he
    exact h.halted.whole hn e he
  · rw [hother ha]
    exact h.known ha
  · rw [hslot]
    exact h.other ha hno
  · refine ⟨s,by rw [hslot]; exact hs,rfl,rfl,?_⟩
    rw [slot_stow]
    split_ifs with heq
    · rw [heq,hd]
    · rfl

theorem cleanupOrphans_leads (ids : List TransferId) (h : Opening cfg tidy calm [] w) :
    Leads (cleanupOrphans ids) w
      (fun _ w' => Opening cfg tidy calm [] w' ∧ Resumed calm w w' ∧ Clears tidy w w')
      (fun _ => Halts cfg tidy calm w) := by
  induction ids generalizing w with
  | nil => exact Leads.pure ⟨h,Resumed.refl w,fun _ hs => hs⟩
  | cons id ids ih =>
      unfold cleanupOrphans
      refine Leads.read_bind (Leads.ite (fun hc => ?_) (fun _ => ih h))
      have hf : w.transfers.find? id = none := by
        have hcontains := hc.1
        rw [SortedMap.contains] at hcontains
        simpa using hcontains
      refine Leads.bind (onSlot_leads (fsCall_leads ?_ (fun hfault => ?_) (fun _ hfault => ?_)))
      · obtain ⟨hopen,hresumed⟩ := h.cleaned hf (d := ⟨noTransfer,
          {w.slot id with temp := (w.slot id).temp.write false},w.script.tail,w.offered⟩) _ rfl rfl
        refine (ih hopen).mono (fun _ w' hw' => ?_) (fun _ w' hw' => ?_)
        · refine ⟨hw'.1,hresumed.trans hw'.2.1,fun ht hs => hw'.2.2 ht ?_⟩
          change w.script.tail = []
          rw [hs]
          rfl
        · refine ⟨hw'.halted,hresumed.trans hw'.resumed,fun ht hs => hw'.failed ht ?_⟩
          change w.script.tail = []
          rw [hs]
          rfl
      · obtain ⟨hopen,hresumed⟩ := h.cleaned hf
          (d := ⟨noTransfer,w.slot id,w.script.tail,w.offered⟩) (w.slot id).temp rfl rfl
        refine ⟨hopen.halted,hresumed,fun _ hs => ?_⟩
        have hfault' : w.script.head? = some (some .early) := hfault
        rw [hs] at hfault'
        cases hfault'
      · obtain ⟨hopen,hresumed⟩ := h.cleaned hf (d := ⟨noTransfer,
          {w.slot id with temp := (w.slot id).temp.write false},w.script.tail,w.offered⟩) _ rfl rfl
        refine ⟨hopen.halted,hresumed,fun _ hs => ?_⟩
        have hfault' : w.script.head? = some (some (.cut _)) := hfault
        rw [hs] at hfault'
        cases hfault'

/-! ## Opening -/

theorem mem_journal {s : TransferState} :
    (id,s) ∈ w.journal ↔ (w.slot id).entry.current = some s := by
  unfold World.journal
  rw [List.mem_filterMap]
  constructor
  · rintro ⟨⟨a,slot⟩,hmem,hmap⟩
    obtain ⟨s',hs',heq⟩ := Option.map_eq_some_iff.mp hmap
    cases heq
    rw [slot_of_find? (SortedMap.mem_iff_find?.mp hmem)]
    exact hs'
  · intro hs
    have hfound : w.slots.find? id = some (w.slot id) := slot_found (hs ▸ (w.slot id).entry.mem)
    exact ⟨(id,w.slot id),SortedMap.mem_iff_find?.mpr hfound,by rw [hs]; rfl⟩

theorem journal_nodup (w : World) : (w.journal.map Prod.fst).Nodup := by
  have hsub : ∀ es : List (TransferId × Slot),
      ((es.filterMap fun e => e.2.entry.current.map (e.1,·)).map Prod.fst).Sublist
        (es.map Prod.fst) := by
    intro es
    induction es with
    | nil => exact List.Sublist.refl _
    | cons e es ih =>
        cases hc : e.2.entry.current with
        | none =>
            simp only [List.filterMap_cons,hc,Option.map_none,List.map_cons]
            exact ih.cons _
        | some s =>
            simp only [List.filterMap_cons,hc,Option.map_some,List.map_cons]
            exact ih.cons_cons _
  exact (hsub _).nodup ((SortedMap.keys_sorted w.slots).imp (fun h => h.ne))

theorem checkLoaded_ok {loaded : List (TransferId × TransferState)}
    (h : ∀ id s, (id,s) ∈ loaded → s.validate = .ok () ∧ s.transferId = id) :
    checkLoaded loaded = .ok () := by
  induction loaded with
  | nil => rfl
  | cons entry rest ih =>
      obtain ⟨id,s⟩ := entry
      obtain ⟨hv,hid⟩ := h id s List.mem_cons_self
      have hrest := ih (fun a s' hmem => h a s' (List.mem_cons_of_mem _ hmem))
      simp only [checkLoaded,hv,hid,sequence_eq_ok,require_eq_ok]
      exact ⟨(),rfl,(),trivial,hrest⟩

theorem Halted.opening (h : Halted cfg tidy w) :
    Opening cfg tidy calm w.fresh.journal w.fresh where
  halted := ⟨⟨h.sound,h.ids,h.quota,h.range,h.acked,h.origin⟩,h.uniform,h.firm,h.whole⟩
  known hf := by cases hf
  quiet _ _ _ hf := by cases hf
  todo hmem := mem_journal.mp hmem
  other {id} _ hno := by
    cases hc : (w.fresh.slot id).entry.current with
    | none => rfl
    | some s => exact absurd (List.mem_map_of_mem (mem_journal.mpr hc)) hno
  nodup := journal_nodup _
  reserved := rfl

/-- Everything has been taken: the receiver can run. -/
theorem Opening.live (h : Opening cfg tidy calm [] w) : Live cfg tidy calm w := by
  have hsum : w.reservedBytes ≤ w.slots.sumBy weight := by
    rw [h.reserved]
    exact SortedMap.sumBy_le_sumBy (fun a t ha _ => h.covered ha)
  refine ⟨fun hf => ⟨(h.known hf).1,(h.known hf).2.1⟩,fun hf => h.vacant hf,h.reserved,
    hsum.trans h.halted.quota,hsum.trans_lt h.halted.range,
    fun hf hn => absurd hn (h.known hf).2.2.1,fun {id n} hn => ?_,fun {id t} hf => ?_,h.quiet⟩
  rotate_left
  · obtain ⟨hgood,-,hpresent,-⟩ := h.known hf
    cases hcurrent : (w.slot id).entry.current with
    | none => exact absurd (hcurrent ▸ (w.slot id).entry.mem) hpresent
    | some s =>
        have hs : some s ∈ (w.slot id).entry.possible := hcurrent ▸ (w.slot id).entry.mem
        obtain ⟨a,ha,horigin⟩ := h.halted.origin hs
        exact ⟨a,ha,horigin.of_terms (hgood.agrees s hs).1.symm⟩
  have hacked := h.halted.acked hn _ (w.slot id).entry.mem
  cases hf : w.transfers.find? id with
  | none =>
      rcases hacked with ⟨s,hs,-⟩ | ⟨-,hgone⟩
      · rw [h.other hf (by simp)] at hs
        cases hs
      · exact .inr ⟨rfl,hgone⟩
  | some t =>
      obtain ⟨hgood,-,hpresent,-⟩ := h.known hf
      rcases hacked with ⟨s,hs,hle⟩ | ⟨hnone,-⟩
      · refine .inl ⟨t,rfl,?_⟩
        rw [← (hgood.agrees s (hs ▸ (w.slot id).entry.mem)).2]
        exact hle
      · exact absurd (hnone ▸ (w.slot id).entry.mem) hpresent

/-- Opening succeeds on sound storage unless a call of the file system fails. -/
theorem openReceiver_leads (htidy : calm → tidy) (h : Halted cfg tidy w) :
    Leads (openReceiver cfg) w
      (fun _ w' => Live cfg tidy calm w' ∧ Resumed calm w w')
      (fun _ => Halts cfg tidy calm w) := by
  have hopening : Opening cfg tidy calm w.fresh.journal w.fresh := h.opening
  have hfresh : ∀ {w' : World}, Resumed calm w.fresh w' → Resumed calm w w' :=
    fun hr => ⟨hr.acked,hr.abandoned,hr.offers,hr.entries⟩
  have hloaded : checkLoaded w.fresh.journal = .ok () := by
    refine checkLoaded_ok (fun id s hmem => ?_)
    have hs : some s ∈ (w.slot id).entry.possible :=
      mem_journal.mp hmem ▸ (w.slot id).entry.mem
    exact ⟨((h.sound id).entries s hs).2,h.ids hs⟩
  unfold openReceiver
  refine Leads.update_bind (Leads.read_bind (Leads.attempt_bind (fun _ _ => ?_) (fun e he => ?_)))
  · refine Leads.bind ((recoverAll_leads htidy hopening).mono (fun _ w₁ hw₁ => ?_)
      (fun _ w₁ hw₁ => ⟨hw₁.halted,hfresh hw₁.resumed,hw₁.failed⟩))
    obtain ⟨hopen₁,hresumed₁,hclear₁⟩ := hw₁
    refine Leads.read_bind (Leads.bind ((cleanupOrphans_leads _ hopen₁).mono (fun _ w₂ hw₂ => ?_)
      (fun _ w₂ hw₂ => ⟨hw₂.halted,hfresh (hresumed₁.trans hw₂.resumed),
        fun ht hs => hw₂.failed ht (hclear₁ ht hs)⟩)))
    obtain ⟨hopen₂,hresumed₂,-⟩ := hw₂
    have hlive := hopen₂.live
    exact Leads.read_bind (Leads.demand (fun _ => ⟨hlive,hfresh (hresumed₁.trans hresumed₂)⟩)
      (fun hno => absurd hlive.quota hno))
  · rw [hloaded] at he
    cases he

end Gcoms.FileOpening
