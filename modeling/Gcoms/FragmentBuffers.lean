import Gcoms.RelayCells

/-!
# Reassembly of cell fragments

The buffer concatenates the fragments of each message in the order of arrival. Two
loops make room: one removes the oldest slots until there is a free one, the other
removes the oldest other slots until the bytes fit. Both are run with fuel, and a
push that runs out of every fuel does not terminate. With at least one slot and a
message bound within the total bound every push terminates and all bounds hold;
without either of them some push breaks this.
-/
namespace Gcoms.FragmentBuffers
open ByteCodec RelayCells

abbrev MessageId := Block 16

def fragmentTableCap : ℕ := 64

def fragmentMessageCap : ℕ := maxMessage

def fragmentTotalCap : ℕ := fragmentTableCap*fragmentMessageCap

structure FragmentBuffer where
  cap : ℕ
  messageCap : ℕ
  totalCap : ℕ
  total : ℕ
  slots : List (MessageId × Bytes)

namespace FragmentBuffer

def withCaps (cap messageCap totalCap : ℕ) : FragmentBuffer := ⟨cap,messageCap,totalCap,0,[]⟩

def new : FragmentBuffer := withCaps fragmentTableCap fragmentMessageCap fragmentTotalCap

/-- The product is one of machine words. -/
def withCap (cap : ℕ) : FragmentBuffer :=
  withCaps cap fragmentMessageCap (cap*fragmentMessageCap%2^64)

def default : FragmentBuffer := ⟨0,0,0,0,[]⟩

def position (b : FragmentBuffer) (id : MessageId) : Option ℕ :=
  b.slots.findIdx? fun slot => slot.1 = id

def removeAt (b : FragmentBuffer) (pos : ℕ) : Option Bytes × FragmentBuffer :=
  match b.slots[pos]? with
  | none => (none,b)
  | some slot => (some slot.2,{b with
      slots := b.slots.eraseIdx pos
      total := b.total-slot.2.length})

/-- The oldest slots are removed until one is free. -/
def freeSlot : ℕ → FragmentBuffer → Option FragmentBuffer
  | 0, _ => none
  | fuel+1, b => if b.cap ≤ b.slots.length then freeSlot fuel (b.removeAt 0).2 else some b

/-- The oldest other slots are removed until the fragment fits. -/
def freeBytes (id : MessageId) (n : ℕ) : ℕ → FragmentBuffer → Option FragmentBuffer
  | 0, _ => none
  | fuel+1, b =>
      if b.totalCap < b.total+n then
        match b.slots.findIdx? fun slot => slot.1 ≠ id with
        | none => some b
        | some victim => freeBytes id n fuel (b.removeAt victim).2
      else some b

/-- The slot of the message, which is made if there is none. A message beyond its
bound is dropped, and then there is nothing to extend. -/
def openSlot (fuel : ℕ) (b : FragmentBuffer) (id : MessageId) (data : Bytes) :
    Option (Bool × FragmentBuffer) :=
  match b.position id with
  | some pos =>
      if b.messageCap < ((b.slots[pos]?).map (·.2.length)).getD 0+data.length then
        some (false,(b.removeAt pos).2)
      else some (true,b)
  | none => (freeSlot fuel b).map fun b => (true,{b with slots := b.slots++[(id,[])]})

def extend (b : FragmentBuffer) (id : MessageId) (last : Bool) (data : Bytes) :
    Option Bytes × FragmentBuffer :=
  match b.position id with
  | none => (none,b)
  | some pos =>
      let b := {b with
        slots := b.slots.modify pos fun slot => (slot.1,slot.2++data)
        total := b.total+data.length}
      if last then b.removeAt pos else (none,b)

/-- A push, unless it needs more fuel. -/
def push (fuel : ℕ) (b : FragmentBuffer) (id : MessageId) (last : Bool) (data : Bytes) :
    Option (Option Bytes × FragmentBuffer) :=
  if b.messageCap < data.length then
    match b.position id with
    | some pos => some (none,(b.removeAt pos).2)
    | none => some (none,b)
  else do
    let (opened,b) ← openSlot fuel b id data
    if opened then do
      let b ← freeBytes id data.length fuel b
      some (b.extend id last data)
    else some (none,b)

/-! ## Removal -/

def slotBytes (slots : List (MessageId × Bytes)) : ℕ := (slots.map (·.2.length)).sum

/-- The counter is right, the identifiers differ and no message is beyond its bound. -/
structure Sound (b : FragmentBuffer) : Prop where
  total : b.total = slotBytes b.slots
  ids : (b.slots.map Prod.fst).Nodup
  message : ∀ slot ∈ b.slots, slot.2.length ≤ b.messageCap

/-- Some slots were removed. -/
structure Shrinks (b b' : FragmentBuffer) : Prop where
  cap : b'.cap = b.cap
  messageCap : b'.messageCap = b.messageCap
  totalCap : b'.totalCap = b.totalCap
  slots : b'.slots.Sublist b.slots
  sound : Sound b'

section Removal
variable {b b' b'' : FragmentBuffer} {id : MessageId} {n fuel : ℕ}

theorem slotBytes_append (l r : List (MessageId × Bytes)) :
    slotBytes (l++r) = slotBytes l+slotBytes r := by
  simp [slotBytes]

theorem slotBytes_cons (slot : MessageId × Bytes) (r : List (MessageId × Bytes)) :
    slotBytes (slot::r) = slot.2.length+slotBytes r := by
  simp [slotBytes]

theorem Shrinks.refl (h : Sound b) : Shrinks b b := ⟨rfl,rfl,rfl,List.Sublist.refl _,h⟩

theorem Shrinks.trans (h : Shrinks b b') (h' : Shrinks b' b'') : Shrinks b b'' :=
  ⟨h'.cap.trans h.cap,h'.messageCap.trans h.messageCap,h'.totalCap.trans h.totalCap,
    h'.slots.trans h.slots,h'.sound⟩

theorem Shrinks.length_le (h : Shrinks b b') : b'.slots.length ≤ b.slots.length :=
  h.slots.length_le

theorem Shrinks.total_le (h : Shrinks b b') (hb : Sound b) : b'.total ≤ b.total := by
  rw [h.sound.total,hb.total]
  exact (h.slots.map _).sum_le_sum (by simp)

/-- Removing the slot in the middle. -/
theorem removeAt_middle {l r : List (MessageId × Bytes)} {slot : MessageId × Bytes}
    (h : b.slots = l++slot::r) :
    b.removeAt l.length = (some slot.2,{b with slots := l++r, total := b.total-slot.2.length}) := by
  have hget : b.slots[l.length]? = some slot := by simp [h]
  have herase : b.slots.eraseIdx l.length = l++r := by
    rw [h,List.eraseIdx_append_of_length_le le_rfl]
    simp
  rw [removeAt,hget]
  simp only [herase]

theorem removeAt_shrinks {l r : List (MessageId × Bytes)} {slot : MessageId × Bytes}
    (hb : Sound b) (h : b.slots = l++slot::r) : Shrinks b (b.removeAt l.length).2 := by
  rw [removeAt_middle h]
  have hsub : (l++r).Sublist b.slots := by
    rw [h]
    exact (List.Sublist.refl l).append (List.sublist_cons_self slot r)
  refine ⟨rfl,rfl,rfl,hsub,?_,hb.ids.sublist (hsub.map _),fun s hs => hb.message s (hsub.subset hs)⟩
  change b.total-slot.2.length = slotBytes (l++r)
  rw [hb.total,h,slotBytes_append,slotBytes_append,slotBytes_cons]
  omega

theorem findIdx?_split {p : MessageId × Bytes → Bool} {slots : List (MessageId × Bytes)} {pos : ℕ}
    (h : slots.findIdx? p = some pos) :
    ∃ l slot r, slots = l++slot::r ∧ l.length = pos ∧ p slot = true := by
  obtain ⟨hlt,hp,_⟩ := List.findIdx?_eq_some_iff_getElem.mp h
  refine ⟨slots.take pos,slots[pos],slots.drop (pos+1),?_,by simp [hlt.le],hp⟩
  rw [List.getElem_cons_drop,List.take_append_drop]

/-- The slot of a known message. -/
theorem position_split {pos : ℕ} (h : b.position id = some pos) :
    ∃ l content r, b.slots = l++(id,content)::r ∧ l.length = pos := by
  obtain ⟨l,slot,r,hslots,hlen,hid⟩ := findIdx?_split h
  have hid' : slot.1 = id := by simpa using hid
  exact ⟨l,slot.2,r,by rw [hslots,← hid'],hlen⟩

theorem position_none (h : b.position id = none) : ∀ slot ∈ b.slots, slot.1 ≠ id := by
  intro slot hslot
  have := List.findIdx?_eq_none_iff.mp h slot hslot
  simpa using this

/-! ## The two loops -/

theorem freeSlot_shrinks (hb : Sound b) (h : freeSlot fuel b = some b') :
    Shrinks b b' ∧ b'.slots.length < b'.cap := by
  induction fuel generalizing b with
  | zero => cases h
  | succ fuel ih =>
      unfold freeSlot at h
      split_ifs at h with hfull
      · rcases hslots : b.slots with _ | ⟨slot,rest⟩
        · have hsame : (b.removeAt 0).2 = b := by simp [removeAt,hslots]
          rw [hsame] at h
          exact ih hb h
        · have hstep : Shrinks b (b.removeAt 0).2 := @removeAt_shrinks b [] rest slot hb hslots
          obtain ⟨hrest,hlt⟩ := ih hstep.sound h
          exact ⟨hstep.trans hrest,hlt⟩
      · cases h
        exact ⟨Shrinks.refl hb,not_le.mp hfull⟩

/-- With a slot to give, the first loop ends. -/
theorem freeSlot_total (hcap : 1 ≤ b.cap) (hfuel : b.slots.length < fuel) :
    ∃ b', freeSlot fuel b = some b' := by
  induction fuel generalizing b with
  | zero => exact absurd hfuel (Nat.not_lt_zero _)
  | succ fuel ih =>
      unfold freeSlot
      split_ifs with hfull
      · rcases hslots : b.slots with _ | ⟨slot,rest⟩
        · rw [hslots] at hfull
          exact absurd (hcap.trans hfull) (by simp)
        · have hstep : b.removeAt 0 = _ := @removeAt_middle b [] rest slot hslots
          rw [hstep]
          refine ih hcap ?_
          rw [hslots] at hfuel
          exact Nat.lt_of_succ_lt_succ hfuel
      · exact ⟨b,rfl⟩

/-- Without any slot it never ends. -/
theorem freeSlot_stuck (hcap : b.cap = 0) (hslots : b.slots = []) : freeSlot fuel b = none := by
  induction fuel with
  | zero => rfl
  | succ fuel ih =>
      have hsame : (b.removeAt 0).2 = b := by simp [removeAt,hslots]
      unfold freeSlot
      rw [if_pos (by omega),hsame,ih]

theorem freeBytes_shrinks (hb : Sound b) (h : freeBytes id n fuel b = some b') :
    Shrinks b b' ∧ (∀ slot ∈ b.slots, slot.1 = id → slot ∈ b'.slots) ∧
      (b'.total+n ≤ b'.totalCap ∨ ∀ slot ∈ b'.slots, slot.1 = id) := by
  induction fuel generalizing b with
  | zero => cases h
  | succ fuel ih =>
      unfold freeBytes at h
      split_ifs at h with hover
      · cases hvictim : b.slots.findIdx? fun slot => slot.1 ≠ id with
        | none =>
            rw [hvictim] at h
            cases h
            refine ⟨Shrinks.refl hb,fun slot hslot _ => hslot,.inr fun slot hslot => ?_⟩
            simpa using List.findIdx?_eq_none_iff.mp hvictim slot hslot
        | some victim =>
            rw [hvictim] at h
            obtain ⟨l,slot,r,hslots,rfl,hother⟩ := findIdx?_split hvictim
            have hstep := removeAt_shrinks hb hslots
            obtain ⟨hrest,hkeep,hfits⟩ := ih hstep.sound h
            refine ⟨hstep.trans hrest,fun s hs hid => hkeep s ?_ hid,hfits⟩
            rw [removeAt_middle hslots]
            rw [hslots] at hs
            rcases List.mem_append.mp hs with hs | hs
            · exact List.mem_append_left _ hs
            · rcases List.mem_cons.mp hs with rfl | hs
              · simp [hid] at hother
              · exact List.mem_append_right _ hs
      · cases h
        exact ⟨Shrinks.refl hb,fun slot hslot _ => hslot,.inl (not_lt.mp hover)⟩

theorem freeBytes_total (id : MessageId) (n : ℕ) (hfuel : b.slots.length < fuel) :
    ∃ b', freeBytes id n fuel b = some b' := by
  induction fuel generalizing b with
  | zero => exact absurd hfuel (Nat.not_lt_zero _)
  | succ fuel ih =>
      unfold freeBytes
      split_ifs with hover
      · cases hvictim : b.slots.findIdx? fun slot => slot.1 ≠ id with
        | none => exact ⟨b,rfl⟩
        | some victim =>
            obtain ⟨l,slot,r,hslots,rfl,_⟩ := findIdx?_split hvictim
            dsimp only
            rw [removeAt_middle hslots]
            refine ih ?_
            rw [hslots] at hfuel
            simp only [List.length_append,List.length_cons] at hfuel ⊢
            omega
      · exact ⟨b,rfl⟩

end Removal

end FragmentBuffer

/-! ## Runs -/

open FragmentBuffer

/-- The fragments of each message since it last had no slot. -/
abbrev Log := MessageId → List Bytes

/-- A push of a fragment that left the buffer `b`. -/
def Log.note (log : Log) (b : FragmentBuffer) (id : MessageId) (data : Bytes) : Log := fun a =>
  if b.position a = none then [] else if a = id then log a++[data] else log a

/-- Every slot holds the fragments of the log, and there are no others. -/
structure Logged (b : FragmentBuffer) (log : Log) : Prop where
  slots : ∀ slot ∈ b.slots, slot.2 = (log slot.1).flatten
  others : ∀ a, b.position a = none → log a = []

inductive Reached (start : FragmentBuffer) : FragmentBuffer → Log → Prop
  | start : Reached start start fun _ => []
  | push {b b' : FragmentBuffer} {log : Log} {fuel : ℕ} {id : MessageId} {last : Bool} {data : Bytes}
      {r : Option Bytes} : Reached start b log → push fuel b id last data = some (r,b') →
      Reached start b' (log.note b' id data)

/-- What is promised of a buffer with its log. -/
structure Guaranteed (b : FragmentBuffer) (log : Log) : Prop where
  total : b.total = slotBytes b.slots
  slots : b.slots.length ≤ b.cap
  ids : (b.slots.map Prod.fst).Nodup
  message : ∀ slot ∈ b.slots, slot.2.length ≤ b.messageCap
  bytes : b.total ≤ b.totalCap
  ends : ∀ id last data, ∃ fuel r, push fuel b id last data = some r
  returned : ∀ fuel id last data m b', push fuel b id last data = some (some m,b') →
    m = (log id++[data]).flatten

/-- The bounds that a push preserves. -/
structure Bounded (b : FragmentBuffer) (log : Log) : Prop where
  sound : Sound b
  logged : Logged b log
  slots : b.slots.length ≤ b.cap
  bytes : b.total ≤ b.totalCap

section Runs
variable {b b' : FragmentBuffer} {log : Log} {id : MessageId} {last : Bool} {data : Bytes}
  {r : Option Bytes} {fuel : ℕ}

theorem position_of_mem {slot : MessageId × Bytes} (h : slot ∈ b.slots) :
    b.position slot.1 ≠ none := fun hnone => position_none hnone slot h rfl

/-- The log follows the slots. -/
theorem Bounded.noted (hsound : Sound b') (hslots : b'.slots.length ≤ b'.cap)
    (hbytes : b'.total ≤ b'.totalCap)
    (hlog : ∀ slot ∈ b'.slots,
      slot.2 = (if slot.1 = id then log slot.1++[data] else log slot.1).flatten) :
    Bounded b' (log.note b' id data) where
  sound := hsound
  logged :=
    { slots := fun slot hslot => by
        rw [Log.note,if_neg (position_of_mem hslot)]
        exact hlog slot hslot
      others := fun a ha => by rw [Log.note,if_pos ha] }
  slots := hslots
  bytes := hbytes

theorem Bounded.shrinks (h : Bounded b log) (hs : Shrinks b b')
    (hid : ∀ slot ∈ b'.slots, slot.1 ≠ id) : Bounded b' (log.note b' id data) := by
  refine .noted hs.sound ?_ ?_ fun slot hslot => ?_
  · rw [hs.cap]
    exact hs.length_le.trans h.slots
  · rw [hs.totalCap]
    exact (hs.total_le h.sound).trans h.bytes
  · rw [if_neg (hid slot hslot)]
    exact h.logged.slots slot (hs.slots.subset hslot)

/-- The slot of a message is removed. -/
theorem Bounded.dropped {pos : ℕ} (h : Bounded b log) (hpos : b.position id = some pos) :
    Bounded (b.removeAt pos).2 (log.note (b.removeAt pos).2 id data) := by
  obtain ⟨l,content,r,hslots,rfl⟩ := position_split hpos
  refine h.shrinks (removeAt_shrinks h.sound hslots) (fun slot hslot heq => ?_)
  have hids := h.sound.ids
  rw [removeAt_middle hslots] at hslot
  rw [hslots,List.map_append,List.map_cons,List.nodup_middle,List.nodup_cons] at hids
  refine hids.1 ?_
  rw [← List.map_append]
  exact List.mem_map.mpr ⟨slot,hslot,heq⟩

/-- A buffer in which the message has its slot, with room in it for the fragment. -/
structure Opened (b : FragmentBuffer) (log : Log) (id : MessageId) (data : Bytes)
    (b₁ : FragmentBuffer) : Prop where
  cap : b₁.cap = b.cap
  messageCap : b₁.messageCap = b.messageCap
  totalCap : b₁.totalCap = b.totalCap
  sound : Sound b₁
  slots : b₁.slots.length ≤ b₁.cap
  own : (id,(log id).flatten) ∈ b₁.slots
  fits : ((log id).flatten++data).length ≤ b₁.messageCap
  others : ∀ slot ∈ b₁.slots, slot.1 ≠ id → slot ∈ b.slots

theorem Bounded.opened {b₁ : FragmentBuffer} (h : Bounded b log)
    (hdata : data.length ≤ b.messageCap) (ho : openSlot fuel b id data = some (true,b₁)) :
    Opened b log id data b₁ := by
  unfold openSlot at ho
  cases hpos : b.position id with
  | some pos =>
      rw [hpos] at ho
      obtain ⟨l,content,r,hslots,rfl⟩ := position_split hpos
      have hget : b.slots[l.length]? = some (id,content) := by simp [hslots]
      have hmem : (id,content) ∈ b.slots := List.mem_of_getElem? hget
      have hcontent : content = (log id).flatten := h.logged.slots _ hmem
      simp only [hget,Option.map_some,Option.getD_some] at ho
      split_ifs at ho with hover
      · cases ho
      · cases ho
        refine ⟨rfl,rfl,rfl,h.sound,h.slots,hcontent ▸ hmem,?_,fun slot hslot _ => hslot⟩
        rw [← hcontent,List.length_append]
        exact not_lt.mp hover
  | none =>
      rw [hpos] at ho
      obtain ⟨b₀,hfree,heq⟩ := Option.map_eq_some_iff.mp ho
      cases heq
      obtain ⟨hs,hroom⟩ := freeSlot_shrinks h.sound hfree
      have hnew : ∀ slot ∈ b₀.slots, slot.1 ≠ id := fun slot hslot =>
        position_none hpos slot (hs.slots.subset hslot)
      have hempty : (log id).flatten = [] := by rw [h.logged.others id hpos,List.flatten_nil]
      refine ⟨hs.cap,hs.messageCap,hs.totalCap,⟨?_,?_,?_⟩,?_,?_,?_,?_⟩
      · rw [slotBytes_append,slotBytes_cons,← hs.sound.total]
        simp [slotBytes]
      · rw [List.map_append]
        refine List.nodup_append'.mpr ⟨hs.sound.ids,List.nodup_singleton _,fun a ha hmem => ?_⟩
        obtain ⟨slot,hslot,rfl⟩ := List.mem_map.mp ha
        exact hnew slot hslot (List.mem_singleton.mp hmem)
      · intro slot hslot
        rcases List.mem_append.mp hslot with hslot | hslot
        · exact hs.sound.message slot hslot
        · rw [List.mem_singleton.mp hslot]
          exact Nat.zero_le _
      · simpa using hroom
      · rw [hempty]
        exact List.mem_append_right _ (List.mem_singleton_self _)
      · rw [hempty,List.nil_append]
        exact hdata.trans hs.messageCap.ge
      · intro slot hslot hne
        rcases List.mem_append.mp hslot with hslot | hslot
        · exact hs.slots.subset hslot
        · exact absurd (congrArg Prod.fst (List.mem_singleton.mp hslot)) hne

theorem modify_middle (l r : List (MessageId × Bytes)) (slot : MessageId × Bytes)
    (f : MessageId × Bytes → MessageId × Bytes) :
    (l++slot::r).modify l.length f = l++f slot::r := by
  induction l with
  | nil => rfl
  | cons a l ih => simpa using ih

/-- The fragment is appended to the slot. -/
theorem Opened.extended {b₁ b₂ : FragmentBuffer} (ho : Opened b log id data b₁) (last : Bool)
    (h : Bounded b log) (hcaps : b.messageCap ≤ b.totalCap)
    (hfree : freeBytes id data.length fuel b₁ = some b₂) :
    Bounded (b₂.extend id last data).2 (log.note (b₂.extend id last data).2 id data) ∧
      (∀ m, (b₂.extend id last data).1 = some m → m = (log id++[data]).flatten) := by
  obtain ⟨hs,hkeep,hroom⟩ := freeBytes_shrinks ho.sound hfree
  have hown := hkeep _ ho.own rfl
  obtain ⟨pos,hpos⟩ := Option.ne_none_iff_exists'.mp (position_of_mem hown)
  obtain ⟨l,content,rest,hslots,rfl⟩ := position_split hpos
  have hids := hs.sound.ids
  rw [hslots,List.map_append,List.map_cons,List.nodup_middle,List.nodup_cons,← List.map_append]
    at hids
  have hother : ∀ slot ∈ l++rest, slot.1 ≠ id := fun slot hslot heq =>
    hids.1 (List.mem_map.mpr ⟨slot,hslot,heq⟩)
  have hcontent : content = (log id).flatten := by
    rw [hslots] at hown
    rcases List.mem_append.mp hown with hown | hown
    · exact absurd rfl (hother _ (List.mem_append_left _ hown))
    · rcases List.mem_cons.mp hown with heq | hown
      · exact (Prod.mk.inj heq).2.symm
      · exact absurd rfl (hother _ (List.mem_append_right _ hown))
  have hmessage : (content++data).length ≤ b₂.messageCap := by
    rw [hcontent,hs.messageCap]
    exact ho.fits
  have htotal : b₂.total = slotBytes (l++rest)+content.length := by
    rw [hs.sound.total,hslots,slotBytes_append,slotBytes_append,slotBytes_cons]
    dsimp only
    omega
  have hbytes : b₂.total+data.length ≤ b₂.totalCap := by
    rcases hroom with hroom | hall
    · exact hroom
    · have hempty : l++rest = [] := List.eq_nil_iff_forall_not_mem.mpr fun slot hslot => by
        refine hother slot hslot (hall slot ?_)
        rw [hslots]
        rcases List.mem_append.mp hslot with hslot | hslot
        · exact List.mem_append_left _ hslot
        · exact List.mem_append_right _ (List.mem_cons_of_mem _ hslot)
      rw [htotal,hempty]
      rw [List.length_append,hs.messageCap,ho.messageCap] at hmessage
      rw [hs.totalCap,ho.totalCap]
      simp only [slotBytes,List.map_nil,List.sum_nil]
      omega
  have hlogged : ∀ slot ∈ l++rest, slot.2 = (log slot.1).flatten := fun slot hslot => by
    refine h.logged.slots slot (ho.others slot (hs.slots.subset ?_) (hother slot hslot))
    rw [hslots]
    rcases List.mem_append.mp hslot with hslot | hslot
    · exact List.mem_append_left _ hslot
    · exact List.mem_append_right _ (List.mem_cons_of_mem _ hslot)
  have hlength : (l++(id,content)::rest).length ≤ b₂.cap := by
    rw [← hslots,hs.cap]
    exact hs.length_le.trans ho.slots
  have hmodify : b₂.slots.modify l.length (fun slot => (slot.1,slot.2++data)) =
      l++(id,content++data)::rest := by rw [hslots,modify_middle]
  have hsound : ∀ slots, slots.Sublist (l++(id,content++data)::rest) →
      Sound {b₂ with slots := slots, total := slotBytes slots} := by
    intro slots hsub
    have hnodup : ((l++(id,content++data)::rest).map Prod.fst).Nodup := by
      rw [List.map_append,List.map_cons,List.nodup_middle,List.nodup_cons,← List.map_append]
      exact hids
    refine ⟨rfl,hnodup.sublist (hsub.map _),fun slot hslot => ?_⟩
    rcases List.mem_append.mp (hsub.subset hslot) with hslot | hslot
    · exact hs.sound.message slot (by rw [hslots]; exact List.mem_append_left _ hslot)
    · rcases List.mem_cons.mp hslot with rfl | hslot
      · exact hmessage
      · refine hs.sound.message slot ?_
        rw [hslots]
        exact List.mem_append_right _ (List.mem_cons_of_mem _ hslot)
  have hgrown : b₂.total+data.length = slotBytes (l++(id,content++data)::rest) := by
    rw [htotal,slotBytes_append,slotBytes_append,slotBytes_cons,List.length_append]
    omega
  have hleft : b₂.total+data.length-(content++data).length = slotBytes (l++rest) := by
    rw [htotal,List.length_append]
    omega
  unfold extend
  rw [hpos]
  dsimp only
  rw [hmodify]
  cases last with
  | false =>
      refine ⟨?_,fun m hm => by cases hm⟩
      have hall := hsound _ (List.Sublist.refl _)
      rw [← hgrown] at hall
      refine .noted hall ?_ hbytes fun slot hslot => ?_
      · simpa using hlength
      · rcases List.mem_append.mp hslot with hslot | hslot
        · have hmem := List.mem_append_left rest hslot
          rw [if_neg (hother slot hmem)]
          exact hlogged slot hmem
        · rcases List.mem_cons.mp hslot with rfl | hslot
          · simp [hcontent]
          · have hmem := List.mem_append_right l hslot
            rw [if_neg (hother slot hmem)]
            exact hlogged slot hmem
  | true =>
      have hremove := @removeAt_middle
        {b₂ with slots := l++(id,content++data)::rest, total := b₂.total+data.length} l rest
        (id,content++data) rfl
      simp only [if_true]
      rw [hremove]
      refine ⟨?_,fun m hm => ?_⟩
      · have hsub : (l++rest).Sublist (l++(id,content++data)::rest) :=
          (List.Sublist.refl l).append (List.sublist_cons_self _ rest)
        have hall := hsound _ hsub
        rw [← hleft] at hall
        refine .noted hall ?_ ?_ fun slot hslot => ?_
        · simp only [List.length_append,List.length_cons] at hlength ⊢
          omega
        · dsimp only
          omega
        · rw [if_neg (hother slot hslot)]
          exact hlogged slot hslot
      · cases hm
        simp [hcontent]

theorem Bounded.push (h : Bounded b log) (hcaps : b.messageCap ≤ b.totalCap)
    (hp : push fuel b id last data = some (r,b')) :
    Bounded b' (log.note b' id data) ∧ ∀ m, r = some m → m = (log id++[data]).flatten := by
  unfold FragmentBuffer.push at hp
  split_ifs at hp with hlong
  · cases hpos : b.position id with
    | none =>
        rw [hpos] at hp
        cases hp
        exact ⟨h.shrinks (Shrinks.refl h.sound) (position_none hpos),fun m hm => by cases hm⟩
    | some pos =>
        rw [hpos] at hp
        cases hp
        exact ⟨h.dropped hpos,fun m hm => by cases hm⟩
  · obtain ⟨⟨opened,b₁⟩,hopen,hp⟩ := Option.bind_eq_some_iff.mp hp
    cases opened with
    | true =>
        obtain ⟨b₂,hfree,hp⟩ := Option.bind_eq_some_iff.mp hp
        have hpair := Option.some.inj hp
        have hextended := (h.opened (not_lt.mp hlong) hopen).extended last h hcaps hfree
        rw [hpair] at hextended
        exact hextended
    | false =>
        cases hp
        unfold openSlot at hopen
        cases hpos : b.position id with
        | none =>
            rw [hpos] at hopen
            obtain ⟨b₀,_,heq⟩ := Option.map_eq_some_iff.mp hopen
            cases heq
        | some pos =>
            rw [hpos] at hopen
            dsimp only at hopen
            split_ifs at hopen
            · cases hopen
              exact ⟨h.dropped hpos,fun m hm => by cases hm⟩
            · cases hopen

/-- With a slot to give, a push ends. -/
theorem Bounded.ends (h : Bounded b log) (hcap : 1 ≤ b.cap) (id : MessageId) (last : Bool)
    (data : Bytes) : ∃ fuel r, FragmentBuffer.push fuel b id last data = some r := by
  refine ⟨b.slots.length+2,?_⟩
  unfold FragmentBuffer.push
  split_ifs with hlong
  · cases b.position id with
    | none => exact ⟨_,rfl⟩
    | some pos => exact ⟨_,rfl⟩
  · obtain ⟨opened,b₁,hopen,hlen⟩ : ∃ opened b₁,
        openSlot (b.slots.length+2) b id data = some (opened,b₁) ∧
          (opened = true → b₁.slots.length < b.slots.length+2) := by
      unfold openSlot
      cases hpos : b.position id with
      | some pos =>
          dsimp only
          split_ifs with hover
          · exact ⟨_,_,rfl,fun hopened => by cases hopened⟩
          · exact ⟨_,_,rfl,fun _ => by omega⟩
      | none =>
          obtain ⟨b₀,hfree⟩ := @freeSlot_total b (b.slots.length+2) hcap (by omega)
          have hle := (freeSlot_shrinks h.sound hfree).1.length_le
          refine ⟨true,_,by rw [hfree]; rfl,fun _ => ?_⟩
          simp only [List.length_append,List.length_singleton]
          omega
    rw [hopen]
    cases opened with
    | false => exact ⟨_,rfl⟩
    | true =>
        obtain ⟨b₂,hfree⟩ := freeBytes_total id data.length (hlen rfl)
        refine ⟨b₂.extend id last data,?_⟩
        simp only [Option.bind_eq_bind,Option.bind_some,if_true,hfree]

/-! ## The capacities stay -/

def SameCaps (b b' : FragmentBuffer) : Prop :=
  b'.cap = b.cap ∧ b'.messageCap = b.messageCap ∧ b'.totalCap = b.totalCap

theorem SameCaps.trans {b'' : FragmentBuffer} (h : SameCaps b b') (h' : SameCaps b' b'') :
    SameCaps b b'' :=
  ⟨h'.1.trans h.1,h'.2.1.trans h.2.1,h'.2.2.trans h.2.2⟩

theorem removeAt_caps (b : FragmentBuffer) (pos : ℕ) : SameCaps b (b.removeAt pos).2 := by
  unfold removeAt
  cases b.slots[pos]? with
  | none => exact ⟨rfl,rfl,rfl⟩
  | some slot => exact ⟨rfl,rfl,rfl⟩

theorem freeSlot_caps (h : freeSlot fuel b = some b') : SameCaps b b' := by
  induction fuel generalizing b with
  | zero => cases h
  | succ fuel ih =>
      unfold freeSlot at h
      split_ifs at h
      · exact (removeAt_caps b 0).trans (ih h)
      · cases h
        exact ⟨rfl,rfl,rfl⟩

theorem freeBytes_caps {n : ℕ} (h : freeBytes id n fuel b = some b') : SameCaps b b' := by
  induction fuel generalizing b with
  | zero => cases h
  | succ fuel ih =>
      unfold freeBytes at h
      split_ifs at h
      · cases hvictim : b.slots.findIdx? fun slot => slot.1 ≠ id with
        | none =>
            rw [hvictim] at h
            cases h
            exact ⟨rfl,rfl,rfl⟩
        | some victim =>
            rw [hvictim] at h
            exact (removeAt_caps b victim).trans (ih h)
      · cases h
        exact ⟨rfl,rfl,rfl⟩

theorem openSlot_caps {opened : Bool} (h : openSlot fuel b id data = some (opened,b')) :
    SameCaps b b' := by
  unfold openSlot at h
  cases hpos : b.position id with
  | some pos =>
      rw [hpos] at h
      dsimp only at h
      split_ifs at h
      · cases h
        exact removeAt_caps b pos
      · cases h
        exact ⟨rfl,rfl,rfl⟩
  | none =>
      rw [hpos] at h
      obtain ⟨b₀,hfree,heq⟩ := Option.map_eq_some_iff.mp h
      cases heq
      exact (freeSlot_caps hfree).trans ⟨rfl,rfl,rfl⟩

theorem extend_caps (b : FragmentBuffer) (id : MessageId) (last : Bool) (data : Bytes) :
    SameCaps b (b.extend id last data).2 := by
  unfold extend
  cases b.position id with
  | none => exact ⟨rfl,rfl,rfl⟩
  | some pos =>
      cases last with
      | false => exact ⟨rfl,rfl,rfl⟩
      | true => exact removeAt_caps _ pos

theorem push_caps (h : FragmentBuffer.push fuel b id last data = some (r,b')) : SameCaps b b' := by
  unfold FragmentBuffer.push at h
  split_ifs at h
  · cases hpos : b.position id with
    | none =>
        rw [hpos] at h
        cases h
        exact ⟨rfl,rfl,rfl⟩
    | some pos =>
        rw [hpos] at h
        cases h
        exact removeAt_caps b pos
  · obtain ⟨⟨opened,b₁⟩,hopen,h⟩ := Option.bind_eq_some_iff.mp h
    cases opened with
    | false =>
        cases h
        exact openSlot_caps hopen
    | true =>
        obtain ⟨b₂,hfree,h⟩ := Option.bind_eq_some_iff.mp h
        have hcaps := extend_caps b₂ id last data
        rw [Option.some.inj h] at hcaps
        exact ((openSlot_caps hopen).trans (freeBytes_caps hfree)).trans hcaps

theorem bounded_withCaps (cap messageCap totalCap : ℕ) :
    Bounded (withCaps cap messageCap totalCap) fun _ => [] where
  sound := ⟨rfl,List.nodup_nil,fun _ hslot => (List.not_mem_nil hslot).elim⟩
  logged := ⟨fun _ hslot => (List.not_mem_nil hslot).elim,fun _ _ => rfl⟩
  slots := Nat.zero_le _
  bytes := Nat.zero_le _

theorem Reached.bounded {cap messageCap totalCap : ℕ} (hcaps : messageCap ≤ totalCap)
    (h : Reached (withCaps cap messageCap totalCap) b log) :
    Bounded b log ∧ SameCaps (withCaps cap messageCap totalCap) b := by
  induction h with
  | start => exact ⟨bounded_withCaps cap messageCap totalCap,rfl,rfl,rfl⟩
  | push _ hp ih =>
      have hle := ih.2.2.1.le.trans (hcaps.trans ih.2.2.2.ge)
      exact ⟨(ih.1.push hle hp).1,ih.2.trans (push_caps hp)⟩

/-- The first fragment of a message in an empty buffer. -/
theorem push_first {cap messageCap totalCap : ℕ} (hcap : 1 ≤ cap) (hdata : data.length ≤ messageCap) :
    FragmentBuffer.push 1 (withCaps cap messageCap totalCap) id false data =
      some (none,⟨cap,messageCap,totalCap,data.length,[(id,data)]⟩) := by
  have hfree : freeSlot 1 (withCaps cap messageCap totalCap) =
      some (withCaps cap messageCap totalCap) := if_neg (by
    change ¬cap ≤ 0
    omega)
  have hopen : openSlot 1 (withCaps cap messageCap totalCap) id data =
      some (true,⟨cap,messageCap,totalCap,0,[(id,[])]⟩) := by
    rw [openSlot]
    simp only [position,withCaps,List.findIdx?_nil]
    rw [show freeSlot 1 ⟨cap,messageCap,totalCap,0,[]⟩ = some ⟨cap,messageCap,totalCap,0,[]⟩ from hfree]
    rfl
  have hbytes : freeBytes id data.length 1 ⟨cap,messageCap,totalCap,0,[(id,[])]⟩ =
      some ⟨cap,messageCap,totalCap,0,[(id,[])]⟩ := by
    unfold freeBytes
    split_ifs
    · simp
    · rfl
  have hshort : ¬(withCaps cap messageCap totalCap).messageCap < data.length := not_lt.mpr hdata
  unfold FragmentBuffer.push
  rw [if_neg hshort,hopen]
  simp only [Option.bind_eq_bind,Option.bind_some,if_true,hbytes]
  simp [extend,position]

/-- Without any slot the first push never ends. -/
theorem push_stuck {messageCap totalCap : ℕ} (fuel : ℕ) (id : MessageId) :
    FragmentBuffer.push fuel (FragmentBuffer.withCaps 0 messageCap totalCap) id false [] = none := by
  have hstuck := @freeSlot_stuck (FragmentBuffer.withCaps 0 messageCap totalCap) fuel rfl rfl
  have hopen : openSlot fuel (FragmentBuffer.withCaps 0 messageCap totalCap) id [] = none := by
    rw [openSlot,show (FragmentBuffer.withCaps 0 messageCap totalCap).position id = none from rfl]
    dsimp only
    rw [hstuck]
    rfl
  have hshort : ¬(FragmentBuffer.withCaps 0 messageCap totalCap).messageCap < ([] : Bytes).length :=
    Nat.not_lt_zero _
  unfold FragmentBuffer.push
  rw [if_neg hshort,hopen]
  rfl

end Runs

/-- The ways to make a buffer. -/
inductive Origin where
  | new
  | withCap (cap : ℕ)
  | withCaps (cap messageCap totalCap : ℕ)
  | default

def Origin.build : Origin → FragmentBuffer
  | .new => .new
  | .withCap cap => .withCap cap
  | .withCaps cap messageCap totalCap => .withCaps cap messageCap totalCap
  | .default => .default

theorem Origin.build_eq (o : Origin) :
    o.build = FragmentBuffer.withCaps o.build.cap o.build.messageCap o.build.totalCap := by
  cases o <;> rfl

/-- The guarantees hold in every run exactly when there is a slot and a whole message fits. -/
theorem reassembly_guaranteed_iff (o : Origin) :
    (∀ b log, Reached o.build b log → Guaranteed b log) ↔
      1 ≤ o.build.cap ∧ o.build.messageCap ≤ o.build.totalCap := by
  rw [o.build_eq]
  generalize o.build.cap = cap, o.build.messageCap = messageCap, o.build.totalCap = totalCap
  constructor
  · intro h
    have hcap : 1 ≤ cap := by
      by_contra hzero
      obtain rfl : cap = 0 := by omega
      obtain ⟨fuel,r,hr⟩ := (h _ _ .start).ends (wordBlock 16 1) false []
      rw [push_stuck] at hr
      cases hr
    refine ⟨hcap,?_⟩
    by_contra hsmall
    have hdata : (List.replicate (totalCap+1) (0 : Byte)).length ≤ messageCap := by
      rw [List.length_replicate]
      exact Nat.succ_le_of_lt (not_le.mp hsmall)
    have hpush := @push_first (wordBlock 16 1) _ cap messageCap totalCap hcap hdata
    have hbytes := (h _ _ (Reached.start.push hpush)).bytes
    rw [List.length_replicate] at hbytes
    exact absurd hbytes (Nat.not_succ_le_self _)
  · rintro ⟨hcap,hcaps⟩ b log hr
    obtain ⟨hb,hsame⟩ := hr.bounded hcaps
    have hle := hsame.2.1.le.trans (hcaps.trans hsame.2.2.ge)
    exact
      { total := hb.sound.total
        slots := hb.slots
        ids := hb.sound.ids
        message := hb.sound.message
        bytes := hb.bytes
        ends := hb.ends (hcap.trans hsame.1.ge)
        returned := fun fuel id last data m b' hp => (hb.push hle hp).2 m rfl }

/-- A buffer without slots never finishes a push, and a message within its own bound can
exceed the total bound. -/
theorem small_capacities_break_pushes :
    (∀ fuel, push fuel (withCap 0) (wordBlock 16 1) false [] = none) ∧
      (∀ fuel, push fuel .default (wordBlock 16 1) false [] = none) ∧
      ∃ b, push 1 (withCaps 1 8 4) (wordBlock 16 1) false (List.replicate 5 0) = some (none,b) ∧
        b.totalCap < b.total :=
  ⟨fun fuel => push_stuck fuel _,fun fuel => push_stuck fuel _,_,
    push_first (by decide) (by decide),by decide⟩

end Gcoms.FragmentBuffers
