import Gcoms.ByteCodec
import Gcoms.SortedMaps

/-!
# Duplicate suppression in the gossip overlay

`Dedup` keeps a stamp for every identifier it knows and a queue of sightings. A
sighting in the queue is live while its stamp is the recorded one; eviction takes
the first live sighting, so it takes the least recent one as long as the queue is
ordered by stamps. Compaction moves a live sighting from the front to the back,
which breaks that order. In runs where compaction meets stale sightings only, the
answers are those of an ideal set with least recently used eviction.
-/
namespace Gcoms.GossipDedup
open ByteCodec SortedMaps

abbrev MsgId := Block 16

/-- A sighting: an identifier with its stamp. -/
abbrev Sighting := MsgId × ℕ

structure Dedup where
  seen : SortedMap MsgId ℕ
  order : List Sighting
  clock : ℕ
  cap : ℕ

namespace Dedup

def new (cap : ℕ) : Dedup := ⟨SortedMap.empty,[],0,max cap 1⟩

/-- The loop of `evict`: sightings are dropped until the map is within capacity. -/
def evictLoop (cap : ℕ) : SortedMap MsgId ℕ → List Sighting → SortedMap MsgId ℕ × List Sighting
  | seen, [] => (seen,[])
  | seen, e::rest =>
      if cap < seen.size then
        evictLoop cap (if seen.find? e.1 = some e.2 then seen.erase e.1 else seen) rest
      else (seen,e::rest)

/-- The loop of `compact`: a live sighting is appended again, which ends the loop. -/
def compactLoop (cap : ℕ) (seen : SortedMap MsgId ℕ) : List Sighting → List Sighting
  | [] => []
  | e::rest =>
      if cap*2 < rest.length+1 then
        if seen.find? e.1 = some e.2 then rest++[e] else compactLoop cap seen rest
      else e::rest

def evict (d : Dedup) : Dedup :=
  {d with seen := (evictLoop d.cap d.seen d.order).1, order := (evictLoop d.cap d.seen d.order).2}

def compact (d : Dedup) : Dedup := {d with order := compactLoop d.cap d.seen d.order}

/-- The sighting is recorded under the next value of the clock, which wraps. -/
def record (d : Dedup) (id : MsgId) : Dedup :=
  let now := (d.clock+1)%2^64
  {d with seen := d.seen.insert id now, order := d.order++[(id,now)], clock := now}

def checkAndInsert (d : Dedup) (id : MsgId) : Bool × Dedup :=
  match d.seen.find? id with
  | some _ => (false,(d.record id).compact)
  | none => (true,(d.record id).evict)

def forget (d : Dedup) (id : MsgId) : Dedup :=
  {d with seen := d.seen.erase id, order := d.order.filter fun e => e.1 ≠ id}

end Dedup

/-! ## The ideal set -/

/-- The identifiers of an ideal set, the least recently sighted one first. -/
abbrev Recency := List MsgId

def Recency.checkAndInsert (cap : ℕ) (ids : Recency) (id : MsgId) : Bool × Recency :=
  if id ∈ ids then (false,ids.filter (· ≠ id)++[id])
  else if cap < ids.length+1 then (true,(ids++[id]).tail)
  else (true,ids++[id])

def Recency.forget (ids : Recency) (id : MsgId) : Recency := ids.filter (· ≠ id)

inductive Op where
  | checkAndInsert (id : MsgId)
  | forget (id : MsgId)

/-- One operation, with its answer. -/
def Dedup.apply (d : Dedup) : Op → Option Bool × Dedup
  | .checkAndInsert id => (some (d.checkAndInsert id).1,(d.checkAndInsert id).2)
  | .forget id => (none,d.forget id)

def Recency.apply (cap : ℕ) (ids : Recency) : Op → Option Bool × Recency
  | .checkAndInsert id =>
      (some (Recency.checkAndInsert cap ids id).1,(Recency.checkAndInsert cap ids id).2)
  | .forget id => (none,Recency.forget ids id)

/-! ## Live sightings -/

section Live
variable {seen : SortedMap MsgId ℕ} {order : List Sighting} {d : Dedup} {id : MsgId} {cap : ℕ}

def Live (seen : SortedMap MsgId ℕ) (e : Sighting) : Prop := seen.find? e.1 = some e.2

instance (seen : SortedMap MsgId ℕ) (e : Sighting) : Decidable (Live seen e) :=
  inferInstanceAs (Decidable (_ = _))

def live (seen : SortedMap MsgId ℕ) (order : List Sighting) : List Sighting :=
  order.filter fun e => Live seen e

/-- The queue is ordered by stamps, and every identifier has its live sighting. -/
structure Ordered (seen : SortedMap MsgId ℕ) (order : List Sighting) (clock : ℕ) : Prop where
  sorted : order.Pairwise fun a b => a.2 < b.2
  bounded : ∀ e ∈ order, e.2 ≤ clock
  present : ∀ {id stamp}, seen.find? id = some stamp → (id,stamp) ∈ order

theorem live_cons (e : Sighting) (rest : List Sighting) :
    live seen (e::rest) = if Live seen e then e::live seen rest else live seen rest := by
  by_cases he : Live seen e
  · rw [if_pos he,live,List.filter_cons_of_pos (by simpa using he)]
    rfl
  · rw [if_neg he,live,List.filter_cons_of_neg (by simpa using he)]
    rfl

theorem live_append (a b : List Sighting) : live seen (a++b) = live seen a++live seen b :=
  List.filter_append ..

theorem mem_live {e : Sighting} : e ∈ live seen order ↔ e ∈ order ∧ Live seen e := by
  simp [live]

/-- Live sightings have different identifiers. -/
theorem live_nodup (h : order.Pairwise fun a b => a.2 < b.2) :
    ((live seen order).map Prod.fst).Nodup := by
  refine List.pairwise_map.mpr ?_
  refine (h.sublist List.filter_sublist).imp_of_mem (fun {a b} ha hb hlt heq => ?_)
  have hla := (mem_live.mp ha).2
  have hlb := (mem_live.mp hb).2
  unfold Live at hla hlb
  rw [heq,hlb] at hla
  exact absurd (Option.some.inj hla) hlt.ne'

/-- The live sightings are the entries of the map. -/
theorem live_perm {clock : ℕ} (h : Ordered seen order clock) :
    (live seen order).Perm seen.entries := by
  refine (List.perm_ext_iff_of_nodup ?_ ?_).mpr (fun e => ?_)
  · exact List.Nodup.of_map _ (live_nodup h.sorted)
  · exact List.Nodup.of_map Prod.fst ((SortedMap.keys_sorted seen).imp fun hlt => hlt.ne)
  · rw [mem_live,SortedMap.mem_iff_find? (k := e.1) (v := e.2)]
    exact ⟨fun he => he.2,fun he => ⟨h.present he,he⟩⟩

theorem live_length {clock : ℕ} (h : Ordered seen order clock) :
    (live seen order).length = seen.size := (live_perm h).length_eq

/-- Without dead sightings in front, the live ones stay in place. -/
theorem live_drop {n : ℕ} (h : ∀ e ∈ order.take n, ¬Live seen e) :
    live seen (order.drop n) = live seen order := by
  have htaken : live seen (order.take n) = [] :=
    List.filter_eq_nil_iff.mpr (fun e he => by simpa using h e he)
  conv_rhs => rw [← List.take_append_drop n order]
  rw [live_append,htaken,List.nil_append]

theorem Ordered.drop {clock n : ℕ} (h : Ordered seen order clock)
    (hdead : ∀ e ∈ order.take n, ¬Live seen e) : Ordered seen (order.drop n) clock where
  sorted := h.sorted.sublist (List.drop_sublist n order)
  bounded e he := h.bounded e (List.mem_of_mem_drop he)
  present {id stamp} hs := by
    have hmem : (id,stamp) ∈ live seen (order.drop n) := by
      rw [live_drop hdead]
      exact mem_live.mpr ⟨h.present hs,hs⟩
    exact (mem_live.mp hmem).1

/-! ## Recording a sighting -/

theorem record_eq (h : d.clock+1 < 2^64) (id : MsgId) :
    d.record id = {d with
      seen := d.seen.insert id (d.clock+1)
      order := d.order++[(id,d.clock+1)]
      clock := d.clock+1} := by
  unfold Dedup.record
  rw [Nat.mod_eq_of_lt h]

theorem live_insert {clock : ℕ} (h : Ordered seen order clock) (id : MsgId) :
    live (seen.insert id (clock+1)) order = (live seen order).filter fun e => e.1 ≠ id := by
  unfold live
  rw [List.filter_filter]
  refine List.filter_congr (fun e he => ?_)
  by_cases hid : e.1 = id
  · have hstale : ¬Live (seen.insert id (clock+1)) e := by
      unfold Live
      rw [hid,SortedMap.find?_insert_self]
      intro heq
      have := h.bounded e he
      have := Option.some.inj heq
      omega
    simp [hid,hstale]
  · have hsame : Live (seen.insert id (clock+1)) e ↔ Live seen e := by
      unfold Live
      rw [SortedMap.find?_insert_of_ne _ _ hid]
    simp [hsame,hid]

theorem Ordered.record {clock : ℕ} (h : Ordered seen order clock) (id : MsgId) :
    Ordered (seen.insert id (clock+1)) (order++[(id,clock+1)]) (clock+1) where
  sorted := by
    refine List.pairwise_append.mpr ⟨h.sorted,List.pairwise_singleton _ _,fun a ha b hb => ?_⟩
    rw [List.mem_singleton.mp hb]
    exact Nat.lt_succ_of_le (h.bounded a ha)
  bounded e he := by
    rcases List.mem_append.mp he with he | he
    · exact (h.bounded e he).trans (Nat.le_succ _)
    · rw [List.mem_singleton.mp he]
  present {a stamp} hs := by
    by_cases ha : a = id
    · rw [ha,SortedMap.find?_insert_self] at hs
      rw [ha,← Option.some.inj hs]
      exact List.mem_append_right _ (List.mem_singleton_self _)
    · rw [SortedMap.find?_insert_of_ne _ _ ha] at hs
      exact List.mem_append_left _ (h.present hs)

theorem live_record {clock : ℕ} (h : Ordered seen order clock) (id : MsgId) :
    live (seen.insert id (clock+1)) (order++[(id,clock+1)]) =
      (live seen order).filter (fun e => e.1 ≠ id)++[(id,clock+1)] := by
  rw [live_append,live_insert h]
  congr 1
  have hself : Live (seen.insert id (clock+1)) (id,clock+1) := SortedMap.find?_insert_self _ _ _
  rw [live_cons,if_pos hself]
  rfl

/-! ## Compaction and eviction -/

theorem compactLoop_eq (h : ∀ e ∈ order.take (order.length-cap*2), ¬Live seen e) :
    Dedup.compactLoop cap seen order = order.drop (order.length-cap*2) := by
  induction order with
  | nil => simp [Dedup.compactLoop]
  | cons e rest ih =>
      unfold Dedup.compactLoop
      by_cases hlen : cap*2 < rest.length+1
      · have hsucc : (e::rest).length-cap*2 = (rest.length-cap*2)+1 := by
          rw [List.length_cons]
          omega
        rw [hsucc] at h ⊢
        have hdead : seen.find? e.1 ≠ some e.2 := h e (by simp)
        rw [if_pos hlen,if_neg hdead,List.drop_succ_cons]
        exact ih (fun a ha => h a (by simp [ha]))
      · have hzero : (e::rest).length-cap*2 = 0 := by
          rw [List.length_cons]
          omega
        rw [if_neg hlen,hzero,List.drop_zero]

theorem evictLoop_within (h : seen.size ≤ cap) : Dedup.evictLoop cap seen order = (seen,order) := by
  cases order with
  | nil => rfl
  | cons e rest =>
      unfold Dedup.evictLoop
      rw [if_neg (not_lt.mpr h)]

/-- Eviction removes the first live sighting with everything before it. -/
theorem evictLoop_live {e : Sighting} {es : List Sighting} (hover : cap < seen.size)
    (hfits : (seen.erase e.1).size ≤ cap) (h : live seen order = e::es) :
    ∃ n, n ≠ 0 ∧ n ≤ order.length ∧ live seen (order.drop n) = es ∧
      Dedup.evictLoop cap seen order = (seen.erase e.1,order.drop n) := by
  induction order with
  | nil => cases h
  | cons a rest ih =>
      unfold Dedup.evictLoop
      rw [if_pos hover]
      rw [live_cons] at h
      by_cases ha : Live seen a
      · rw [if_pos ha] at h
        obtain ⟨rfl,hes⟩ := List.cons.inj h
        refine ⟨1,Nat.one_ne_zero,by simp,by simpa using hes,?_⟩
        rw [if_pos (show seen.find? a.1 = some a.2 from ha),evictLoop_within hfits]
        simp
      · rw [if_neg ha] at h
        rw [if_neg (show ¬seen.find? a.1 = some a.2 from ha)]
        obtain ⟨n,hn,hle,hlive,heq⟩ := ih h
        exact ⟨n+1,Nat.succ_ne_zero n,by simpa using hle,by simpa using hlive,by simpa using heq⟩

theorem live_erase {es : List Sighting} (hes : live seen order = es)
    (hne : ∀ e ∈ es, e.1 ≠ id) : live (seen.erase id) order = es := by
  subst hes
  unfold live
  refine List.filter_congr (fun e he => ?_)
  by_cases hid : e.1 = id
  · have hdead : ¬Live seen e := fun hlive => hne e (mem_live.mpr ⟨he,hlive⟩) hid
    have hgone : ¬Live (seen.erase id) e := by
      unfold Live
      rw [hid,SortedMap.find?_erase_self]
      exact fun heq => by cases heq
    simp [hdead,hgone]
  · have hsame : Live (seen.erase id) e ↔ Live seen e := by
      unfold Live
      rw [SortedMap.find?_erase_of_ne _ hid]
    simp [hsame]

end Live

/-! ## Simulation -/

/-- The queue shows the identifiers of the ideal set in their order. -/
structure Sim (d : Dedup) (ids : Recency) : Prop where
  ordered : Ordered d.seen d.order d.clock
  ids : ids = (live d.seen d.order).map Prod.fst
  cap : 1 ≤ d.cap
  size : d.seen.size ≤ d.cap
  queue : d.order.length ≤ d.cap*2+d.seen.size

/-- The clock does not wrap, and a repeated sighting compacts stale sightings only. -/
def Steady (d : Dedup) : Op → Prop
  | .checkAndInsert id => d.clock+1 < 2^64 ∧ (d.seen.contains id = true →
      ∀ e ∈ d.order.take (d.order.length+1-d.cap*2), e.1 = id ∨ ¬Live d.seen e)
  | .forget _ => True

section Simulation
variable {d : Dedup} {ids : Recency} {id : MsgId}

theorem Sim.mem (h : Sim d ids) : id ∈ ids ↔ (d.seen.find? id).isSome = true := by
  rw [h.ids,List.mem_map]
  constructor
  · rintro ⟨e,he,rfl⟩
    rw [(mem_live.mp he).2]
    rfl
  · intro hs
    obtain ⟨stamp,hstamp⟩ := Option.isSome_iff_exists.mp hs
    exact ⟨(id,stamp),mem_live.mpr ⟨h.ordered.present hstamp,hstamp⟩,rfl⟩

theorem Sim.length (h : Sim d ids) : ids.length = d.seen.size := by
  rw [h.ids,List.length_map,live_length h.ordered]

theorem map_filter_ne (es : List Sighting) (id : MsgId) :
    (es.filter fun e => e.1 ≠ id).map Prod.fst = (es.map Prod.fst).filter (· ≠ id) := by
  rw [List.filter_map]
  rfl

theorem Sim.filter_self (h : Sim d ids) (hid : d.seen.find? id = none) :
    ids.filter (· ≠ id) = ids := by
  refine List.filter_eq_self.mpr (fun a ha => ?_)
  have hne : a ≠ id := by
    rintro rfl
    have := h.mem.mp ha
    rw [hid] at this
    cases this
  simpa using hne

/-- A repeated sighting moves the identifier to the end. -/
theorem Sim.repeated {stamp : ℕ} (h : Sim d ids) (hid : d.seen.find? id = some stamp)
    (hclock : d.clock+1 < 2^64)
    (hdead : ∀ e ∈ d.order.take (d.order.length+1-d.cap*2), e.1 = id ∨ ¬Live d.seen e) :
    Sim (d.record id).compact (ids.filter (· ≠ id)++[id]) := by
  have hcap := h.cap
  have hsize := h.size
  have hlen : (d.order++[(id,d.clock+1)]).length = d.order.length+1 := by simp
  have hsame : (d.seen.insert id (d.clock+1)).size = d.seen.size :=
    SortedMap.size_insert_of_find? hid _
  have hfront : ∀ e ∈ (d.order++[(id,d.clock+1)]).take (d.order.length+1-d.cap*2),
      ¬Live (d.seen.insert id (d.clock+1)) e := by
    intro e he hlive
    rw [List.take_append_of_le_length (by omega)] at he
    have hmem := mem_live.mpr ⟨List.mem_of_mem_take he,hlive⟩
    rw [live_insert h.ordered,List.mem_filter] at hmem
    rcases hdead e he with heq | hnot
    · simp [heq] at hmem
    · exact hnot (mem_live.mp hmem.1).2
  have hcompact : (d.record id).compact.order =
      (d.order++[(id,d.clock+1)]).drop (d.order.length+1-d.cap*2) := by
    rw [record_eq hclock]
    rw [← hlen] at hfront ⊢
    exact compactLoop_eq hfront
  have hord := (h.ordered.record id).drop hfront
  refine ⟨?_,?_,?_,?_,?_⟩
  · rw [hcompact]
    simpa [record_eq hclock,Dedup.compact] using hord
  · rw [hcompact]
    have hseen : (d.record id).compact.seen = d.seen.insert id (d.clock+1) := by
      simp [record_eq hclock,Dedup.compact]
    rw [hseen,live_drop hfront,live_record h.ordered,List.map_append,map_filter_ne,← h.ids]
    rfl
  · exact hcap
  · simpa [record_eq hclock,Dedup.compact,hsame] using hsize
  · rw [hcompact,List.length_drop,hlen]
    change _ ≤ d.cap*2+_
    omega

/-- A first sighting is appended; above capacity the least recent identifier goes. -/
theorem Sim.first (h : Sim d ids) (hid : d.seen.find? id = none) (hclock : d.clock+1 < 2^64) :
    Sim (d.record id).evict
      (if d.cap < ids.length+1 then (ids++[id]).tail else ids++[id]) := by
  have hcap := h.cap
  have hsize := h.size
  have hqueue := h.queue
  have hgrow : (d.seen.insert id (d.clock+1)).size = d.seen.size+1 := by
    have hperm := (d.seen.insert_perm id (d.clock+1)).length_eq
    rw [SortedMap.erase_of_find?_none hid] at hperm
    exact hperm
  have hord := h.ordered.record id
  have hids : (live (d.seen.insert id (d.clock+1)) (d.order++[(id,d.clock+1)])).map Prod.fst =
      ids++[id] := by
    rw [live_record h.ordered,List.map_append,map_filter_ne,← h.ids,h.filter_self hid]
    rfl
  rw [record_eq hclock,h.length]
  unfold Dedup.evict
  dsimp only
  by_cases hover : d.cap < d.seen.size+1
  · rw [if_pos hover]
    obtain ⟨e,es,hlive⟩ : ∃ e es, live (d.seen.insert id (d.clock+1))
        (d.order++[(id,d.clock+1)]) = e::es := by
      rcases hl : live (d.seen.insert id (d.clock+1)) (d.order++[(id,d.clock+1)]) with _ | ⟨e,es⟩
      · rw [hl] at hids
        simp at hids
      · exact ⟨e,es,rfl⟩
    have hfind : (d.seen.insert id (d.clock+1)).find? e.1 = some e.2 :=
      (mem_live.mp (hlive ▸ List.mem_cons_self)).2
    have herase := SortedMap.size_of_find? hfind
    obtain ⟨n,hn,hle,hrest,heq⟩ := @evictLoop_live _ _ d.cap _ _ (by omega) (by omega) hlive
    have hother : ∀ a ∈ es, a.1 ≠ e.1 := by
      have hnd := @live_nodup (d.seen.insert id (d.clock+1)) _ hord.sorted
      rw [hlive,List.map_cons,List.nodup_cons] at hnd
      exact fun a ha heq => hnd.1 (heq ▸ List.mem_map_of_mem ha)
    rw [heq]
    have hleft := live_erase hrest hother
    refine ⟨?_,?_,hcap,?_,?_⟩
    · refine ⟨hord.sorted.sublist (List.drop_sublist _ _),
        fun a ha => hord.bounded a (List.mem_of_mem_drop ha),fun {a stamp} hs => ?_⟩
      have hne : a ≠ e.1 := by
        rintro rfl
        rw [SortedMap.find?_erase_self] at hs
        cases hs
      have hs' := SortedMap.find?_of_erase hs
      have hmem := mem_live.mpr ⟨hord.present hs',hs'⟩
      rw [hlive] at hmem
      rcases List.mem_cons.mp hmem with heq | hmem
      · exact absurd (congrArg Prod.fst heq) hne
      · rw [← hrest] at hmem
        exact (mem_live.mp hmem).1
    · rw [hleft,← hids,hlive]
      rfl
    · change _ ≤ d.cap
      dsimp only
      omega
    · rw [List.length_drop]
      simp only [List.length_append,List.length_singleton] at hle ⊢
      omega
  · rw [if_neg hover,evictLoop_within (by omega)]
    refine ⟨hord,hids.symm,hcap,?_,?_⟩
    · change (d.seen.insert id (d.clock+1)).size ≤ d.cap
      omega
    · simp only [List.length_append,List.length_singleton]
      omega

theorem Sim.forget (h : Sim d ids) (id : MsgId) : Sim (d.forget id) (ids.filter (· ≠ id)) := by
  have hlive : live (d.seen.erase id) (d.order.filter fun e => e.1 ≠ id) =
      (live d.seen d.order).filter fun e => e.1 ≠ id := by
    unfold live
    rw [List.filter_filter,List.filter_filter]
    refine List.filter_congr (fun e _ => ?_)
    by_cases hid : e.1 = id
    · simp [hid]
    · have hsame : Live (d.seen.erase id) e ↔ Live d.seen e := by
        unfold Live
        rw [SortedMap.find?_erase_of_ne _ hid]
      simp [hsame,hid]
  have hqueue := h.queue
  have hsize := h.size
  refine ⟨⟨h.ordered.sorted.sublist List.filter_sublist,
    fun e he => h.ordered.bounded e (List.mem_of_mem_filter he),fun {a stamp} hs => ?_⟩,?_,h.cap,?_,?_⟩
  · have hne : a ≠ id := by
      rintro rfl
      rw [Dedup.forget,SortedMap.find?_erase_self] at hs
      cases hs
    have hs' := SortedMap.find?_of_erase hs
    exact List.mem_filter.mpr ⟨h.ordered.present hs',by simpa using hne⟩
  · rw [h.ids,← map_filter_ne]
    exact congrArg _ hlive.symm
  · exact (SortedMap.size_retain_le _ _).trans hsize
  · unfold Dedup.forget
    dsimp only
    have hle := List.length_filter_le (fun e : Sighting => decide (e.1 ≠ id)) d.order
    rcases hfind : d.seen.find? id with _ | stamp
    · rw [SortedMap.erase_of_find?_none hfind]
      omega
    · have hlt : (d.order.filter fun e => e.1 ≠ id).length < d.order.length :=
        List.length_filter_lt_length_iff_exists.mpr ⟨_,h.ordered.present hfind,by simp⟩
      have := SortedMap.size_of_find? hfind
      omega

end Simulation

/-! ## Runs -/

def Dedup.run (d : Dedup) : List Op → List (Option Bool) × Dedup
  | [] => ([],d)
  | op::ops =>
      ((d.apply op).1::((d.apply op).2.run ops).1,((d.apply op).2.run ops).2)

def Recency.run (cap : ℕ) (ids : Recency) : List Op → List (Option Bool) × Recency
  | [] => ([],ids)
  | op::ops =>
      ((Recency.apply cap ids op).1::(Recency.run cap (Recency.apply cap ids op).2 ops).1,
        (Recency.run cap (Recency.apply cap ids op).2 ops).2)

/-- Every step of the run is steady. -/
def Steadily (d : Dedup) : List Op → Prop
  | [] => True
  | op::ops => Steady d op ∧ Steadily (d.apply op).2 ops

section Runs
variable {d : Dedup} {ids : Recency}

theorem checkAndInsert_known {id : MsgId} {stamp : ℕ} (h : d.seen.find? id = some stamp) :
    d.checkAndInsert id = (false,(d.record id).compact) := by
  rw [Dedup.checkAndInsert,h]

theorem checkAndInsert_new {id : MsgId} (h : d.seen.find? id = none) :
    d.checkAndInsert id = (true,(d.record id).evict) := by
  rw [Dedup.checkAndInsert,h]

theorem cap_apply (d : Dedup) (op : Op) : (d.apply op).2.cap = d.cap := by
  cases op with
  | checkAndInsert id =>
      change (d.checkAndInsert id).2.cap = d.cap
      rcases hfind : d.seen.find? id with _ | stamp
      · rw [checkAndInsert_new hfind]
        rfl
      · rw [checkAndInsert_known hfind]
        rfl
  | forget id => rfl

theorem Sim.apply {op : Op} (h : Sim d ids) (hop : Steady d op) :
    (d.apply op).1 = (Recency.apply d.cap ids op).1 ∧
      Sim (d.apply op).2 (Recency.apply d.cap ids op).2 := by
  cases op with
  | forget id => exact ⟨rfl,h.forget id⟩
  | checkAndInsert id =>
      simp only [Dedup.apply,Recency.apply,Recency.checkAndInsert]
      rcases hfind : d.seen.find? id with _ | stamp
      · have hnew : id ∉ ids := fun hmem => by
          rw [h.mem,hfind] at hmem
          cases hmem
        have hfirst := h.first hfind hop.1
        rw [if_neg hnew,checkAndInsert_new hfind]
        split_ifs at hfirst ⊢ with hover
        · exact ⟨rfl,hfirst⟩
        · exact ⟨rfl,hfirst⟩
      · have hold : id ∈ ids := by
          rw [h.mem,hfind]
          rfl
        have hdead := hop.2 (by simp [SortedMap.contains,hfind])
        rw [if_pos hold,checkAndInsert_known hfind]
        exact ⟨rfl,h.repeated hfind hop.1 hdead⟩

theorem Sim.run {ops : List Op} (h : Sim d ids) (hops : Steadily d ops) :
    (d.run ops).1 = (Recency.run d.cap ids ops).1 ∧
      Sim (d.run ops).2 (Recency.run d.cap ids ops).2 := by
  induction ops generalizing d ids with
  | nil => exact ⟨rfl,h⟩
  | cons op ops ih =>
      obtain ⟨hanswer,hnext⟩ := h.apply hops.1
      obtain ⟨hanswers,hlast⟩ := ih hnext hops.2
      rw [cap_apply] at hanswers hlast
      exact ⟨congrArg₂ _ hanswer hanswers,hlast⟩

theorem Sim.new (cap : ℕ) : Sim (Dedup.new cap) [] where
  ordered := ⟨List.Pairwise.nil,fun e he => (List.not_mem_nil he).elim,fun hs => by cases hs⟩
  ids := rfl
  cap := le_max_right _ _
  size := Nat.zero_le _
  queue := Nat.zero_le _

/-- In a steady run the answers and the contents are those of the ideal set. -/
theorem dedup_is_lru {cap : ℕ} (hcap : 1 ≤ cap) {ops : List Op}
    (h : Steadily (Dedup.new cap) ops) :
    ((Dedup.new cap).run ops).1 = (Recency.run cap [] ops).1 ∧
      (∀ id, (((Dedup.new cap).run ops).2.seen.find? id).isSome = true ↔
        id ∈ (Recency.run cap [] ops).2) ∧
      ((Dedup.new cap).run ops).2.order.length ≤ 3*cap+1 := by
  obtain ⟨hanswers,hsim⟩ := (Sim.new cap).run h
  have hcapacity : (Dedup.new cap).cap = cap := max_eq_left hcap
  rw [hcapacity] at hanswers hsim
  refine ⟨hanswers,fun id => hsim.mem.symm,?_⟩
  have hqueue := hsim.queue
  have hsize := hsim.size
  have hkeep : ∀ (d : Dedup) (ops : List Op), (d.run ops).2.cap = d.cap := by
    intro d ops
    induction ops generalizing d with
    | nil => rfl
    | cons op ops ih => exact (ih _).trans (cap_apply d op)
  rw [hkeep,hcapacity] at hqueue hsize
  omega

end Runs

instance (d : Dedup) : (op : Op) → Decidable (Steady d op)
  | .checkAndInsert _ => inferInstanceAs (Decidable (_ ∧ _))
  | .forget _ => inferInstanceAs (Decidable True)

instance Steadily.decide : (d : Dedup) → (ops : List Op) → Decidable (Steadily d ops)
  | _, [] => inferInstanceAs (Decidable True)
  | d, op::ops =>
      have := Steadily.decide (d.apply op).2 ops
      inferInstanceAs (Decidable (_ ∧ _))

def sampleId (v : ℕ) : MsgId := wordBlock 16 v

def sampleOps : List Op :=
  [.checkAndInsert (sampleId 1),.checkAndInsert (sampleId 2),.checkAndInsert (sampleId 1),
    .checkAndInsert (sampleId 3),.forget (sampleId 3),.checkAndInsert (sampleId 1)]

theorem dedup_is_lru_sample :
    ((Dedup.new 2).run sampleOps).1 = (Recency.run 2 [] sampleOps).1 ∧
      (Recency.run 2 [] sampleOps).2 = [sampleId 1] ∧
      ((Dedup.new 2).run sampleOps).2.order.length ≤ 7 := by
  have h := @dedup_is_lru 2 (by decide) sampleOps (by decide +kernel)
  exact ⟨h.1,by decide +kernel,h.2.2⟩

/-- Four sightings of the second identifier move the first one's to the back, so the third
identifier evicts the second. -/
theorem compaction_reverses_recency :
    let ops := [1,2,2,2,2,3,2].map fun v => Op.checkAndInsert (sampleId v)
    ((Dedup.new 2).run ops).1 ≠ (Recency.run 2 [] ops).1 ∧
      ((Dedup.new 2).run ops).1.getLast? = some (some true) ∧
      (Recency.run 2 [] ops).1.getLast? = some (some false) := by
  decide +kernel

end Gcoms.GossipDedup
