import Gcoms.ByteCodec
import Mathlib.Data.Finset.Card

/-!
# Peer exchange in the gossip overlay

A `View` is a bounded sample of peers. Absorbing a descriptor into a full view
evicts an entry chosen by the generator, which is a stream of draws here, so that
a statement about every stream is one about every outcome. In an exchange the
partner's own descriptor is not counted: it can be evicted and absorbed again many
times, and each time it takes the place of another entry. The bound on what one
exchange changes therefore counts identifiers: those of the new view are old ones,
the partner's or those counted, and the view never shrinks.
-/
namespace Gcoms.GossipView
open ByteCodec

abbrev NodeId := U64

structure PeerDescriptor where
  id : NodeId
  pseudonym : Block 32

/-- A view without duplicates, within its capacity and without our own identifier. -/
structure View where
  me : NodeId
  entries : List PeerDescriptor
  cap : ℕ
  draws : ℕ → ℕ
  distinct : (entries.map PeerDescriptor.id).Nodup
  fits : entries.length ≤ cap
  foreign : me ∉ entries.map PeerDescriptor.id

namespace View

def new (me : NodeId) (cap : ℕ) (draws : ℕ → ℕ) : View where
  me := me
  entries := []
  cap := cap
  draws := draws
  distinct := List.nodup_nil
  fits := Nat.zero_le cap
  foreign := List.not_mem_nil

def ids (v : View) : List NodeId := v.entries.map PeerDescriptor.id

/-- The entry chosen by the next draw; an empty view draws nothing. -/
def pickVictim (v : View) : Option NodeId :=
  (v.entries[v.draws 0%v.entries.length]?).map PeerDescriptor.id

/-- The entries without the first one of the identifier. -/
def removed (v : View) (victim : NodeId) : List PeerDescriptor :=
  v.entries.eraseP fun e => e.id = victim

theorem removed_sublist (v : View) (victim : NodeId) : (v.removed victim).Sublist v.entries :=
  List.eraseP_sublist

theorem nodup_push {v : View} {es : List PeerDescriptor} {d : PeerDescriptor}
    (hes : es.Sublist v.entries) (hd : d.id ∉ v.ids) :
    ((es++[d]).map PeerDescriptor.id).Nodup := by
  have hsub : (es.map PeerDescriptor.id).Sublist v.ids := hes.map _
  rw [List.map_append]
  refine List.nodup_append'.mpr ⟨v.distinct.sublist hsub,List.nodup_singleton _,?_⟩
  intro a ha hmem
  rw [List.mem_singleton.mp hmem] at ha
  exact hd (hsub.subset ha)

theorem foreign_push {v : View} {es : List PeerDescriptor} {d : PeerDescriptor}
    (hes : es.Sublist v.entries) (hd : d.id ≠ v.me) :
    v.me ∉ (es++[d]).map PeerDescriptor.id := by
  intro hmem
  rw [List.map_append] at hmem
  rcases List.mem_append.mp hmem with hmem | hmem
  · exact v.foreign ((hes.map _).subset hmem)
  · exact hd (List.mem_singleton.mp hmem).symm

theorem length_removed {v : View} {victim : NodeId} (h : victim ∈ v.ids) :
    (v.removed victim).length+1 = v.entries.length := by
  obtain ⟨e,he,rfl⟩ := List.mem_map.mp h
  have hlen : (v.removed e.id).length = v.entries.length-1 :=
    List.length_eraseP_of_mem he (by simp)
  have hpos := List.length_pos_of_mem he
  omega

/-- The answer says whether the descriptor entered the view. -/
def absorb (v : View) (d : PeerDescriptor) : Bool × View :=
  if hme : d.id = v.me then (false,v)
  else if hold : d.id ∈ v.ids then (false,v)
  else if hroom : v.entries.length < v.cap then
    (true,{v with
      entries := v.entries++[d]
      distinct := nodup_push (List.Sublist.refl _) hold
      fits := by simpa using hroom
      foreign := foreign_push (List.Sublist.refl _) hme})
  else
    let rest := {v with draws := fun n => v.draws (n+1)}
    match v.pickVictim with
    | none => (false,rest)
    | some victim =>
        if hvictim : victim ∈ v.ids then
          (true,{rest with
            entries := v.removed victim++[d]
            distinct := nodup_push (v.removed_sublist victim) hold
            fits := by
              have hlen := length_removed hvictim
              have hfits := v.fits
              rw [List.length_append,List.length_singleton,hlen]
              exact hfits
            foreign := foreign_push (v.removed_sublist victim) hme})
        else (false,rest)

/-- What absorbing a descriptor does to a view. -/
structure Absorbs (v : View) (d : PeerDescriptor) (taken : Bool) (w : View) : Prop where
  me : w.me = v.me
  cap : w.cap = v.cap
  keeps : taken = false → w.ids = v.ids
  ids : ∀ a ∈ w.ids, a = d.id ∨ a ∈ v.ids
  grows : v.ids.length ≤ w.ids.length

theorem Absorbs.refused {v w : View} {d : PeerDescriptor} (hme : w.me = v.me) (hcap : w.cap = v.cap)
    (hentries : w.entries = v.entries) : Absorbs v d false w := by
  have hids : w.ids = v.ids := congrArg (List.map PeerDescriptor.id) hentries
  exact ⟨hme,hcap,fun _ => hids,fun a ha => .inr (hids ▸ ha),hids.symm ▸ le_rfl⟩

theorem Absorbs.pushed {v w : View} {d : PeerDescriptor} {es : List PeerDescriptor}
    (hme : w.me = v.me) (hcap : w.cap = v.cap) (hentries : w.entries = es++[d])
    (hes : es.Sublist v.entries) (hlen : v.entries.length ≤ es.length+1) : Absorbs v d true w := by
  have hids : w.ids = es.map PeerDescriptor.id++[d.id] := by
    rw [View.ids,hentries,List.map_append]
    rfl
  refine ⟨hme,hcap,Bool.noConfusion,fun a ha => ?_,?_⟩
  · rw [hids] at ha
    rcases List.mem_append.mp ha with ha | ha
    · exact .inr ((hes.map _).subset ha)
    · exact .inl (List.mem_singleton.mp ha)
  · rw [hids]
    simpa [View.ids] using hlen

theorem absorb_absorbs (v : View) (d : PeerDescriptor) :
    Absorbs v d (v.absorb d).1 (v.absorb d).2 := by
  unfold absorb
  split_ifs with hme hold hroom
  · exact .refused rfl rfl rfl
  · exact .refused rfl rfl rfl
  · exact .pushed rfl rfl rfl (List.Sublist.refl _) (Nat.le_succ _)
  · dsimp only
    split
    · exact .refused rfl rfl rfl
    · next victim _ =>
      split_ifs with hvictim
      · exact .pushed rfl rfl rfl (v.removed_sublist victim) (length_removed hvictim).ge
      · exact .refused rfl rfl rfl

end View

/-! ## One exchange -/

def maxAbsorbPerSource : ℕ := 4

/-- The loop of `pex_absorb`, which counts the descriptors taken so far. -/
def pexLoop (sender : NodeId) : ℕ → View → List PeerDescriptor → View
  | _, v, [] => v
  | taken, v, d::ds =>
      if d.id = sender then pexLoop sender taken (v.absorb d).2 ds
      else if maxAbsorbPerSource ≤ taken then v
      else
        pexLoop sender (if (v.absorb d).1 then taken+1 else taken) (v.absorb d).2 ds

def pexAbsorb (v : View) (sender : NodeId) (descriptors : List PeerDescriptor) : View :=
  pexLoop sender 0 v descriptors

/-- The identifiers of the later view are old, the partner's, or among `n` others. -/
structure Exchanged (sender : NodeId) (n : ℕ) (v w : View) : Prop where
  me : w.me = v.me
  cap : w.cap = v.cap
  ids : ∃ T : Finset NodeId, T.card ≤ n ∧ w.ids.toFinset ⊆ v.ids.toFinset ∪ insert sender T
  grows : v.ids.length ≤ w.ids.length

section Exchange
variable {sender : NodeId} {v w x : View} {n m : ℕ}

theorem Exchanged.refl (sender : NodeId) (n : ℕ) (v : View) : Exchanged sender n v v :=
  ⟨rfl,rfl,⟨∅,Nat.zero_le n,Finset.subset_union_left⟩,le_rfl⟩

theorem Exchanged.mono (h : Exchanged sender n v w) (hnm : n ≤ m) : Exchanged sender m v w := by
  obtain ⟨T,hT,hsub⟩ := h.ids
  exact ⟨h.me,h.cap,⟨T,hT.trans hnm,hsub⟩,h.grows⟩

theorem Exchanged.trans (h : Exchanged sender n v w) (h' : Exchanged sender m w x) :
    Exchanged sender (n+m) v x := by
  obtain ⟨T,hT,hsub⟩ := h.ids
  obtain ⟨T',hT',hsub'⟩ := h'.ids
  refine ⟨h'.me.trans h.me,h'.cap.trans h.cap,⟨T ∪ T',?_,fun a ha => ?_⟩,h.grows.trans h'.grows⟩
  · exact (Finset.card_union_le T T').trans (Nat.add_le_add hT hT')
  · have hmem := hsub' ha
    simp only [Finset.mem_union,Finset.mem_insert] at hmem ⊢
    rcases hmem with hw | hs | ht
    · have hold := hsub hw
      simp only [Finset.mem_union,Finset.mem_insert] at hold
      tauto
    · exact .inr (.inl hs)
    · exact .inr (.inr (.inr ht))

/-- The partner's own descriptor is not counted. -/
theorem exchanged_sender {d : PeerDescriptor} (h : d.id = sender) :
    Exchanged sender 0 v (v.absorb d).2 := by
  have ha := v.absorb_absorbs d
  refine ⟨ha.me,ha.cap,⟨∅,le_rfl,fun a hmem => ?_⟩,ha.grows⟩
  rw [List.mem_toFinset] at hmem
  rcases ha.ids a hmem with rfl | hold
  · simp [h]
  · simp [hold]

theorem exchanged_absorb (d : PeerDescriptor) :
    Exchanged sender (if (v.absorb d).1 then 1 else 0) v (v.absorb d).2 := by
  have ha := v.absorb_absorbs d
  cases htaken : (v.absorb d).1 with
  | false =>
      refine ⟨ha.me,ha.cap,⟨∅,le_rfl,?_⟩,ha.grows⟩
      rw [ha.keeps htaken]
      exact Finset.subset_union_left
  | true =>
      refine ⟨ha.me,ha.cap,⟨{d.id},by simp,fun a hmem => ?_⟩,ha.grows⟩
      rw [List.mem_toFinset] at hmem
      rcases ha.ids a hmem with rfl | hold
      · simp
      · simp [hold]

theorem pexLoop_exchanged (ds : List PeerDescriptor) {taken : ℕ} (h : taken ≤ maxAbsorbPerSource) :
    Exchanged sender (maxAbsorbPerSource-taken) v (pexLoop sender taken v ds) := by
  induction ds generalizing v taken with
  | nil => exact Exchanged.refl ..
  | cons d ds ih =>
      unfold pexLoop
      split_ifs with hsender hfull htaken
      · have hstep := (exchanged_sender (v := v) hsender).trans (ih h)
        exact hstep.mono (Nat.zero_add _).le
      · exact Exchanged.refl ..
      · have hstep : Exchanged sender 1 v (v.absorb d).2 := by
          simpa [htaken] using @exchanged_absorb sender v d
        exact (hstep.trans (ih (by omega))).mono (by omega)
      · have hstep : Exchanged sender 0 v (v.absorb d).2 := by
          simpa [htaken] using @exchanged_absorb sender v d
        exact (hstep.trans (ih h)).mono (Nat.zero_add _).le

theorem Exchanged.new_le (h : Exchanged sender n v w) :
    (w.ids.toFinset \ v.ids.toFinset).card ≤ n+1 := by
  obtain ⟨T,hT,hsub⟩ := h.ids
  have hnew : w.ids.toFinset \ v.ids.toFinset ⊆ insert sender T := fun a ha => by
    rw [Finset.mem_sdiff] at ha
    exact (Finset.mem_union.mp (hsub ha.1)).resolve_left ha.2
  calc (w.ids.toFinset \ v.ids.toFinset).card ≤ (insert sender T).card := Finset.card_le_card hnew
    _ ≤ T.card+1 := Finset.card_insert_le _ _
    _ ≤ n+1 := Nat.add_le_add_right hT 1

/-- Since the view never shrinks, no more identifiers leave than enter. -/
theorem Exchanged.gone_le (h : Exchanged sender n v w) :
    (v.ids.toFinset \ w.ids.toFinset).card ≤ n+1 := by
  have hcard : v.ids.toFinset.card ≤ w.ids.toFinset.card := by
    have hv : v.ids.Nodup := v.distinct
    have hw : w.ids.Nodup := w.distinct
    rw [List.toFinset_card_of_nodup hv,List.toFinset_card_of_nodup hw]
    exact h.grows
  exact (Finset.card_sdiff_le_card_sdiff_iff.mpr hcard).trans h.new_le

end Exchange

theorem pexAbsorb_bounded (v : View) (sender : NodeId) (descriptors : List PeerDescriptor) :
    let w := pexAbsorb v sender descriptors
    (w.ids.toFinset \ v.ids.toFinset).card ≤ maxAbsorbPerSource+1 ∧
      (v.ids.toFinset \ w.ids.toFinset).card ≤ maxAbsorbPerSource+1 ∧
      w.entries.length ≤ v.cap ∧ w.ids.Nodup ∧ v.me ∉ w.ids := by
  intro w
  have h : Exchanged sender maxAbsorbPerSource v w := pexLoop_exchanged descriptors (Nat.zero_le _)
  refine ⟨h.new_le,h.gone_le,?_,w.distinct,?_⟩
  · rw [← h.cap]
    exact w.fits
  · rw [← h.me]
    exact w.foreign

end Gcoms.GossipView
