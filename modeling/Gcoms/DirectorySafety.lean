import Gcoms.DirectoryStorage

/-!
# Safety of the relay directory

Guards stay independent of each other and of the node's own services, whatever
is remembered, selected or declared, and guards are never evicted. The loop of
`remember` is described by what it does with one relay: keep the stored one,
renew it, append the new one, or append it in the place of a relay that is not a
guard.
-/
namespace Gcoms.DirectorySafety
open ByteCodec Commands Fallible RelayDirectory DirectoryStorage
open RelayCodec (IpAddr)

/-! ## Independent guards -/

theorem conflicts_false {r : Introduction} {addr : SocketAddr} {pin : Block 32} :
    r.conflicts addr pin = false ↔ r.addr.ip ≠ addr.ip ∧ r.serviceId ≠ pin := by
  unfold Introduction.conflicts
  rw [Bool.or_eq_false_iff,decide_eq_false_iff_not,decide_eq_false_iff_not]

theorem ownConflict_false {v : View} {r : Introduction} :
    v.ownConflict r = false ↔ ∀ o ∈ v.own, r.addr.ip ≠ o.1.ip ∧ r.serviceId ≠ o.2 := by
  unfold View.ownConflict
  rw [List.any_eq_false]
  refine forall₂_congr (fun o _ => ?_)
  rw [Bool.not_eq_true,conflicts_false]

/-- The guards name stored relays that overlap neither each other nor own services. -/
structure Selection (v : View) (guards : List (Block 32)) (selected : List Introduction) :
    Prop where
  names : selected.map Introduction.serviceId = guards
  stored : ∀ r ∈ selected, v.find r.serviceId = some r
  own : ∀ r ∈ selected, v.ownConflict r = false
  apart : selected.Pairwise (fun a b => a.conflicts b.addr b.serviceId = false)

def Independent (v : View) (guards : List (Block 32)) : Prop := ∃ selected, Selection v guards selected

theorem find_serviceId {v : View} {pin : Block 32} {r : Introduction} (h : v.find pin = some r) :
    r.serviceId = pin ∧ r ∈ v.relays := by
  refine ⟨?_,List.mem_of_find?_eq_some h⟩
  have hp := List.find?_some h
  simpa using hp

theorem find_of_mem {v : View} (hd : (v.relays.map Introduction.serviceId).Nodup)
    {r : Introduction} (hr : r ∈ v.relays) : v.find r.serviceId = some r := by
  have hsome : (v.find r.serviceId).isSome := by
    rw [View.find,List.find?_isSome]
    exact ⟨r,hr,by simp⟩
  obtain ⟨r',hr'⟩ := Option.isSome_iff_exists.mp hsome
  obtain ⟨hid,hmem⟩ := find_serviceId hr'
  rw [hr',List.inj_on_of_nodup_map hd hmem hr hid]

theorem validateGuardsFrom_ok {v : View} (selected : List Introduction) (pins : List (Block 32)) :
    v.validateGuardsFrom selected pins = .ok () ↔ ∃ more, Selection v pins more ∧
      ∀ old ∈ selected, ∀ r ∈ more, old.conflicts r.addr r.serviceId = false := by
  induction pins generalizing selected with
  | nil =>
      refine ⟨fun _ => ⟨[],⟨rfl,by simp,by simp,List.Pairwise.nil⟩,by simp⟩,fun _ => rfl⟩
  | cons pin rest ih =>
      simp only [View.validateGuardsFrom,sequence_eq_ok,found_eq_ok,require_eq_ok,ih]
      constructor
      · rintro ⟨relay,hfind,u,hno,more,hmore,hapart⟩
        obtain ⟨hsel,hown⟩ := not_or.mp hno
        have hid := (find_serviceId hfind).1
        refine ⟨relay::more,⟨?_,?_,?_,?_⟩,?_⟩
        · rw [List.map_cons,hid,hmore.names]
        · rintro r (_ | ⟨_,hr⟩)
          · rw [hid]
            exact hfind
          · exact hmore.stored r hr
        · rintro r (_ | ⟨_,hr⟩)
          · simpa using hown
          · exact hmore.own r hr
        · refine List.pairwise_cons.mpr ⟨fun r hr => ?_,hmore.apart⟩
          exact hapart relay (by simp) r hr
        · rintro old hold r (_ | ⟨_,hr⟩)
          · rw [List.any_eq_true,not_exists] at hsel
            simpa using fun h => hsel old ⟨hold,h⟩
          · exact hapart old (List.mem_append_left _ hold) r hr
      · rintro ⟨more,hmore,hapart⟩
        cases more with
        | nil => cases hmore.names
        | cons relay more =>
            obtain ⟨hid,hnames⟩ := List.cons.inj hmore.names
            have hpair := List.pairwise_cons.mp hmore.apart
            refine ⟨relay,?_,(),?_,more,⟨hnames,?_,?_,hpair.2⟩,?_⟩
            · rw [← hid]
              exact hmore.stored relay List.mem_cons_self
            · rintro (hsel | hown)
              · obtain ⟨old,hold,hc⟩ := List.any_eq_true.mp hsel
                rw [hapart old hold relay List.mem_cons_self] at hc
                cases hc
              · rw [hmore.own relay List.mem_cons_self] at hown
                cases hown
            · exact fun r hr => hmore.stored r (List.mem_cons_of_mem _ hr)
            · exact fun r hr => hmore.own r (List.mem_cons_of_mem _ hr)
            · intro old hold r hr
              rcases List.mem_append.mp hold with hold | hold
              · exact hapart old hold r (List.mem_cons_of_mem _ hr)
              · rw [List.mem_singleton.mp hold]
                exact hpair.1 r hr

theorem validateGuards_ok {v : View} {guards : List (Block 32)} :
    v.validateGuards guards = .ok () ↔ Independent v guards := by
  rw [View.validateGuards,validateGuardsFrom_ok]
  refine exists_congr (fun more => and_iff_left ?_)
  simp

theorem keepGuard_independent {v : View} {kept : List (Block 32)} (h : Independent v kept)
    (pin : Block 32) : Independent v (v.keepGuard kept pin) := by
  unfold View.keepGuard
  cases hfind : v.find pin with
  | none => exact h
  | some relay =>
      dsimp only
      split_ifs with hno
      · exact h
      · obtain ⟨selected,hs⟩ := h
        obtain ⟨hown,hkept⟩ := not_or.mp hno
        have hid := (find_serviceId hfind).1
        refine ⟨selected++[relay],?_,?_,?_,?_⟩
        · rw [List.map_append,hs.names,List.map_singleton,hid]
        · intro r hr
          rcases List.mem_append.mp hr with hr | hr
          · exact hs.stored r hr
          · rw [List.mem_singleton.mp hr,hid]
            exact hfind
        · intro r hr
          rcases List.mem_append.mp hr with hr | hr
          · exact hs.own r hr
          · rw [List.mem_singleton.mp hr]
            simpa using hown
        · refine List.pairwise_append.mpr ⟨hs.apart,List.pairwise_singleton _ _,?_⟩
          intro old hold r hr
          rw [List.mem_singleton.mp hr]
          rw [List.any_eq_true,not_exists] at hkept
          have hpin : old.serviceId ∈ kept := by
            rw [← hs.names]
            exact List.mem_map_of_mem hold
          have hc := hkept old.serviceId
          rw [hs.stored old hold,Option.any_some] at hc
          simpa using fun h => hc ⟨hpin,h⟩

theorem foldl_keepGuard {v : View} (pins : List (Block 32)) {kept : List (Block 32)}
    (h : Independent v kept) : Independent v (pins.foldl v.keepGuard kept) ∧
      (pins.foldl v.keepGuard kept).length ≤ kept.length+pins.length := by
  induction pins generalizing kept with
  | nil => exact ⟨h,by simp⟩
  | cons pin pins ih =>
      obtain ⟨hind,hlen⟩ := ih (keepGuard_independent h pin)
      refine ⟨hind,hlen.trans ?_⟩
      have hone : (v.keepGuard kept pin).length ≤ kept.length+1 := by
        unfold View.keepGuard
        split
        · omega
        · split_ifs
          · omega
          · simp
      rw [List.length_cons]
      omega

theorem pruneGuards_independent (v : View) : Independent v.pruneGuards v.pruneGuards.guards ∧
    v.pruneGuards.guards.length ≤ v.guards.length := by
  have hnil : Independent v [] := ⟨[],rfl,by simp,by simp,List.Pairwise.nil⟩
  obtain ⟨⟨selected,hs⟩,hlen⟩ := foldl_keepGuard v.guards hnil
  rw [List.length_nil,Nat.zero_add] at hlen
  exact ⟨⟨selected,hs.names,hs.stored,hs.own,hs.apart⟩,hlen⟩

/-- Flow labels and scopes do not matter for independence. -/
theorem independent_canonical {v : View} {guards : List (Block 32)} (h : Independent v guards) :
    Independent (canonicalView v) guards := by
  obtain ⟨selected,hs⟩ := h
  refine ⟨selected.map canonical,?_,?_,?_,?_⟩
  · rw [List.map_map]
    exact hs.names
  · intro r hr
    obtain ⟨r₀,hr₀,rfl⟩ := List.mem_map.mp hr
    have hfind := hs.stored r₀ hr₀
    unfold View.find at hfind ⊢
    rw [canonicalView,List.find?_map]
    exact congrArg (Option.map canonical) hfind
  · intro r hr
    obtain ⟨r₀,hr₀,rfl⟩ := List.mem_map.mp hr
    have hown := ownConflict_false.mp (hs.own r₀ hr₀)
    rw [ownConflict_false]
    intro o ho
    obtain ⟨o₀,ho₀,rfl⟩ := List.mem_map.mp ho
    have h := hown o₀ ho₀
    simpa only [canonical,canonical_ip] using h
  · rw [List.pairwise_map]
    refine hs.apart.imp ?_
    intro a b hab
    rw [conflicts_false] at hab ⊢
    simpa only [canonical,canonical_ip] using hab

/-! ## Remembering one relay -/

/-- What one round of the loop does with a relay. -/
inductive Installs (guards : List (Block 32)) :
    List Introduction → Introduction → List Introduction → Prop
  | keep {relays : List Introduction} {old relay : Introduction} : old ∈ relays →
      old.serviceId = relay.serviceId → relay.expiresAt < old.expiresAt →
      Installs guards relays relay relays
  | renew {l₁ l₂ : List Introduction} {old relay : Introduction} :
      old.serviceId = relay.serviceId → old.expiresAt ≤ relay.expiresAt →
      Installs guards (l₁++old::l₂) relay (l₁++relay::l₂)
  | append {relays : List Introduction} {relay : Introduction} :
      (∀ r ∈ relays, r.serviceId ≠ relay.serviceId) → relays.length ≠ maxRelays →
      Installs guards relays relay (relays++[relay])
  | evict {l₁ l₂ : List Introduction} {gone relay : Introduction} :
      (∀ r ∈ l₁++gone::l₂, r.serviceId ≠ relay.serviceId) →
      (l₁++gone::l₂).length = maxRelays → gone.serviceId ∉ guards →
      Installs guards (l₁++gone::l₂) relay (l₁++l₂++[relay])

theorem split_getElem? {α : Type} {l : List α} {i : ℕ} {x : α} (h : l[i]? = some x) :
    l = l.take i++x::l.drop (i+1) := by
  obtain ⟨hi,hx⟩ := List.getElem?_eq_some_iff.mp h
  rw [← hx,List.cons_getElem_drop_succ,List.take_append_drop]

theorem victim_some {guards : List (Block 32)} {relays : List Introduction} {i : ℕ}
    (h : victim guards relays = some i) :
    ∃ gone, relays[i]? = some gone ∧ gone.serviceId ∉ guards := by
  unfold victim at h
  obtain ⟨⟨gone,j⟩,hmin,hj⟩ := Option.map_eq_some_iff.mp h
  have hj' : j = i := hj
  subst hj'
  obtain ⟨hmem,hnot⟩ := List.mem_filter.mp (List.argmin_mem hmin)
  exact ⟨gone,List.mem_zipIdx_iff_getElem?.mp hmem,by simpa using hnot⟩

theorem victim_none {guards : List (Block 32)} {relays : List Introduction}
    (h : victim guards relays = none) : ∀ r ∈ relays, r.serviceId ∈ guards := by
  unfold victim at h
  rw [Option.map_eq_none_iff,List.argmin_eq_none,List.filter_eq_nil_iff] at h
  intro r hr
  obtain ⟨i,hi⟩ := List.mem_iff_getElem?.mp hr
  have hno := h (r,i) (List.mem_zipIdx_iff_getElem?.mpr hi)
  simpa using hno

theorem findIdx?_id_none {relays : List Introduction} {pin : Block 32}
    (h : relays.findIdx? (fun old => decide (old.serviceId = pin)) = none) :
    ∀ r ∈ relays, r.serviceId ≠ pin := by
  rw [List.findIdx?_eq_none_iff] at h
  intro r hr
  exact of_decide_eq_false (h r hr)

theorem findIdx?_id_some {relays : List Introduction} {pin : Block 32} {i : ℕ}
    (h : relays.findIdx? (fun old => decide (old.serviceId = pin)) = some i) :
    ∃ old, relays[i]? = some old ∧ old.serviceId = pin := by
  obtain ⟨hi,hp,-⟩ := List.findIdx?_eq_some_iff_getElem.mp h
  exact ⟨relays[i],List.getElem?_eq_getElem hi,of_decide_eq_true hp⟩

theorem admitNew_ok {guards : List (Block 32)} {relays relays' : List Introduction}
    {relay : Introduction} (hnew : ∀ r ∈ relays, r.serviceId ≠ relay.serviceId)
    (h : admitNew guards relays relay = .ok relays') : Installs guards relays relay relays' := by
  unfold admitNew at h
  split_ifs at h with hfull
  · cases hv : victim guards relays with
    | none =>
        rw [hv] at h
        cases h
    | some i =>
        rw [hv] at h
        cases h
        obtain ⟨gone,hget,hnot⟩ := victim_some hv
        have hsplit := split_getElem? hget
        rw [List.eraseIdx_eq_take_drop_succ]
        have hinst := @Installs.evict guards (relays.take i) (relays.drop (i+1)) gone relay
        rw [← hsplit] at hinst
        exact hinst hnew hfull hnot
  · cases h
    exact .append hnew hfull

theorem install_ok {guards : List (Block 32)} {now : ℕ} {acc acc' : List Introduction × ℕ}
    {relay : Introduction} (h : install guards now acc relay = .ok acc') :
    Installs guards acc.1 relay acc'.1 := by
  unfold install at h
  cases hfind : acc.1.findIdx? (fun old => decide (old.serviceId = relay.serviceId)) with
  | none =>
      rw [hfind] at h
      obtain ⟨relays',hadmitted,hret⟩ := sequence_eq_ok.mp h
      obtain rfl := done_eq_ok.mp hret
      exact admitNew_ok (findIdx?_id_none hfind) hadmitted
  | some i =>
      rw [hfind] at h
      obtain ⟨old,hget,hid⟩ := findIdx?_id_some hfind
      dsimp only at h
      rw [hget,Option.any_some] at h
      split_ifs at h with hold
      · cases h
        exact .keep (List.mem_of_getElem? hget) hid (of_decide_eq_true hold)
      · cases h
        have hi : i < acc.1.length := (List.getElem?_eq_some_iff.mp hget).1
        have hinst := @Installs.renew guards (acc.1.take i) (acc.1.drop (i+1)) old relay hid
          (not_lt.mp (fun hlt => hold (decide_eq_true hlt)))
        rw [← split_getElem? hget] at hinst
        dsimp only
        rw [List.set_eq_take_append_cons_drop,if_pos hi]
        exact hinst

theorem admitNew_error {guards : List (Block 32)} {relays : List Introduction}
    {relay : Introduction} {e : Fault} (h : admitNew guards relays relay = .error e) :
    relays.length = maxRelays ∧ ∀ r ∈ relays, r.serviceId ∈ guards := by
  unfold admitNew at h
  split_ifs at h with hfull
  cases hv : victim guards relays with
  | none => exact ⟨hfull,victim_none hv⟩
  | some i =>
      rw [hv] at h
      cases h

theorem install_error {guards : List (Block 32)} {now : ℕ} {acc : List Introduction × ℕ}
    {relay : Introduction} {e : Fault} (h : install guards now acc relay = .error e) :
    acc.1.length = maxRelays ∧ ∀ r ∈ acc.1, r.serviceId ∈ guards := by
  unfold install at h
  cases hfind : acc.1.findIdx? (fun old => decide (old.serviceId = relay.serviceId)) with
  | none =>
      rw [hfind] at h
      cases hadmitted : admitNew guards acc.1 relay with
      | error e' => exact admitNew_error hadmitted
      | ok relays' =>
          dsimp only at h
          rw [hadmitted] at h
          cases h
  | some i =>
      rw [hfind] at h
      dsimp only at h
      split_ifs at h

/-! ## Remembering a bundle -/

def Named (relays : List Introduction) (pin : Block 32) : Prop := ∃ r ∈ relays, r.serviceId = pin

/-- What holds throughout the loop, after the relays `done` of the bundle. -/
structure Progress (guards : List (Block 32)) (before done relays : List Introduction) : Prop where
  bound : relays.length ≤ maxRelays
  distinct : (relays.map Introduction.serviceId).Nodup
  origin : ∀ r ∈ relays, r ∈ before ∨ r ∈ done
  guards : ∀ pin ∈ guards, Named before pin → Named relays pin

section Loop
variable {guards : List (Block 32)} {before done relays relays' : List Introduction}
  {relay : Introduction}

theorem Installs.distinct (h : Installs guards relays relay relays')
    (hd : (relays.map Introduction.serviceId).Nodup) :
    (relays'.map Introduction.serviceId).Nodup := by
  cases h with
  | keep => exact hd
  | renew hid _ =>
      rw [List.map_append,List.map_cons] at hd ⊢
      rwa [hid] at hd
  | append hnew _ =>
      rw [List.map_append,List.map_singleton,List.nodup_append]
      refine ⟨hd,List.nodup_singleton _,?_⟩
      intro a ha b hb hab
      obtain ⟨r,hr,rfl⟩ := List.mem_map.mp ha
      rw [List.mem_singleton.mp hb] at hab
      exact hnew r hr hab
  | @evict l₁ l₂ gone _ hnew _ _ =>
      have hsub : (l₁++l₂).Sublist (l₁++gone::l₂) := by simp
      rw [List.map_append,List.map_singleton,List.nodup_append]
      refine ⟨hd.sublist (hsub.map _),List.nodup_singleton _,?_⟩
      intro a ha b hb hab
      obtain ⟨r,hr,rfl⟩ := List.mem_map.mp ha
      rw [List.mem_singleton.mp hb] at hab
      exact hnew r (hsub.subset hr) hab

theorem Installs.origin (h : Installs guards relays relay relays') {r : Introduction}
    (hr : r ∈ relays') : r ∈ relays ∨ r = relay := by
  cases h with
  | keep => exact .inl hr
  | renew => 
      simp only [List.mem_append,List.mem_cons] at hr ⊢
      tauto
  | append =>
      simp only [List.mem_append,List.mem_singleton] at hr
      exact hr
  | evict =>
      simp only [List.mem_append,List.mem_cons,List.not_mem_nil,or_false] at hr ⊢
      tauto

theorem Installs.guarded (h : Installs guards relays relay relays') {pin : Block 32}
    (hpin : pin ∈ guards) (hn : Named relays pin) : Named relays' pin := by
  obtain ⟨r,hr,rfl⟩ := hn
  cases h with
  | keep => exact ⟨r,hr,rfl⟩
  | @renew l₁ l₂ old _ hid _ =>
      rcases List.mem_append.mp hr with hr | hr
      · exact ⟨r,List.mem_append_left _ hr,rfl⟩
      · rcases List.mem_cons.mp hr with rfl | hr
        · exact ⟨relay,by simp,hid.symm⟩
        · exact ⟨r,List.mem_append_right _ (List.mem_cons_of_mem _ hr),rfl⟩
  | append => exact ⟨r,List.mem_append_left _ hr,rfl⟩
  | @evict l₁ l₂ gone _ _ _ hgone =>
      refine ⟨r,List.mem_append_left _ ?_,rfl⟩
      rcases List.mem_append.mp hr with hr | hr
      · exact List.mem_append_left _ hr
      · rcases List.mem_cons.mp hr with rfl | hr
        · exact absurd hpin hgone
        · exact List.mem_append_right _ hr

theorem Installs.bound (h : Installs guards relays relay relays')
    (hb : relays.length ≤ maxRelays) : relays'.length ≤ maxRelays := by
  cases h with
  | keep => exact hb
  | renew =>
      simp only [List.length_append,List.length_cons] at hb ⊢
      exact hb
  | append _ hne =>
      rw [List.length_append,List.length_singleton]
      omega
  | evict _ hfull _ =>
      simp only [List.length_append,List.length_cons,List.length_nil] at hfull ⊢
      omega

theorem Progress.step (h : Progress guards before done relays)
    (hi : Installs guards relays relay relays') : Progress guards before (done++[relay]) relays' where
  bound := hi.bound h.bound
  distinct := hi.distinct h.distinct
  origin r hr := by
    rcases hi.origin hr with hr | rfl
    · rcases h.origin r hr with hr | hr
      · exact .inl hr
      · exact .inr (List.mem_append_left _ hr)
    · exact .inr (by simp)
  guards pin hpin hn := hi.guarded hpin (h.guards pin hpin hn)

/-- The stored relays and the new ones of the bundle have room together. -/
def newIn (before rest : List Introduction) : List Introduction :=
  rest.filter (fun r => decide (∀ old ∈ before, old.serviceId ≠ r.serviceId))

/-- What holds throughout the loop if nothing has to be evicted. -/
structure Growth (before rest relays : List Introduction) : Prop where
  room : relays.length+(newIn before rest).length ≤ maxRelays
  grown : ∀ old ∈ before, ∃ r ∈ relays, r.serviceId = old.serviceId ∧ old.expiresAt ≤ r.expiresAt

/-- A relay that is not found was not stored before. -/
theorem newIn_cons (rest : List Introduction)
    (hgrown : ∀ old ∈ before, ∃ r ∈ relays, r.serviceId = old.serviceId ∧
      old.expiresAt ≤ r.expiresAt) (hnew : ∀ r ∈ relays, r.serviceId ≠ relay.serviceId) :
    (newIn before (relay::rest)).length = (newIn before rest).length+1 := by
  have hno : ∀ old ∈ before, old.serviceId ≠ relay.serviceId := by
    intro old hold hid
    obtain ⟨r,hr,hrid,-⟩ := hgrown old hold
    exact hnew r hr (hrid.trans hid)
  unfold newIn
  rw [List.filter_cons,if_pos (decide_eq_true hno),List.length_cons]

theorem Growth.step {rest : List Introduction} (h : Growth before (relay::rest) relays)
    (hi : Installs guards relays relay relays') : Growth before rest relays' := by
  have hle : (newIn before rest).length ≤ (newIn before (relay::rest)).length :=
    ((List.sublist_cons_self relay rest).filter _).length_le
  have hroom := h.room
  cases hi with
  | keep => exact ⟨by omega,h.grown⟩
  | @renew l₁ l₂ old _ hid hexp =>
      refine ⟨?_,fun old' hold' => ?_⟩
      · simp only [List.length_append,List.length_cons] at hroom ⊢
        omega
      · obtain ⟨r,hr,hrid,hrexp⟩ := h.grown old' hold'
        rcases List.mem_append.mp hr with hr | hr
        · exact ⟨r,List.mem_append_left _ hr,hrid,hrexp⟩
        · rcases List.mem_cons.mp hr with rfl | hr
          · exact ⟨relay,by simp,hid.symm.trans hrid,hrexp.trans hexp⟩
          · exact ⟨r,List.mem_append_right _ (List.mem_cons_of_mem _ hr),hrid,hrexp⟩
  | append hnew _ =>
      have hcount := newIn_cons rest h.grown hnew
      refine ⟨?_,fun old hold => ?_⟩
      · rw [List.length_append,List.length_singleton]
        omega
      · obtain ⟨r,hr,hrest⟩ := h.grown old hold
        exact ⟨r,List.mem_append_left _ hr,hrest⟩
  | evict hnew hfull _ =>
      have hcount := newIn_cons rest h.grown hnew
      omega

/-! The whole loop. -/

variable {now : ℕ} {rest : List Introduction} {acc acc' : List Introduction × ℕ}

theorem Progress.run (h : Progress guards before done acc.1)
    (hrun : rest.foldlM (install guards now) acc = .ok acc') :
    Progress guards before (done++rest) acc'.1 := by
  induction rest generalizing done acc with
  | nil =>
      cases hrun
      rwa [List.append_nil]
  | cons relay rest ih =>
      rw [List.foldlM_cons] at hrun
      obtain ⟨acc₁,h₁,hrest⟩ := sequence_eq_ok.mp hrun
      have hnext := ih (h.step (install_ok h₁)) hrest
      rwa [List.append_assoc,List.singleton_append] at hnext

/-- At most three of sixty-four relays are guards, so one can always give way. -/
theorem Progress.total (h : Progress guards before done acc.1) (hg : guards.length ≤ maxGuards)
    {e : Fault} : rest.foldlM (install guards now) acc ≠ .error e := by
  induction rest generalizing done acc with
  | nil => exact fun hc => nomatch hc
  | cons relay rest ih =>
      intro hrun
      rw [List.foldlM_cons] at hrun
      cases h₁ : install guards now acc relay with
      | ok acc₁ =>
          rw [h₁] at hrun
          exact ih (h.step (install_ok h₁)) hrun
      | error e' =>
          obtain ⟨hfull,hall⟩ := install_error h₁
          have hsub : acc.1.map Introduction.serviceId ⊆ guards := by
            intro pin hpin
            obtain ⟨r,hr,rfl⟩ := List.mem_map.mp hpin
            exact hall r hr
          have hle := (h.distinct.subperm hsub).length_le
          rw [List.length_map,hfull] at hle
          unfold maxRelays at hle
          unfold maxGuards at hg
          omega

theorem Growth.run (h : Growth before rest acc.1)
    (hrun : rest.foldlM (install guards now) acc = .ok acc') : Growth before [] acc'.1 := by
  induction rest generalizing acc with
  | nil =>
      cases hrun
      exact h
  | cons relay rest ih =>
      rw [List.foldlM_cons] at hrun
      obtain ⟨acc₁,h₁,hrest⟩ := sequence_eq_ok.mp hrun
      exact ih (h.step (install_ok h₁)) hrest

end Loop

/-! ## Views that the operations produce -/

theorem admissible_later {allowed : IpAddr → Bool} {r : Introduction} {now later : ℕ}
    (h : admissible allowed r now = .ok ()) (hle : now ≤ later) :
    admissible allowed r later = .ok () := by
  simp only [admissible,sequence_eq_ok,require_eq_ok] at h ⊢
  obtain ⟨u,hv,hno⟩ := h
  refine ⟨u,hv,fun hbad => hno ?_⟩
  rcases hbad with hbad | hbad
  · exact .inl hbad
  · exact .inr (by omega)

theorem admissibleAll_ok {allowed : IpAddr → Bool} {relays : List Introduction} {now : ℕ}
    (h : admissibleAll allowed now relays = .ok ()) :
    ∀ r ∈ relays, admissible allowed r now = .ok () := by
  induction relays with
  | nil => simp
  | cons relay rest ih =>
      simp only [admissibleAll,sequence_eq_ok] at h
      obtain ⟨_,hr,hrest⟩ := h
      rintro r (_ | ⟨_,hmem⟩)
      · exact hr
      · exact ih hrest r hmem

theorem validateServices_ok {services : List (SocketAddr × Block 32)}
    {before : List (SocketAddr × Block 32)} (h : validateServices before services = .ok ()) :
    ∀ o ∈ services, ¬Unusable o.1.ip o.1.port ∧ o.2 ≠ zeroId := by
  induction services generalizing before with
  | nil => simp
  | cons s rest ih =>
      simp only [validateServices,sequence_eq_ok,require_eq_ok] at h
      obtain ⟨a,ha,_,hno,hrest⟩ := h
      rintro o (_ | ⟨_,ho⟩)
      · rw [decodeAddress_encodeAddress] at ha
        refine ⟨fun hu => ?_,fun hz => hno (.inl hz)⟩
        rw [if_pos hu] at ha
        cases ha
      · exact ih hrest o ho

/-- What every published view satisfies at the time of its last change. -/
structure Sound (allowed : IpAddr → Bool) (now : ℕ) (v : View) : Prop where
  storable : Storable allowed now v
  independent : Independent v v.guards

section Views
variable {allowed : IpAddr → Bool} {now later : ℕ} {v v' : View}

theorem Sound.mono (h : Sound allowed now v) (hle : now ≤ later) : Sound allowed later v :=
  ⟨{h.storable with admitted := fun r hr => admissible_later (h.storable.admitted r hr) hle},
    h.independent⟩

theorem empty_sound : Sound allowed now View.empty where
  storable := by
    refine ⟨by decide,by decide,by decide,?_,List.nodup_nil,?_,List.nodup_nil⟩
    · intro r hr
      cases hr
    · intro o ho
      cases ho
  independent := ⟨[],rfl,by simp,by simp,List.Pairwise.nil⟩

theorem Sound.prune (h : Sound allowed now v) {relays : List Introduction}
    {own : List (SocketAddr × Block 32)}
    (hs : Storable allowed now ⟨relays,v.guards,own⟩) :
    Sound allowed now (View.pruneGuards ⟨relays,v.guards,own⟩) := by
  obtain ⟨hind,hlen⟩ := pruneGuards_independent ⟨relays,v.guards,own⟩
  exact ⟨{hs with guardCount := hlen.trans h.storable.guardCount},hind⟩

theorem Sound.withGuards (h : Sound allowed now v) {guards : List (Block 32)}
    (hlen : guards.length ≤ maxGuards) (hv : Independent v guards) :
    Sound allowed now {v with guards := guards} := by
  obtain ⟨selected,hs⟩ := hv
  exact ⟨{h.storable with guardCount := hlen},selected,hs.names,hs.stored,hs.own,hs.apart⟩

/-- The stored form of a sound view is restored at every later time. -/
theorem Sound.restores (h : Sound allowed now v) (hle : now ≤ later) :
    v.encode = .ok (plainView v) ∧ (canonicalView v).encode = .ok (plainView v) ∧
    restoreWithPolicy allowed (plainView v) later = .ok ⟨canonicalView v,false,false,[]⟩ := by
  have hlater := h.mono hle
  have hvalid : ∀ r ∈ v.relays, r.validate = .ok () :=
    fun r hr => admissible_validate (h.storable.admitted r hr)
  refine ⟨encode_view hvalid,?_,?_⟩
  · rw [← plainView_canonical]
    apply encode_view
    intro r hr
    obtain ⟨r₀,hr₀,rfl⟩ := List.mem_map.mp hr
    rw [validate_canonical]
    exact hvalid r₀ hr₀
  · exact restore_plainView hlater.storable
      (validateGuards_ok.mpr (independent_canonical hlater.independent))

end Views

/-! ## Calls -/

inductive Event where
  | setOwnServices (services : List (SocketAddr × Block 32)) (disk : Option String)
  | setGuards (guards : List (Block 32)) (disk : Option String)
  | retainGuard (pin : Block 32) (disk : Option String)
  | remember (bundle : BootstrapBundle) (disk : Option String)

/-- The results of the calls, as one type. -/
inductive Reply where
  | done
  | retained (accepted : Bool)
  | remembered (fresh : ℕ)
  deriving DecidableEq

def exec (allowed : IpAddr → Bool) (now : ℕ) : Event → Op Reply
  | .setOwnServices services disk => do
      setOwnServices services disk
      return .done
  | .setGuards guards disk => do
      setGuards guards disk
      return .done
  | .retainGuard pin disk => do
      let accepted ← retainGuard pin disk
      return .retained accepted
  | .remember bundle disk => do
      let fresh ← remember allowed bundle now disk
      return .remembered fresh

/-- The bundle changes the relays `before` to `after`. -/
structure Remembered (allowed : IpAddr → Bool) (now : ℕ) (v : View) (bundle : BootstrapBundle)
    (relays : List Introduction) : Prop where
  admitted : ∀ r ∈ bundle.relays, admissible allowed r now = .ok ()
  stable : ¬Migrates v bundle
  loop : ∃ n, bundle.relays.foldlM (install v.guards now) (v.relays,0) = .ok (relays,n)

/-- The view that a successful call publishes. -/
inductive Publishes (allowed : IpAddr → Bool) (now : ℕ) (v : View) : Event → View → Prop
  | own {services : List (SocketAddr × Block 32)} {disk : Option String} :
      services.length ≤ maxOwnServices → validateServices [] services = .ok () →
      Publishes allowed now v (.setOwnServices services disk)
        (View.pruneGuards {v with own := services})
  | guards {guards : List (Block 32)} {disk : Option String} : guards.length ≤ maxGuards →
      v.validateGuards guards = .ok () →
      Publishes allowed now v (.setGuards guards disk) {v with guards := guards}
  | refused {pin : Block 32} {disk : Option String} :
      Publishes allowed now v (.retainGuard pin disk) v
  | retained {pin : Block 32} {disk : Option String} : v.guards.length ≠ maxGuards →
      ({v with guards := v.guards++[pin]} : View).validateGuards (v.guards++[pin]) = .ok () →
      Publishes allowed now v (.retainGuard pin disk) {v with guards := v.guards++[pin]}
  | remember {bundle : BootstrapBundle} {disk : Option String} {relays : List Introduction} :
      Remembered allowed now v bundle relays →
      Publishes allowed now v (.remember bundle disk) (View.pruneGuards {v with relays := relays})

section Calls
variable {allowed : IpAddr → Bool} {now : ℕ} {d d' : Directory}

theorem checkPersistence_ok {u : Unit} (h : checkPersistence d = (.ok u,d')) :
    d.persistenceFailed = false ∧ d = d' := by
  unfold checkPersistence at h
  rw [read_id_bind] at h
  exact demand_ok.mp h

theorem save_ok {next : View} {disk : Option String} {u : Unit}
    (h : save next disk d = (.ok u,d')) : d'.persistenceFailed = d.persistenceFailed ∧
      d'.checkpointed = d.checkpointed := by
  unfold save at h
  obtain ⟨bytes,-,h⟩ := attempt_bind_ok.mp h
  rw [update_bind] at h
  cases disk with
  | none =>
      cases h
      exact ⟨rfl,rfl⟩
  | some error => cases h

theorem publish_ok {next : View} {disk : Option String} {checkpointed : Bool} {u : Unit}
    (h : publish next disk checkpointed d = (.ok u,d')) : d'.view = next ∧
      d'.persistenceFailed = d.persistenceFailed ∧ d'.checkpointed = d.checkpointed := by
  cases checkpointed with
  | false =>
      cases h
      exact ⟨rfl,rfl,rfl⟩
  | true =>
      obtain ⟨_,d₂,hsave,h⟩ := bind_ok.mp h
      obtain ⟨hp,hc⟩ := save_ok hsave
      cases h
      exact ⟨rfl,hp,hc⟩

theorem commit_ok {next : View} {disk : Option String} {u : Unit}
    (h : commit next disk d = (.ok u,d')) : d.persistenceFailed = false ∧ d'.view = next ∧
      d'.persistenceFailed = false ∧ d'.checkpointed = d.checkpointed := by
  unfold commit at h
  obtain ⟨_,d₁,hcheck,h⟩ := bind_ok.mp h
  obtain ⟨hp,rfl⟩ := checkPersistence_ok hcheck
  rw [read_id_bind] at h
  split_ifs at h with hsame
  · cases h
    exact ⟨hp,hsame,hp,rfl⟩
  · obtain ⟨hview,hp',hc'⟩ := publish_ok h
    exact ⟨hp,hview,hp'.trans hp,hc'⟩

/-- A refused call leaves the view as it was. It leaves the rest as it was too, unless
the checkpoint failed, which is recorded. -/
def Restrained (d : Directory) (f : Fault) (d' : Directory) : Prop :=
  f ≠ .panic ∧ d'.view = d.view ∧
    (d' = d ∨ d.persistenceFailed = false ∧ d'.persistenceFailed = true)

theorem restrained_self (m : String) : Restrained d (.refused m) d := ⟨by simp,rfl,.inl rfl⟩

theorem commit_aborts (next : View) (disk : Option String) :
    Aborts (Restrained d) (commit next disk) d := by
  unfold commit
  refine Aborts.bind ?_ ?_
  · unfold checkPersistence
    exact Aborts.read_bind (Aborts.demand (fun _ => restrained_self _))
  · intro u d₁ hcheck
    obtain ⟨hp,rfl⟩ := checkPersistence_ok hcheck
    refine Aborts.read_bind ?_
    split_ifs with hsame
    · exact Aborts.pure ()
    · unfold publish
      split
      · exact Aborts.update
      · refine Aborts.bind ?_ (fun _ _ _ => Aborts.update)
        unfold save
        refine Aborts.attempt_bind (fun e _ => restrained_self e) (fun bytes _ => ?_)
        refine Aborts.update_bind ?_
        cases disk with
        | none => exact Aborts.pure ()
        | some error =>
            exact Aborts.update_bind (Aborts.fail ⟨by simp,rfl,.inr ⟨hp,rfl⟩⟩)

theorem retainIndependent_ok {next : View} {disk : Option String} {accepted : Bool}
    (h : retainIndependent next disk d = (.ok accepted,d')) : d = d' ∨
      next.validateGuards next.guards = .ok () ∧ d'.view = next ∧ d'.persistenceFailed = false := by
  unfold retainIndependent at h
  cases hv : next.validateGuards next.guards with
  | error e =>
      rw [hv] at h
      cases h
      exact .inl rfl
  | ok u =>
      rw [hv] at h
      obtain ⟨_,d₁,hcommit,hret⟩ := bind_ok.mp h
      obtain ⟨-,rfl⟩ := pure_ok.mp hret
      obtain ⟨-,hview,hp,-⟩ := commit_ok hcommit
      exact .inr ⟨rfl,hview,hp⟩

theorem exec_ok {event : Event} {r : Reply} (h : exec allowed now event d = (.ok r,d')) :
    d.persistenceFailed = false ∧ d'.persistenceFailed = false ∧
      Publishes allowed now d.view event d'.view := by
  cases event with
  | setOwnServices services disk =>
      obtain ⟨_,d₁,hrun,hret⟩ := bind_ok.mp h
      obtain ⟨-,rfl⟩ := pure_ok.mp hret
      unfold setOwnServices at hrun
      obtain ⟨hlen,hrun⟩ := demand_bind_ok.mp hrun
      obtain ⟨_,hvalid,hrun⟩ := attempt_bind_ok.mp hrun
      rw [read_id_bind] at hrun
      obtain ⟨hp,hview,hp',-⟩ := commit_ok hrun
      rw [hview]
      exact ⟨hp,hp',.own hlen hvalid⟩
  | setGuards guards disk =>
      obtain ⟨_,d₁,hrun,hret⟩ := bind_ok.mp h
      obtain ⟨-,rfl⟩ := pure_ok.mp hret
      unfold setGuards at hrun
      obtain ⟨hlen,hrun⟩ := demand_bind_ok.mp hrun
      rw [read_id_bind] at hrun
      obtain ⟨_,hvalid,hrun⟩ := attempt_bind_ok.mp hrun
      obtain ⟨hp,hview,hp',-⟩ := commit_ok hrun
      rw [hview]
      exact ⟨hp,hp',.guards hlen hvalid⟩
  | retainGuard pin disk =>
      obtain ⟨accepted,d₁,hrun,hret⟩ := bind_ok.mp h
      obtain ⟨-,rfl⟩ := pure_ok.mp hret
      unfold retainGuard at hrun
      obtain ⟨_,d₂,hcheck,hrun⟩ := bind_ok.mp hrun
      obtain ⟨hp,rfl⟩ := checkPersistence_ok hcheck
      rw [read_id_bind] at hrun
      obtain ⟨-,hrun⟩ := demand_bind_ok.mp hrun
      split_ifs at hrun with hfull
      · obtain ⟨-,rfl⟩ := pure_ok.mp hrun
        exact ⟨hp,hp,.refused⟩
      · rcases retainIndependent_ok hrun with rfl | ⟨hvalid,hview,hp'⟩
        · exact ⟨hp,hp,.refused⟩
        · rw [hview]
          exact ⟨hp,hp',.retained (fun hc => hfull (.inl hc)) hvalid⟩
  | remember bundle disk =>
      obtain ⟨fresh,d₁,hrun,hret⟩ := bind_ok.mp h
      obtain ⟨-,rfl⟩ := pure_ok.mp hret
      unfold remember at hrun
      obtain ⟨_,-,hrun⟩ := attempt_bind_ok.mp hrun
      obtain ⟨_,hadm,hrun⟩ := attempt_bind_ok.mp hrun
      rw [read_id_bind] at hrun
      obtain ⟨hstable,hrun⟩ := demand_bind_ok.mp hrun
      obtain ⟨installed,hloop,hrun⟩ := attempt_bind_ok.mp hrun
      obtain ⟨_,d₂,hcommit,hret⟩ := bind_ok.mp hrun
      obtain ⟨-,rfl⟩ := pure_ok.mp hret
      obtain ⟨hp,hview,hp',-⟩ := commit_ok hcommit
      rw [hview]
      exact ⟨hp,hp',.remember ⟨admissibleAll_ok hadm,hstable,installed.2,hloop⟩⟩

theorem Sound.progress {v : View} (h : Sound allowed now v) :
    Progress v.guards v.relays [] v.relays :=
  ⟨h.storable.relayCount,h.storable.distinct,fun _ hr => .inl hr,fun _ _ hn => hn⟩

theorem exec_aborts {t : ℕ} (hs : Sound allowed t d.view) (event : Event) :
    Aborts (Restrained d) (exec allowed now event) d := by
  cases event with
  | setOwnServices services disk =>
      refine Aborts.bind ?_ (fun _ _ _ => Aborts.pure _)
      unfold setOwnServices
      refine Aborts.demand_bind (fun _ => restrained_self _) (fun _ => ?_)
      refine Aborts.attempt_bind (fun e _ => restrained_self e) (fun _ _ => ?_)
      exact Aborts.read_bind (commit_aborts _ _)
  | setGuards guards disk =>
      refine Aborts.bind ?_ (fun _ _ _ => Aborts.pure _)
      unfold setGuards
      refine Aborts.demand_bind (fun _ => restrained_self _) (fun _ => Aborts.read_bind ?_)
      refine Aborts.attempt_bind (fun e _ => restrained_self e) (fun _ _ => ?_)
      exact commit_aborts _ _
  | retainGuard pin disk =>
      refine Aborts.bind ?_ (fun _ _ _ => Aborts.pure _)
      unfold retainGuard
      refine Aborts.bind ?_ ?_
      · unfold checkPersistence
        exact Aborts.read_bind (Aborts.demand (fun _ => restrained_self _))
      · intro u d₁ hcheck
        obtain ⟨-,rfl⟩ := checkPersistence_ok hcheck
        refine Aborts.read_bind (Aborts.demand_bind (fun _ => restrained_self _) (fun _ => ?_))
        split_ifs
        · exact Aborts.pure _
        · unfold retainIndependent
          split
          · exact Aborts.pure _
          · exact Aborts.bind (commit_aborts _ _) (fun _ _ _ => Aborts.pure _)
  | remember bundle disk =>
      refine Aborts.bind ?_ (fun _ _ _ => Aborts.pure _)
      unfold remember
      refine Aborts.attempt_bind (fun e _ => restrained_self e) (fun _ _ => ?_)
      refine Aborts.attempt_bind (fun e _ => restrained_self e) (fun _ _ => Aborts.read_bind ?_)
      refine Aborts.demand_bind (fun _ => restrained_self _) (fun _ => ?_)
      refine Aborts.attempt_bind (fun e he => ?_) (fun installed _ => ?_)
      · exact absurd he (Progress.total hs.progress hs.storable.guardCount)
      · exact Aborts.bind (commit_aborts _ _) (fun _ _ _ => Aborts.pure _)

/-! ## Runs -/

/-- The services differ in their stored form; a bundle that would make the directory
give up relays brings no introduction older than the stored one. -/
def Careful (v : View) : Event → Prop
  | .setOwnServices services _ => (services.map (fun s => (s.1.canonical,s.2))).Nodup
  | .setGuards _ _ => True
  | .retainGuard _ _ => True
  | .remember bundle _ => v.relays.length+(newIn v.relays bundle.relays).length ≤ maxRelays ∨
      ∀ r ∈ bundle.relays, ∀ old ∈ v.relays, old.serviceId = r.serviceId →
        old.expiresAt ≤ r.expiresAt

/-- The directories that careful calls lead to, with the time of the last call. -/
inductive Reached (allowed : IpAddr → Bool) : ℕ → Directory → Prop
  | new (now : ℕ) : Reached allowed now Directory.new
  | checkpoint {now : ℕ} {d : Directory} : Directory.new.withCheckpoint none = .ok d →
      Reached allowed now d
  | call {now later : ℕ} {d : Directory} {event : Event} : Reached allowed now d → now ≤ later →
      Careful d.view event → Reached allowed later (exec allowed later event d).2

section Published
variable {v v' : View} {event : Event}

theorem Remembered.progress (h : Sound allowed now v) {bundle : BootstrapBundle}
    {relays : List Introduction} {later : ℕ} (hr : Remembered allowed later v bundle relays) :
    Progress v.guards v.relays bundle.relays relays := by
  obtain ⟨n,hloop⟩ := hr.loop
  exact h.progress.run hloop

theorem Publishes.sound {later : ℕ} (hp : Publishes allowed later v event v')
    (hs : Sound allowed now v) (hle : now ≤ later) (hc : Careful v event) :
    Sound allowed later v' := by
  have hs' := hs.mono hle
  cases hp with
  | own hlen hvalid =>
      exact hs'.prune {hs'.storable with
        ownCount := hlen, ownValid := validateServices_ok hvalid, ownDistinct := hc}
  | guards hlen hvalid => exact hs'.withGuards hlen (validateGuards_ok.mp hvalid)
  | refused => exact hs'
  | retained hfull hvalid =>
      refine ⟨{hs'.storable with guardCount := ?_},validateGuards_ok.mp hvalid⟩
      have hlen := hs.storable.guardCount
      rw [List.length_append,List.length_singleton]
      omega
  | remember hr =>
      have hprog := hr.progress hs
      refine hs'.prune {hs'.storable with
        relayCount := hprog.bound, distinct := hprog.distinct, admitted := fun r hmem => ?_}
      rcases hprog.origin r hmem with hold | hnew
      · exact hs'.storable.admitted r hold
      · exact hr.admitted r hnew

theorem Publishes.guarded {later : ℕ} (hp : Publishes allowed later v event v')
    (hs : Sound allowed now v) {pin : Block 32} (hpin : pin ∈ v.guards) :
    Named v'.relays pin := by
  have hnamed : Named v.relays pin := by
    obtain ⟨selected,hsel⟩ := hs.independent
    rw [← hsel.names] at hpin
    obtain ⟨r,hr,rfl⟩ := List.mem_map.mp hpin
    exact ⟨r,(find_serviceId (hsel.stored r hr)).2,rfl⟩
  cases hp with
  | own => exact hnamed
  | guards => exact hnamed
  | refused => exact hnamed
  | retained => exact hnamed
  | remember hr => exact (hr.progress hs).guards pin hpin hnamed

/-- A service that stays keeps its re-entry authority and loses no time. -/
theorem Publishes.stable {later : ℕ} (hp : Publishes allowed later v event v')
    (hs : Sound allowed now v) (hc : Careful v event) {old r : Introduction} (hold : old ∈ v.relays)
    (hr : r ∈ v'.relays) (hid : r.serviceId = old.serviceId) :
    r.reentryCap = old.reentryCap ∧ old.expiresAt ≤ r.expiresAt := by
  have hsame : r ∈ v.relays → r.reentryCap = old.reentryCap ∧ old.expiresAt ≤ r.expiresAt := by
    intro hmem
    rw [List.inj_on_of_nodup_map hs.storable.distinct hmem hold hid]
    exact ⟨rfl,le_rfl⟩
  cases hp with
  | own => exact hsame hr
  | guards => exact hsame hr
  | refused => exact hsame hr
  | retained => exact hsame hr
  | @remember bundle disk relays hrem =>
      have hprog := hrem.progress hs
      rcases hprog.origin r hr with hmem | hnew
      · exact hsame hmem
      · refine ⟨?_,?_⟩
        · by_contra hne
          exact hrem.stable ⟨r,hnew,old,hold,hid.symm,fun h => hne h.symm⟩
        · rcases hc with hroom | hyoung
          · obtain ⟨n,hloop⟩ := hrem.loop
            have hgrowth : Growth v.relays bundle.relays v.relays :=
              ⟨hroom,fun o ho => ⟨o,ho,rfl,le_rfl⟩⟩
            obtain ⟨r',hr',hid',hexp⟩ := (hgrowth.run hloop).grown old hold
            rw [List.inj_on_of_nodup_map hprog.distinct hr hr' (hid.trans hid'.symm)]
            exact hexp
          · exact hyoung r hnew old hold hid.symm

end Published

theorem exec_sound (hs : Sound allowed now d.view) {later : ℕ} (hle : now ≤ later) {event : Event}
    (hc : Careful d.view event) : Sound allowed later (exec allowed later event d).2.view := by
  cases hrun : exec allowed later event d with
  | mk result d' =>
      cases result with
      | error f =>
          have hres := exec_aborts hs event f d' hrun
          rw [hres.2.1]
          exact hs.mono hle
      | ok reply => exact (exec_ok hrun).2.2.sound hs hle hc

theorem reached_sound (h : Reached allowed now d) : Sound allowed now d.view := by
  induction h with
  | new now => exact empty_sound
  | checkpoint hd =>
      cases hd
      exact empty_sound
  | call _ hle hc ih => exact exec_sound ih hle hc

end Calls

/-- What holds of a directory between two calls, the last one made at `now`. -/
structure Upheld (allowed : IpAddr → Bool) (now : ℕ) (d : Directory) : Prop where
  relayCount : d.view.relays.length ≤ maxRelays
  distinct : (d.view.relays.map Introduction.serviceId).Nodup
  guardCount : d.view.guards.length ≤ maxGuards
  /-- Guards name stored relays and share no IP or service with each other or own services. -/
  guards : ∃ selected : List Introduction, selected.map Introduction.serviceId = d.view.guards ∧
    (∀ r ∈ selected, r ∈ d.view.relays ∧
      ∀ o ∈ d.view.own, r.addr.ip ≠ o.1.ip ∧ r.serviceId ≠ o.2) ∧
    selected.Pairwise (fun a b => a.addr.ip ≠ b.addr.ip ∧ a.serviceId ≠ b.serviceId)
  /-- No call removes the relay of a guard. -/
  kept : ∀ later event, ∀ pin ∈ d.view.guards,
    Named (exec allowed later event d).2.view.relays pin
  stable : ∀ later event, now ≤ later → Careful d.view event → ∀ old ∈ d.view.relays,
    ∀ r ∈ (exec allowed later event d).2.view.relays, r.serviceId = old.serviceId →
      r.reentryCap = old.reentryCap ∧ old.expiresAt ≤ r.expiresAt
  /-- A call that fails leaves the view; if it called the checkpoint, this is recorded. -/
  refused : ∀ later event f, (exec allowed later event d).1 = .error f → f ≠ .panic ∧
    (exec allowed later event d).2.view = d.view ∧
    ((exec allowed later event d).2 = d ∨ (exec allowed later event d).2.persistenceFailed = true)
  /-- After a failed checkpoint nothing is exposed, changed or saved. -/
  failed : d.persistenceFailed = true → d.guards = [] ∧ d.reentryCandidates allowed = [] ∧
    (∀ excluded t, ∃ m, d.eligible allowed excluded t = .error m) ∧
    (∃ m, d.encodePrivate = .error m) ∧
    ∀ later event, ∃ f, exec allowed later event d = (.error f,d)
  /-- At every later time the saved view is restored, with the same stored form. -/
  restores : ∀ later, now ≤ later → ∃ bytes, d.view.encode = .ok bytes ∧
    (d.persistenceFailed = false → d.encodePrivate = .ok bytes) ∧
    ∃ d', restoreWithPolicy allowed bytes later = .ok d' ∧ d'.view = canonicalView d.view ∧
      d'.view.encode = .ok bytes

theorem Sound.upheld {allowed : IpAddr → Bool} {now : ℕ} {d : Directory}
    (hs : Sound allowed now d.view) : Upheld allowed now d where
  relayCount := hs.storable.relayCount
  distinct := hs.storable.distinct
  guardCount := hs.storable.guardCount
  guards := by
    obtain ⟨selected,hsel⟩ := hs.independent
    refine ⟨selected,hsel.names,fun r hr => ⟨?_,?_⟩,?_⟩
    · exact (find_serviceId (hsel.stored r hr)).2
    · exact ownConflict_false.mp (hsel.own r hr)
    · exact hsel.apart.imp conflicts_false.mp
  kept later event pin hpin := by
    cases hrun : exec allowed later event d with
    | mk result d' =>
        cases result with
        | ok reply => exact (exec_ok hrun).2.2.guarded hs hpin
        | error f =>
            rw [(exec_aborts hs event f d' hrun).2.1]
            have hp : Publishes allowed later d.view (.retainGuard pin none) d.view := .refused
            exact hp.guarded hs hpin
  stable later event hle hc old hold r hr hid := by
    cases hrun : exec allowed later event d with
    | mk result d' =>
        rw [hrun] at hr
        cases result with
        | ok reply => exact (exec_ok hrun).2.2.stable hs hc hold hr hid
        | error f =>
            rw [(exec_aborts hs event f d' hrun).2.1] at hr
            rw [List.inj_on_of_nodup_map hs.storable.distinct hr hold hid]
            exact ⟨rfl,le_rfl⟩
  refused later event f hf := by
    cases hrun : exec allowed later event d with
    | mk result d' =>
        rw [hrun] at hf
        cases hf
        obtain ⟨hpanic,hview,hrest⟩ := exec_aborts hs event f d' hrun
        refine ⟨hpanic,hview,hrest.imp_right And.right⟩
  failed hfailed := by
    refine ⟨?_,?_,?_,?_,?_⟩
    · rw [Directory.guards,if_pos hfailed]
    · rw [Directory.reentryCandidates,if_pos hfailed]
    · intro excluded t
      unfold Directory.eligible
      by_cases hlen : excluded.length ≤ 64
      · exact ⟨_,by simp [require,hlen,hfailed]; rfl⟩
      · exact ⟨_,by simp [require,hlen]; rfl⟩
    · exact ⟨_,by simp [Directory.encodePrivate,require,hfailed]; rfl⟩
    · intro later event
      cases hrun : exec allowed later event d with
      | mk result d' =>
          cases result with
          | ok reply =>
              rw [(exec_ok hrun).1] at hfailed
              cases hfailed
          | error f =>
              rcases (exec_aborts hs event f d' hrun).2.2 with rfl | ⟨hp,-⟩
              · exact ⟨f,rfl⟩
              · rw [hp] at hfailed
                cases hfailed
  restores later hle := by
    obtain ⟨henc,hcanon,hrestore⟩ := hs.restores hle
    refine ⟨_,henc,fun hp => ?_,_,hrestore,rfl,hcanon⟩
    rw [Directory.encodePrivate,require,if_pos hp]
    exact henc

/-- Every directory that careful calls lead to is safe and can be restored. -/
theorem directory_upheld (allowed : IpAddr → Bool) (now : ℕ) (d : Directory)
    (h : Reached allowed now d) : Upheld allowed now d :=
  (reached_sound h).upheld

def sampleRelay (n expires : ℕ) : Introduction where
  addr := .v4 (Primitives.pad 4 [1,Fin.ofNat 256 n,0,1]) 443
  serviceId := Primitives.pad 32 [Fin.ofNat 256 (n+1)]
  reentryCap := Primitives.pad 32 [1]
  entryCap := Primitives.pad 32 [2]
  transitCap := Primitives.pad 32 [3]
  expiresAt := Fin.ofNat _ expires

def sampleRun (now : ℕ) (events : List Event) (d : Directory) : Directory :=
  events.foldl (fun d e => (exec (fun _ => true) now e d).2) d

theorem directory_upheld_sample :
    Careful View.empty (.remember ⟨[sampleRelay 0 900,sampleRelay 1 950]⟩ none) ∧
    Upheld (fun _ => true) 500 (sampleRun 500
      [.remember ⟨[sampleRelay 0 900,sampleRelay 1 950]⟩ none] Directory.new) := by
  have hc : Careful View.empty (.remember ⟨[sampleRelay 0 900,sampleRelay 1 950]⟩ none) := by
    refine .inr ?_
    intro r _ old hold
    cases hold
  exact ⟨hc,directory_upheld _ 500 _ (.call (.new 500) le_rfl hc)⟩

/-- Two services that differ in the scope of their address only. -/
def scopedServices : List (SocketAddr × Block 32) :=
  [(.v6 (Primitives.pad 16 [32,1]) 443 0 1,Primitives.pad 32 [9]),
    (.v6 (Primitives.pad 16 [32,1]) 443 0 2,Primitives.pad 32 [9])]

/-- Sixty-four relays in bundles of eight; the first one expires first. -/
def fullDirectory : Directory :=
  sampleRun 500 ((List.range 8).map (fun k => .remember ⟨(List.range 8).map (fun i =>
    sampleRelay (8*k+i) (900+8*k+i))⟩ none)) Directory.new

/-- A new relay and an older introduction of the relay that expires first. -/
def agingBundle : BootstrapBundle := ⟨[sampleRelay 200 990,sampleRelay 0 890]⟩

def storedExpiry (d : Directory) (pin : Block 32) : Option U64 :=
  (d.view.find pin).map Introduction.expiresAt

set_option maxRecDepth 20000 in
theorem careless_calls_break_directory :
    (exec (fun _ => true) 500 (.setOwnServices scopedServices none) Directory.new).1 = .ok .done ∧
    (sampleRun 500 [.setOwnServices scopedServices none] Directory.new).encodePrivate.bind
      (fun bytes => (restoreWithPolicy (fun _ => true) bytes 500).map Directory.view) =
        .error "invalid private GC/2 own service" ∧
    (exec (fun _ => true) 500 (.remember agingBundle none) fullDirectory).1 = .ok (.remembered 2) ∧
    storedExpiry fullDirectory (sampleRelay 0 0).serviceId = some 900 ∧
    storedExpiry (sampleRun 500 [.remember agingBundle none] fullDirectory)
      (sampleRelay 0 0).serviceId = some 890 := by
  refine ⟨by decide +kernel,by decide +kernel,by decide +kernel,by decide +kernel,by decide +kernel⟩

end Gcoms.DirectorySafety
