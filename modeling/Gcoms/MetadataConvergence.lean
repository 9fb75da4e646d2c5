import Gcoms.ChannelMetadata

/-!
# Convergence of channel metadata

The members of a channel prepare updates, receive each other's packets in any
order and any number of times, and seed each other with snapshots. Over runs in
which the roster and the authorities stay as they are and the channel stays
open, every member displays the newest of the updates that reached it, so two
members that the same updates reached display the same.
-/
namespace Gcoms.MetadataConvergence
open ByteCodec ChannelMetadata Commands Fallible NewestEntries SortedMaps

/-! ## The members of a channel -/

local instance blockLawfulBEq : LawfulBEq (Block 32) := inferInstance

/-- A fixed roster with its owner and administrators. -/
structure Config where
  roster : List (Block 32)
  owner : Option (Block 32)
  admins : List (Block 32)

def Config.role (c : Config) (own : Block 32) (metadata : Bytes) : ChannelRole :=
  ⟨own,c.roster,c.owner,c.admins,metadata⟩

def Config.admin (c : Config) (member : Block 32) : Bool := c.owner = some member || member ∈ c.admins

/-- What every member stores. The rest is history: the updates that reached each member,
directly or in a snapshot, those ever prepared, and the snapshots with what they held. -/
structure World where
  stored : Block 32 → Bytes
  received : Block 32 → Set Authored
  sent : Set Authored
  taken : Set (Block 32 × Metadata × Set Authored)

def World.start : World := ⟨fun _ => [],fun _ => ∅,∅,∅⟩

def World.role (w : World) (c : Config) (i : Block 32) : ChannelRole := c.role i (w.stored i)

def World.absorb (w : World) (i : Block 32) (metadata : Bytes) (Q : Set Authored) : World :=
  {w with
    stored := Function.update w.stored i metadata
    received := Function.update w.received i (w.received i ∪ Q)}

/-- The changes that concern the display or announce a departure. -/
def Display : ChannelChange → Prop
  | .topic _ | .nickname _ | .leave => True
  | .transfer _ | .close => False

section Worlds
variable (E : Env) (c : Config)

/-- A member prepares an update, a member receives an update of anybody, an administrator
takes a snapshot, and a member receives a snapshot. Packets may be received in any order
and any number of times. -/
inductive Step : World → World → Prop
  | prepare (w : World) (i : Block 32) (change : ChannelChange) (wire : Bytes) (u : Update)
      (r' : ChannelRole) (hi : i ∈ c.roster) (hdisplay : Display change)
      (h : prepare E change (w.role c i) = (.ok wire,r'))
      (hu : E.decodePacket wire = some (.update u)) :
      Step w {w.absorb i r'.metadata {(i,u)} with sent := w.sent ∪ {(i,u)}}
  | deliver (w : World) (i : Block 32) (p : Authored) (r' : ChannelRole) (hi : i ∈ c.roster)
      (hp : p ∈ w.sent)
      (h : receive E p.1 (E.encodePacket (.update p.2)) (w.role c i) = (.ok (),r')) :
      Step w (w.absorb i r'.metadata {p})
  | take (w : World) (i : Block 32) (wire : Bytes) (n : Metadata) (hi : i ∈ c.roster)
      (hadmin : c.admin i = true) (h : snapshot E (w.role c i) = .ok wire)
      (hn : E.decodePacket wire = some (.snapshot n)) :
      Step w {w with taken := w.taken ∪ {(i,n,w.received i)}}
  | seed (w : World) (i : Block 32) (s : Block 32 × Metadata × Set Authored) (r' : ChannelRole)
      (hi : i ∈ c.roster) (hs : s ∈ w.taken)
      (h : receive E s.1 (E.encodePacket (.snapshot s.2.1)) (w.role c i) = (.ok (),r')) :
      Step w (w.absorb i r'.metadata s.2.2)

def Reached (w : World) : Prop := Relation.ReflTransGen (Step E c) World.start w

/-- An update that was prepared. -/
structure Prepared (p : Authored) : Prop where
  honest : ∀ own metadata, Honest (c.role own metadata) p
  size : (E.encodePacket (.update p.2)).length ≤ maxUpdateBytes

structure Taken (w : World) (s : Block 32 × Metadata × Set Authored) : Prop where
  admin : c.admin s.1 = true
  size : (E.encodePacket (.snapshot s.2.1)).length ≤ maxUpdateBytes
  sent : s.2.2 ⊆ w.sent
  reflects : Reflects c.roster s.2.2 s.2.1

structure Inv (w : World) : Prop where
  member : ∀ i ∈ c.roster, ∃ m, read E (w.role c i) = .ok m ∧ Reflects c.roster (w.received i) m
  sent : ∀ p ∈ w.sent, Prepared E c p
  received : ∀ i, w.received i ⊆ w.sent
  own : ∀ p ∈ w.sent, p ∈ w.received p.1
  taken : ∀ s ∈ w.taken, Taken E c w s
  topic : Set.InjOn topicStamp (topics w.sent)
  nickname : ∀ k, Set.InjOn Value.sequence (nicknames w.sent k)

end Worlds

/-! ### Runs -/

section Runs
variable {E : Env} {c : Config} {w : World}

theorem inv_start : Inv E c World.start where
  member i _ := by
    refine ⟨Metadata.initial,by simp [ChannelMetadata.read,World.role,World.start,Config.role],rfl,?_,fun _ => ⟨rfl,rfl⟩,?_,?_⟩
    · have hnone : topics ∅ = ∅ := by simp [topics]
      simp only [World.start,hnone]
      exact newest_empty
    · intro k _
      have hnone : nicknames ∅ k = ∅ := by simp [nicknames]
      simp only [World.start,hnone]
      exact newest_empty
    · intro key v hv
      simp [Metadata.initial] at hv
  sent p hp := absurd hp (Set.notMem_empty p)
  received i := Set.empty_subset _
  own p hp := absurd hp (Set.notMem_empty p)
  taken s hs := absurd hs (Set.notMem_empty s)
  topic := by simp [World.start,topics]
  nickname k := by simp [World.start,nicknames]

/-- A member that absorbs some of the updates sent keeps the invariant. -/
theorem inv_absorb (hw : Inv E c w) {i : Block 32} {x : Op Unit} {r' : ChannelRole}
    {Q S : Set Authored} (habsorbs : Absorbs E (w.role c i) (w.received i) Q x)
    (h : x (w.role c i) = (.ok (),r')) (hQ : Q ⊆ S) (hS : w.sent ⊆ S)
    (hsent : ∀ p ∈ S, Prepared E c p) (hown : ∀ p ∈ S, p ∈ w.sent ∨ p.1 = i ∧ p ∈ Q)
    (htopic : Set.InjOn topicStamp (topics S))
    (hnickname : ∀ k, Set.InjOn Value.sequence (nicknames S k)) :
    Inv E c {w.absorb i r'.metadata Q with sent := S} where
  member j hj := by
    by_cases hij : j = i
    · subst hij
      obtain ⟨m',hm',hreflects⟩ | herror := habsorbs.outcome
      · rw [h] at hm'
        obtain rfl := (Prod.mk.inj hm').2
        refine ⟨m',?_,?_⟩
        · simp only [World.role,World.absorb,Function.update_self]
          exact read_stored E (w.role c j) m'
        · simp only [World.absorb,Function.update_self]
          exact hreflects
      · rw [h] at herror
        exact absurd (Prod.mk.inj herror).1 (by simp)
    · obtain ⟨m,hm,hreflects⟩ := hw.member j hj
      refine ⟨m,?_,?_⟩
      · simp only [World.role,World.absorb,Function.update_of_ne hij]
        exact hm
      · simp only [World.absorb,Function.update_of_ne hij]
        exact hreflects
  sent := hsent
  received j := by
    by_cases hij : j = i
    · subst hij
      simp only [World.absorb,Function.update_self]
      exact Set.union_subset ((hw.received j).trans hS) hQ
    · simp only [World.absorb,Function.update_of_ne hij]
      exact (hw.received j).trans hS
  own p hp := by
    have hmono : w.received p.1 ⊆ (w.absorb i r'.metadata Q).received p.1 := by
      by_cases hi : p.1 = i
      · simp only [World.absorb,hi,Function.update_self]
        exact Set.subset_union_left
      · simp only [World.absorb,Function.update_of_ne hi]
        exact subset_rfl
    obtain hold | ⟨hi,hmem⟩ := hown p hp
    · exact hmono (hw.own p hold)
    · simp only [World.absorb,hi,Function.update_self]
      exact .inr hmem
  taken s hs := by
    have ht := hw.taken s hs
    exact ⟨ht.admin,ht.size,ht.sent.trans hS,ht.reflects⟩
  topic := htopic
  nickname := hnickname

theorem inv_deliver (hw : Inv E c w) {i : Block 32} {p : Authored} {r' : ChannelRole}
    (hi : i ∈ c.roster) (hp : p ∈ w.sent)
    (h : receive E p.1 (E.encodePacket (.update p.2)) (w.role c i) = (.ok (),r')) :
    Inv E c (w.absorb i r'.metadata {p}) := by
  obtain ⟨m,hm,hreflects⟩ := hw.member i hi
  have hprepared := hw.sent p hp
  have habsorbs := absorbs_update (E := E) hm hreflects (hprepared.honest i _) hprepared.size
  exact inv_absorb hw habsorbs h (Set.singleton_subset_iff.mpr hp) subset_rfl hw.sent
    (fun _ hq => .inl hq) hw.topic hw.nickname

theorem absorbs_taken (hw : Inv E c w) {i : Block 32} {s : Block 32 × Metadata × Set Authored}
    (hi : i ∈ c.roster) (hs : s ∈ w.taken) :
    Absorbs E (w.role c i) (w.received i) s.2.2
      (receive E s.1 (E.encodePacket (.snapshot s.2.1))) := by
  obtain ⟨m,hm,hreflects⟩ := hw.member i hi
  have ht := hw.taken s hs
  exact absorbs_snapshot hm hreflects ht.reflects
    (fun p hp => (hw.sent p (ht.sent hp)).honest i _) ht.admin ht.size

theorem inv_seed (hw : Inv E c w) {i : Block 32} {s : Block 32 × Metadata × Set Authored}
    {r' : ChannelRole} (hi : i ∈ c.roster) (hs : s ∈ w.taken)
    (h : receive E s.1 (E.encodePacket (.snapshot s.2.1)) (w.role c i) = (.ok (),r')) :
    Inv E c (w.absorb i r'.metadata s.2.2) :=
  inv_absorb hw (absorbs_taken hw hi hs) h (hw.taken s hs).sent subset_rfl hw.sent
    (fun _ hq => .inl hq) hw.topic hw.nickname

theorem inv_take (hw : Inv E c w) {i : Block 32} {wire : Bytes} {n : Metadata} (hi : i ∈ c.roster)
    (hadmin : c.admin i = true) (h : snapshot E (w.role c i) = .ok wire)
    (hn : E.decodePacket wire = some (.snapshot n)) :
    Inv E c {w with taken := w.taken ∪ {(i,n,w.received i)}} where
  member := hw.member
  sent := hw.sent
  received := hw.received
  own := hw.own
  topic := hw.topic
  nickname := hw.nickname
  taken s hs := by
    obtain hs | hs := hs
    · have ht := hw.taken s hs
      exact ⟨ht.admin,ht.size,ht.sent,ht.reflects⟩
    · obtain rfl := Set.mem_singleton_iff.mp hs
      obtain ⟨m,hm,hreflects⟩ := hw.member i hi
      simp only [snapshot,hm,sequence_eq_ok,Except.ok.injEq,exists_eq_left',require_eq_ok,
        done_eq_ok] at h
      obtain ⟨_,hsize,rfl⟩ := h
      rw [E.decode_encodePacket] at hn
      have hnames : m.nicknames.retain (fun key _ => (w.role c i).known key) = m.nicknames :=
        Reflects.retain (r := w.role c i) hreflects
      rw [hnames] at hn hsize
      obtain rfl : m = n := by simpa using hn
      exact ⟨hadmin,hsize,hw.received i,hreflects⟩

/-! The stamps that `prepare` gives are new. -/

theorem successor_lt {n s : U64} (h : successor n = some s) : n < s := by
  unfold successor at h
  split_ifs at h with hlt
  obtain rfl := Option.some.inj h
  exact Fin.lt_def.mpr (Nat.lt_succ_self _)

theorem prepare_ok {r r' : ChannelRole} {m : Metadata} {change : ChannelChange} {wire : Bytes}
    (hread : read E r = .ok m) (hdisplay : Display change)
    (h : prepare E change r = (.ok wire,r')) :
    ∃ s, successor (previous m r.own change) = some s ∧
      wire = E.encodePacket (.update ⟨1,s,change⟩) ∧ receive E r.own wire r = (.ok (),r') := by
  simp only [prepare,attempt_bind_ok,read_id_bind,hread,Except.ok.injEq,exists_eq_left',
    demand_bind_ok] at h
  obtain ⟨_,_,_,h⟩ := h
  have hupdate : prepareUpdate E m r.own change r = (.ok wire,r') := by
    cases change with
    | transfer next => exact hdisplay.elim
    | close => exact hdisplay.elim
    | topic text => exact h
    | nickname text => exact h
    | leave => exact h
  simp only [prepareUpdate,obtain_bind_ok] at hupdate
  obtain ⟨s,hs,hupdate⟩ := hupdate
  simp only [bind_ok,pure_ok] at hupdate
  obtain ⟨_,r₁,hreceive,rfl,rfl⟩ := hupdate
  exact ⟨s,hs,rfl,hreceive⟩

theorem receive_size {r r' : ChannelRole} {actor : Block 32} {wire : Bytes}
    (h : receive E actor wire r = (.ok (),r')) : wire.length ≤ maxUpdateBytes := by
  simp only [receive,demand_bind_ok] at h
  exact h.1

theorem injOn_union_singleton {α β : Type} {f : α → β} {s : Set α} {a : α} (h : Set.InjOn f s)
    (hfresh : ∀ b ∈ s, f b ≠ f a) : Set.InjOn f (s ∪ {a}) := by
  rintro x (hx | hx) y (hy | hy) heq
  · exact h hx hy heq
  · exact absurd (heq.trans (congrArg f hy)) (hfresh x hx)
  · exact absurd (heq.symm.trans (congrArg f hx)) (hfresh y hy)
  · exact hx.trans hy.symm

theorem topic_fresh (hw : Inv E c w) {i : Block 32} {m : Metadata} {s : U64} {text : String}
    (hreflects : Reflects c.roster (w.received i) m)
    (hs : successor (previous m i (.topic text)) = some s) :
    ∀ e ∈ topics w.sent, topicStamp e ≠ topicStamp (⟨s,text⟩,memberId i) := by
  rintro e ⟨a,u,hu,hchange,hseq,hactor⟩ heq
  have hstamp := Prod.mk.inj (toLex.injective heq)
  obtain rfl : a = i := memberId_injective (hactor.symm.trans hstamp.2)
  -- the author has received its own update, so its topic is at least as late
  obtain ⟨b,hb,hle⟩ := hreflects.topic.2 e ⟨a,u,hw.own _ hu,hchange,hseq,hactor⟩
  rw [topicEntry_eq] at hb
  split_ifs at hb with hzero
  · exact absurd hb (by simp)
  · obtain rfl := Option.some.inj hb
    have hlt := successor_lt hs
    have hseqle : e.1.sequence ≤ m.topic.sequence := by
      obtain h | h := Prod.Lex.toLex_le_toLex.mp hle
      · exact h.le
      · exact h.1.le
    rw [hstamp.1] at hseqle
    exact absurd hlt (not_lt.mpr hseqle)

theorem nickname_fresh (hw : Inv E c w) {i : Block 32} {m : Metadata} {s : U64} {text : String}
    (hi : i ∈ c.roster) (hreflects : Reflects c.roster (w.received i) m)
    (hs : successor (previous m i (.nickname text)) = some s) :
    ∀ v ∈ nicknames w.sent i, v.sequence ≠ s := by
  rintro v ⟨u,hu,hchange,hseq⟩ heq
  obtain ⟨b,hb,hle⟩ := (hreflects.nickname i hi).2 v ⟨u,hw.own _ hu,hchange,hseq⟩
  have hlt := successor_lt hs
  rw [Option.mem_def] at hb
  simp only [previous,hb,Option.map_some,Option.getD_some] at hlt
  rw [heq] at hle
  exact absurd hlt (not_lt.mpr hle)

theorem inv_prepare (hw : Inv E c w) {i : Block 32} {change : ChannelChange} {wire : Bytes}
    {u : Update} {r' : ChannelRole} (hi : i ∈ c.roster) (hdisplay : Display change)
    (h : prepare E change (w.role c i) = (.ok wire,r'))
    (hu : E.decodePacket wire = some (.update u)) :
    Inv E c {w.absorb i r'.metadata {(i,u)} with sent := w.sent ∪ {(i,u)}} := by
  obtain ⟨m,hm,hreflects⟩ := hw.member i hi
  obtain ⟨s,hs,rfl,hreceive⟩ := prepare_ok hm hdisplay h
  rw [E.decode_encodePacket] at hu
  obtain rfl : (⟨1,s,change⟩ : Update) = u := by simpa using hu
  have hsize := receive_size hreceive
  have hupdate := hreceive
  rw [receive_run hsize hm hreflects.opened] at hupdate
  have hhonest : Honest (w.role c i) (i,⟨1,s,change⟩) := by
    apply receiveUpdate_ok hm _ _ hupdate
    · rintro next rfl
      exact hdisplay
    · rintro rfl
      exact hdisplay
  have hprepared : Prepared E c (i,⟨1,s,change⟩) :=
    ⟨fun own metadata => hhonest.move rfl rfl rfl,hsize⟩
  have habsorbs := absorbs_update (E := E) hm hreflects hhonest hsize
  apply inv_absorb hw habsorbs hreceive Set.subset_union_right Set.subset_union_left
  · rintro p (hp | hp)
    · exact hw.sent p hp
    · rw [Set.mem_singleton_iff.mp hp]
      exact hprepared
  · rintro p (hp | hp)
    · exact .inl hp
    · exact .inr ⟨congrArg Prod.fst (Set.mem_singleton_iff.mp hp),hp⟩
  · rw [topics_union]
    cases hchange : change with
    | topic text =>
        subst hchange
        rw [topics_singleton rfl]
        exact injOn_union_singleton hw.topic (topic_fresh hw hreflects hs)
    | nickname text =>
        rw [topics_singleton_of_ne (by simp),Set.union_empty]
        exact hw.topic
    | leave =>
        rw [topics_singleton_of_ne (by simp),Set.union_empty]
        exact hw.topic
    | transfer next =>
        subst hchange
        exact hdisplay.elim
    | close =>
        subst hchange
        exact hdisplay.elim
  · intro k
    rw [nicknames_union]
    by_cases hnick : k = i ∧ ∃ text, change = .nickname text
    · obtain ⟨rfl,text,rfl⟩ := hnick
      rw [nicknames_singleton rfl]
      exact injOn_union_singleton (hw.nickname k) (nickname_fresh hw hi hreflects hs)
    · rw [nicknames_singleton_of_ne (fun hk text ht => hnick ⟨hk,text,ht⟩),Set.union_empty]
      exact hw.nickname k

theorem inv_step {w' : World} (hw : Inv E c w) (h : Step E c w w') : Inv E c w' := by
  cases h with
  | prepare i change wire u r' hi hdisplay h hu => exact inv_prepare hw hi hdisplay h hu
  | deliver i p r' hi hp h => exact inv_deliver hw hi hp h
  | take i wire n hi hadmin h hn => exact inv_take hw hi hadmin h hn
  | seed i s r' hi hs h => exact inv_seed hw hi hs h

theorem inv_reached (h : Reached E c w) : Inv E c w := by
  induction h with
  | refl => exact inv_start
  | tail _ hstep ih => exact inv_step ih hstep

end Runs

/-! ## Convergence -/

/-- The same topic, of the same author, and the same nicknames. -/
structure SameDisplay (m n : Metadata) : Prop where
  topic : m.topic = n.topic
  topicActor : m.topicActor = n.topicActor
  nicknames : m.nicknames = n.nicknames

/-- What reflects the same updates displays the same. -/
theorem sameDisplay_of_reflects {roster : List (Block 32)} {R : Set Authored} {m n : Metadata}
    (hm : Reflects roster R m) (hn : Reflects roster R n) (htopic : Set.InjOn topicStamp (topics R))
    (hnickname : ∀ k, Set.InjOn Value.sequence (nicknames R k)) : SameDisplay m n := by
  have hentry := hm.topic.unique htopic hn.topic
  have hboth : m.topic = n.topic ∧ m.topicActor = n.topicActor := by
    rw [topicEntry_eq,topicEntry_eq] at hentry
    split_ifs at hentry with h₁ h₂ h₂
    · obtain ⟨ht,ha⟩ := hm.blank h₁
      obtain ⟨ht',ha'⟩ := hn.blank h₂
      refine ⟨?_,ha.trans ha'.symm⟩
      cases hmt : m.topic
      cases hnt : n.topic
      simp_all
    · exact Prod.mk.inj (Option.some.inj hentry)
  refine ⟨hboth.1,hboth.2,SortedMap.ext_find? fun key => ?_⟩
  by_cases hkey : ∃ k ∈ roster, memberId k = key
  · obtain ⟨k,hk,rfl⟩ := hkey
    exact (hm.nickname k hk).unique (hnickname k) (hn.nickname k hk)
  · have hnone : ∀ {m : Metadata}, Reflects roster R m → m.nicknames.find? key = none := by
      intro m hm
      cases hfind : m.nicknames.find? key with
      | none => rfl
      | some v => exact absurd (hm.known key v hfind) hkey
    rw [hnone hm,hnone hn]

section Convergence
variable (E : Env) (c : Config)

/-- What holds in every world that the members of a channel reach. -/
structure Converges (w : World) : Prop where
  latest : ∀ i ∈ c.roster, ∃ m, read E (w.role c i) = .ok m ∧
    Newest topicStamp (topics (w.received i)) m.topicEntry ∧
    ∀ k ∈ c.roster, Newest Value.sequence (nicknames (w.received i) k)
      (m.nicknames.find? (memberId k))
  unambiguous : Set.InjOn topicStamp (topics w.sent) ∧
    ∀ k, Set.InjOn Value.sequence (nicknames w.sent k)
  agree : ∀ i ∈ c.roster, ∀ j ∈ c.roster, w.received i = w.received j →
    ∀ m n, read E (w.role c i) = .ok m → read E (w.role c j) = .ok n → SameDisplay m n
  again : ∀ i ∈ c.roster, ∀ p ∈ w.received i, ∀ m m', read E (w.role c i) = .ok m →
    read E (receive E p.1 (E.encodePacket (.update p.2)) (w.role c i)).2 = .ok m' → SameDisplay m m'
  againSnapshot : ∀ i ∈ c.roster, ∀ s ∈ w.taken, s.2.2 ⊆ w.received i →
    ∀ m m', read E (w.role c i) = .ok m →
      read E (receive E s.1 (E.encodePacket (.snapshot s.2.1)) (w.role c i)).2 = .ok m' →
        SameDisplay m m'
  accepted : ∀ i ∈ c.roster, ∀ e,
    (∀ p ∈ w.sent, (receive E p.1 (E.encodePacket (.update p.2)) (w.role c i)).1 = .error e →
      e = "malformed encoding") ∧
    (∀ s ∈ w.taken, (receive E s.1 (E.encodePacket (.snapshot s.2.1)) (w.role c i)).1 = .error e →
      e = "malformed encoding")
  spared : ∀ i ∈ c.roster, ∀ actor wire, c.admin actor = false → ∃ m m',
    read E (w.role c i) = .ok m ∧ read E (receive E actor wire (w.role c i)).2 = .ok m' ∧
      Spared actor m m'

end Convergence

section Converging
variable {E : Env} {c : Config} {w : World}

theorem topics_mono {R S : Set Authored} (h : R ⊆ S) : topics R ⊆ topics S := by
  rintro e ⟨a,u,hu,he⟩
  exact ⟨a,u,h hu,he⟩

theorem nicknames_mono {R S : Set Authored} (h : R ⊆ S) (k : Block 32) :
    nicknames R k ⊆ nicknames S k := by
  rintro v ⟨u,hu,hv⟩
  exact ⟨u,h hu,hv⟩

theorem Inv.same (hw : Inv E c w) {i : Block 32} {m n : Metadata}
    (hm : Reflects c.roster (w.received i) m) (hn : Reflects c.roster (w.received i) n) :
    SameDisplay m n := by
  apply sameDisplay_of_reflects hm hn
  · exact hw.topic.mono (topics_mono (hw.received i))
  · intro k
    exact (hw.nickname k).mono (nicknames_mono (hw.received i) k)

theorem same_of_absorbs (hw : Inv E c w) {i : Block 32} {Q : Set Authored} {x : Op Unit}
    {m m' : Metadata} (hi : i ∈ c.roster)
    (habsorbs : Absorbs E (w.role c i) (w.received i) Q x) (hQ : Q ⊆ w.received i)
    (hm : read E (w.role c i) = .ok m) (hm' : read E (x (w.role c i)).2 = .ok m') :
    SameDisplay m m' := by
  obtain ⟨m₀,hm₀,hreflects⟩ := hw.member i hi
  obtain rfl := Except.ok.inj (hm.symm.trans hm₀)
  obtain ⟨n,hn,hreflects'⟩ | herror := habsorbs.outcome
  · rw [hn,read_stored] at hm'
    obtain rfl := Except.ok.inj hm'
    rw [Set.union_eq_self_of_subset_right hQ] at hreflects'
    exact hw.same hreflects hreflects'
  · rw [herror,hm] at hm'
    obtain rfl := Except.ok.inj hm'
    exact ⟨rfl,rfl,rfl⟩

theorem refusal_of_absorbs {r : ChannelRole} {R Q : Set Authored} {x : Op Unit} {e : String}
    (habsorbs : Absorbs E r R Q x) (h : (x r).1 = .error e) : e = "malformed encoding" := by
  obtain ⟨n,hn,-⟩ | herror := habsorbs.outcome
  · rw [hn] at h
    exact absurd h (by simp)
  · rw [herror] at h
    exact (Except.error.inj h).symm

theorem converges_of_inv (hw : Inv E c w) : Converges E c w where
  latest i hi := by
    obtain ⟨m,hm,hreflects⟩ := hw.member i hi
    exact ⟨m,hm,hreflects.topic,hreflects.nickname⟩
  unambiguous := ⟨hw.topic,hw.nickname⟩
  agree i hi j hj heq m n hm hn := by
    obtain ⟨m₀,hm₀,hreflects⟩ := hw.member i hi
    obtain ⟨n₀,hn₀,hreflects'⟩ := hw.member j hj
    obtain rfl := Except.ok.inj (hm.symm.trans hm₀)
    obtain rfl := Except.ok.inj (hn.symm.trans hn₀)
    rw [← heq] at hreflects'
    exact hw.same hreflects hreflects'
  again i hi p hp m m' hm hm' := by
    obtain ⟨m₀,hm₀,hreflects⟩ := hw.member i hi
    have hprepared := hw.sent p (hw.received i hp)
    have habsorbs := absorbs_update (E := E) hm₀ hreflects (hprepared.honest i _) hprepared.size
    exact same_of_absorbs hw hi habsorbs (Set.singleton_subset_iff.mpr hp) hm hm'
  againSnapshot i hi s hs hsub m m' hm hm' :=
    same_of_absorbs hw hi (absorbs_taken hw hi hs) hsub hm hm'
  accepted i hi e := by
    constructor
    · intro p hp herror
      obtain ⟨m,hm,hreflects⟩ := hw.member i hi
      have hprepared := hw.sent p hp
      exact refusal_of_absorbs
        (absorbs_update (E := E) hm hreflects (hprepared.honest i _) hprepared.size) herror
    · intro s hs herror
      exact refusal_of_absorbs (absorbs_taken hw hi hs) herror
  spared i hi actor wire hactor := by
    obtain ⟨m,hm,hreflects⟩ := hw.member i hi
    obtain ⟨m',hm',hspared⟩ := receive_spared (r := w.role c i) wire hm hreflects hactor
    exact ⟨m,m',hm,hm',hspared⟩

end Converging

/-! ## Serializers

Serializers with the assumed laws exist, since the values are countably many. -/

section Serializers

instance countableString : Countable String := by
  have hchar : Countable Char :=
    Function.Injective.countable (f := Char.toNat) fun _ _ h => Char.toNat_inj.mp h
  exact Function.Injective.countable (f := String.toList) fun _ _ h => String.toList_injective h

instance countableSortedMap : Countable (SortedMap String Value) := by
  have hvalue : Countable Value := by
    apply Function.Injective.countable (f := fun v : Value => (v.sequence,v.text))
    rintro ⟨_,_⟩ ⟨_,_⟩ h
    simpa using h
  apply Function.Injective.countable (f := fun m : SortedMap String Value => m.entries)
  rintro ⟨_,_⟩ ⟨_,_⟩ rfl
  rfl

deriving instance Countable for Value
deriving instance Countable for Metadata
deriving instance Countable for ChannelChange
deriving instance Countable for Update
deriving instance Countable for Packet

/-- A serializer of countably many values, into zeros. -/
theorem exists_serializer (α : Type) [Countable α] : ∃ (encode : α → Bytes)
    (decode : Bytes → Option α), (∀ a, decode (encode a) = some a) ∧ ∀ a, encode a ≠ [] := by
  obtain ⟨index,hindex⟩ := Countable.exists_injective_nat α
  have hinjective : Function.Injective fun a => List.replicate (index a+1) (0 : Byte) := by
    intro a b h
    apply hindex
    simpa using congrArg List.length h
  exact ⟨_,Function.partialInv _,Function.partialInv_left hinjective,fun a => by simp⟩

theorem env_nonempty : Nonempty Env := by
  obtain ⟨encodePacket,decodePacket,hpacket,-⟩ := exists_serializer Packet
  obtain ⟨encodeMetadata,decodeMetadata,hmetadata,hnonempty⟩ := exists_serializer Metadata
  exact ⟨⟨encodePacket,decodePacket,encodeMetadata,decodeMetadata,fun _ => "",fun _ => none,
    fun _ _ => .error "",fun _ _ _ => .error "",hpacket,hmetadata,hnonempty,fun _ _ _ _ h => by
      simp at h⟩⟩

end Serializers

/-- The display of a channel converges in every run of its members. -/
def Convergent (E : Env) (c : Config) : Prop := ∀ w, Reached E c w → Converges E c w

theorem display_converges (E : Env) (c : Config) : Convergent E c := by
  intro w h
  exact converges_of_inv (inv_reached h)

end Gcoms.MetadataConvergence
