import Gcoms.ByteStrings
import Gcoms.DirectoryStorage

/-!
# Relay paths

A route has an entry, three middle relays and a terminal. The middles are chosen
from the eligible relays of the directory by a search over all ordered triples,
and the whole route is validated before any stream is opened. The search fails
only if there are no three independent relays, and what it finds is valid.
-/
namespace Gcoms.RelayPaths
open ByteCodec ByteStrings Primitives Fallible RelayDirectory

abbrev Service := SocketAddr × Block 32

def conflicts (a b : Service) : Bool := a.1.ip = b.1.ip || a.2 = b.2

/-! ## Targets -/

inductive Target where
  | relay (addr : SocketAddr) (serviceId : Block 32)
  | https (host : String) (port : U16)

section Targets
variable (parsesAsIp : String → Bool)

def Target.encode : Target → Bytes
  | .relay addr serviceId => [1]++(encodeAddress addr++serviceId.toList)
  | .https host port => [2]++(bigEndian 2 port++utf8 host)

/-- A lowercase letter, a digit or a hyphen. -/
def hostByte (c : Byte) : Bool := (97 ≤ c ∧ c ≤ 122) ∨ (48 ≤ c ∧ c ≤ 57) ∨ c = 45

def validLabel (label : Bytes) : Bool :=
  label ≠ [] ∧ label.length ≤ 63 ∧ label.head? ≠ some 45 ∧ label.getLast? ≠ some 45 ∧
    label.all hostByte

local instance byteLawfulBEq : LawfulBEq Byte := inferInstance

/-- A host name with a dot that is not an IP address. -/
def validHost (host : String) : Bool :=
  (utf8 host).length ≤ 253 ∧ 46 ∈ utf8 host ∧ ((utf8 host).splitOn 46).all validLabel ∧
    parsesAsIp host = false

def Target.decode (bytes : Bytes) : Except String Target :=
  if bytes.head? = some 1 ∧ bytes.length = 52 then do
    let addr ← decodeAddress (slice bytes 1 20)
    let serviceId := pad 32 (bytes.drop 20)
    require (serviceId ≠ zeroId) "missing relay pin"
    return .relay addr serviceId
  else if bytes.head? = some 2 ∧ 4 ≤ bytes.length ∧ bytes.length ≤ 256 then do
    let port := readBigEndian (slice bytes 1 3)
    let host ← found "invalid utf-8" (fromUtf8 (bytes.drop 3))
    require (port = 443 ∧ validHost parsesAsIp host = true) "invalid HTTPS origin"
    return .https host (Fin.ofNat _ port)
  else .error "invalid carrier target"

end Targets

/-! ## Middles -/

structure TransitDescriptor where
  addr : SocketAddr
  serviceId : Block 32
  transitCap : Block 32
  expiresAt : U64

def TransitDescriptor.validate (t : TransitDescriptor) (now : ℕ) : Except String Unit := do
  let _ ← decodeAddress (encodeAddress t.addr)
  require (¬(t.serviceId = zeroId ∨ t.transitCap = zeroId ∨ t.expiresAt.val ≤ now))
    "invalid or expired GC/2 transit authority"

def descriptor (r : Introduction) : TransitDescriptor :=
  ⟨r.addr,r.serviceId,r.transitCap,r.expiresAt⟩

def transit (r : Introduction) (now : ℕ) : Except String TransitDescriptor := do
  r.fresh now
  return descriptor r

/-- Three middle hops. -/
structure MiddlePath where
  first : TransitDescriptor
  second : TransitDescriptor
  third : TransitDescriptor

def MiddlePath.toList (p : MiddlePath) : List TransitDescriptor := [p.first,p.second,p.third]

/-- Each middle is valid and independent of the services before it. -/
def validateMiddles (now : ℕ) (preceding : List Service) :
    List TransitDescriptor → Except String (List Service)
  | [] => .ok preceding
  | middle::rest => do
      middle.validate now
      let service := (middle.addr,middle.serviceId)
      require (¬(preceding.any (conflicts service) = true))
        "GC/2 route repeats a relay identity or IP"
      validateMiddles now (preceding++[service]) rest

def Target.conflicts (target : Target) (service : Service) : Bool :=
  match target with
  | .relay addr serviceId => RelayPaths.conflicts service (addr,serviceId)
  | .https _ _ => false

def validateEnds (target : Target) (excluded : List Service) : List Service → Except String Unit
  | [] => .ok ()
  | service::rest => do
      require (¬(excluded.any (conflicts service) = true ∨ target.conflicts service = true))
        "GC/2 route conflicts with an endpoint or exclusion"
      validateEnds target excluded rest

def validate (parsesAsIp : String → Bool) (entry : Service) (middles : MiddlePath) (target : Target)
    (excluded : List Service) (now : ℕ) : Except String Unit := do
  require (excluded.length ≤ 64) "too many GC/2 route exclusions"
  let _ ← Target.decode parsesAsIp target.encode
  let preceding ← validateMiddles now [entry] middles.toList
  validateEnds target excluded preceding

/-! ## Selection -/

def selectThird (entry : Service) (a b : Introduction) (now : ℕ) :
    List Introduction → Except String (Option MiddlePath)
  | [] => .ok none
  | c::rest =>
      if c.conflicts entry.1 entry.2 = false ∧ c.conflicts a.addr a.serviceId = false ∧
          c.conflicts b.addr b.serviceId = false then do
        let first ← transit a now
        let second ← transit b now
        let third ← transit c now
        return some ⟨first,second,third⟩
      else selectThird entry a b now rest

def selectSecond (entry : Service) (a : Introduction) (now : ℕ) :
    List Introduction → Except String (Option MiddlePath)
  | [] => .ok none
  | b::rest =>
      if b.conflicts entry.1 entry.2 = true ∨ b.conflicts a.addr a.serviceId = true then
        selectSecond entry a now rest
      else do
        match ← selectThird entry a b now rest with
        | some path => return some path
        | none => selectSecond entry a now rest

def select (entry : Service) (now : ℕ) : List Introduction → Except String (Option MiddlePath)
  | [] => .ok none
  | a::rest =>
      if a.conflicts entry.1 entry.2 = true then select entry now rest
      else do
        match ← selectSecond entry a now rest with
        | some path => return some path
        | none => select entry now rest

/-! ## Independent relays -/

def Clear (r : Introduction) (s : Service) : Prop := r.conflicts s.1 s.2 = false

/-- No two of the relays share an address or a service, and none does with the entry. -/
def Independent (entry : Service) (relays : List Introduction) : Prop :=
  (∀ r ∈ relays, Clear r entry) ∧ relays.Pairwise fun a b => Clear b (a.addr,a.serviceId)

section Independence
variable {entry : Service} {a b c : Introduction} {l : List Introduction} {now : ℕ}

theorem clear_iff {s : Service} : Clear a s ↔ a.addr.ip ≠ s.1.ip ∧ a.serviceId ≠ s.2 := by
  simp [Clear,Introduction.conflicts]

theorem clear_symm (h : Clear b (a.addr,a.serviceId)) : Clear a (b.addr,b.serviceId) := by
  have hne := clear_iff.mp h
  exact clear_iff.mpr ⟨hne.1.symm,hne.2.symm⟩

theorem independent_three : Independent entry [a,b,c] ↔
    Clear a entry ∧ (Clear b entry ∧ Clear b (a.addr,a.serviceId)) ∧
      Clear c entry ∧ Clear c (a.addr,a.serviceId) ∧ Clear c (b.addr,b.serviceId) := by
  simp only [Independent,List.mem_cons,List.not_mem_nil,or_false,forall_eq_or_imp,forall_eq,
    List.pairwise_cons,List.Pairwise.nil,and_true]
  tauto

theorem Independent.perm {m : List Introduction} (h : Independent entry l) (hp : l.Perm m) :
    Independent entry m :=
  ⟨fun r hr => h.1 r (hp.mem_iff.mpr hr),
    hp.pairwise h.2 (fun {_ _} => clear_symm)⟩

theorem Independent.nodup (h : Independent entry l) : l.Nodup := by
  refine h.2.imp fun {r s} hrs heq => ?_
  have hne := (clear_iff.mp hrs).1
  rw [heq] at hne
  exact hne rfl

/-- Three independent members stand in some order in the list. -/
theorem Independent.ordered (h : Independent entry [a,b,c]) (ha : a ∈ l) (hb : b ∈ l) (hc : c ∈ l) :
    ∃ x y z, [x,y,z].Sublist l ∧ Independent entry [x,y,z] := by
  have hsub : [a,b,c] ⊆ l := by simp [ha,hb,hc]
  obtain ⟨m,hperm,hm⟩ := h.nodup.subperm hsub
  have hlen : m.length = 3 := hperm.length_eq
  match m,hlen with
  | [x,y,z],_ => exact ⟨x,y,z,hm,h.perm hperm.symm⟩

/-! ## The search -/

theorem transit_of_fresh (h : a.fresh now = .ok ()) : transit a now = .ok (descriptor a) := by
  rw [transit,h]
  rfl

/-- The search ends without an error, and with a path exactly if there is one to find. -/
def Searches (r : Except String (Option MiddlePath)) (found : MiddlePath → Prop) : Prop :=
  (r = .ok none ∧ ∀ p, ¬found p) ∨ ∃ p, r = .ok (some p) ∧ found p

theorem Searches.congr {r : Except String (Option MiddlePath)} {f g : MiddlePath → Prop}
    (h : Searches r f) (hfg : ∀ p, f p ↔ g p) : Searches r g := by
  rcases h with ⟨hr,hnone⟩ | ⟨p,hr,hp⟩
  · exact .inl ⟨hr,fun p hp => hnone p ((hfg p).mpr hp)⟩
  · exact .inr ⟨p,hr,(hfg p).mp hp⟩

theorem Searches.orElse {r s : Except String (Option MiddlePath)} {f g : MiddlePath → Prop}
    (hr : Searches r f) (hs : Searches s g) :
    Searches (do match ← r with | some path => return some path | none => s)
      fun p => f p ∨ g p := by
  rcases hr with ⟨rfl,hf⟩ | ⟨p,rfl,hp⟩
  · exact hs.congr fun p => ⟨.inr,fun h => h.resolve_left (hf p)⟩
  · exact .inr ⟨p,rfl,.inl hp⟩

def path (a b c : Introduction) : MiddlePath := ⟨descriptor a,descriptor b,descriptor c⟩

/-- A third relay from the list. -/
def Third (entry : Service) (a b : Introduction) (l : List Introduction) (p : MiddlePath) : Prop :=
  ∃ c, [c].Sublist l ∧
    (Clear c entry ∧ Clear c (a.addr,a.serviceId) ∧ Clear c (b.addr,b.serviceId)) ∧ p = path a b c

/-- A second and a third one, in the order of the list. -/
def Second (entry : Service) (a : Introduction) (l : List Introduction) (p : MiddlePath) : Prop :=
  ∃ b c, [b,c].Sublist l ∧ (Clear b entry ∧ Clear b (a.addr,a.serviceId)) ∧
    (Clear c entry ∧ Clear c (a.addr,a.serviceId) ∧ Clear c (b.addr,b.serviceId)) ∧ p = path a b c

def First (entry : Service) (l : List Introduction) (p : MiddlePath) : Prop :=
  ∃ a b c, [a,b,c].Sublist l ∧ Independent entry [a,b,c] ∧ p = path a b c

theorem third_cons {p : MiddlePath} : Third entry a b (c::l) p ↔
    ((Clear c entry ∧ Clear c (a.addr,a.serviceId) ∧ Clear c (b.addr,b.serviceId)) ∧
      p = path a b c) ∨ Third entry a b l p := by
  constructor
  · rintro ⟨x,hx,hclear,hp⟩
    rcases List.cons_sublist_cons'.mp hx with hx | ⟨rfl,_⟩
    · exact .inr ⟨x,hx,hclear,hp⟩
    · exact .inl ⟨hclear,hp⟩
  · rintro (⟨hclear,hp⟩ | ⟨x,hx,hclear,hp⟩)
    · exact ⟨c,by simp,hclear,hp⟩
    · exact ⟨x,hx.cons c,hclear,hp⟩

theorem second_cons {p : MiddlePath} : Second entry a (b::l) p ↔
    ((Clear b entry ∧ Clear b (a.addr,a.serviceId)) ∧ Third entry a b l p) ∨
      Second entry a l p := by
  constructor
  · rintro ⟨x,y,hxy,hx,hy,hp⟩
    rcases List.cons_sublist_cons'.mp hxy with hxy | ⟨rfl,hrest⟩
    · exact .inr ⟨x,y,hxy,hx,hy,hp⟩
    · exact .inl ⟨hx,y,hrest,hy,hp⟩
  · rintro (⟨hb,y,hy,hclear,hp⟩ | ⟨x,y,hxy,hx,hy,hp⟩)
    · exact ⟨b,y,hy.cons_cons b,hb,hclear,hp⟩
    · exact ⟨x,y,hxy.cons b,hx,hy,hp⟩

theorem first_cons {p : MiddlePath} : First entry (a::l) p ↔
    (Clear a entry ∧ Second entry a l p) ∨ First entry l p := by
  constructor
  · rintro ⟨x,y,z,hxyz,hind,hp⟩
    rcases List.cons_sublist_cons'.mp hxyz with hxyz | ⟨rfl,hyz⟩
    · exact .inr ⟨x,y,z,hxyz,hind,hp⟩
    · obtain ⟨hx,hy,hz⟩ := independent_three.mp hind
      exact .inl ⟨hx,y,z,hyz,hy,hz,hp⟩
  · rintro (⟨ha,y,z,hyz,hy,hz,hp⟩ | ⟨x,y,z,hxyz,hind,hp⟩)
    · exact ⟨a,y,z,hyz.cons_cons a,independent_three.mpr ⟨ha,hy,hz⟩,hp⟩
    · exact ⟨x,y,z,hxyz.cons a,hind,hp⟩

theorem selectThird_searches (ha : a.fresh now = .ok ()) (hb : b.fresh now = .ok ())
    (hl : ∀ r ∈ l, r.fresh now = .ok ()) :
    Searches (selectThird entry a b now l) (Third entry a b l) := by
  induction l with
  | nil => exact .inl ⟨rfl,fun _ ⟨_,hsub,_⟩ => by simp at hsub⟩
  | cons c rest ih =>
      have hrest := ih fun r hr => hl r (List.mem_cons_of_mem _ hr)
      unfold selectThird
      by_cases hc : Clear c entry ∧ Clear c (a.addr,a.serviceId) ∧ Clear c (b.addr,b.serviceId)
      · rw [if_pos (by exact hc),transit_of_fresh ha,transit_of_fresh hb,
          transit_of_fresh (hl c List.mem_cons_self)]
        exact .inr ⟨_,rfl,third_cons.mpr (.inl ⟨hc,rfl⟩)⟩
      · rw [if_neg (by exact hc)]
        exact hrest.congr fun p => ⟨fun h => third_cons.mpr (.inr h),
          fun h => (third_cons.mp h).resolve_left fun hp => hc hp.1⟩

theorem selectSecond_searches (ha : a.fresh now = .ok ()) (hl : ∀ r ∈ l, r.fresh now = .ok ()) :
    Searches (selectSecond entry a now l) (Second entry a l) := by
  induction l with
  | nil => exact .inl ⟨rfl,fun _ ⟨_,_,hsub,_⟩ => by simp at hsub⟩
  | cons b rest ih =>
      have hfresh : ∀ r ∈ rest, r.fresh now = .ok () := fun r hr => hl r (List.mem_cons_of_mem _ hr)
      have hrest := ih hfresh
      unfold selectSecond
      split_ifs with hb
      · refine hrest.congr fun p => ⟨fun h => second_cons.mpr (.inr h),fun h => ?_⟩
        refine (second_cons.mp h).resolve_left fun hp => ?_
        rcases hb with hb | hb
        · exact Bool.false_ne_true (hp.1.1.symm.trans hb)
        · exact Bool.false_ne_true (hp.1.2.symm.trans hb)
      · have hclear : Clear b entry ∧ Clear b (a.addr,a.serviceId) := by
          simpa [Clear] using hb
        have hthird := @selectThird_searches entry a b rest now ha (hl b List.mem_cons_self) hfresh
        exact (hthird.orElse hrest).congr fun p => by simp [second_cons,hclear]

theorem select_searches (hl : ∀ r ∈ l, r.fresh now = .ok ()) :
    Searches (select entry now l) (First entry l) := by
  induction l with
  | nil => exact .inl ⟨rfl,fun _ ⟨_,_,_,hsub,_⟩ => by simp at hsub⟩
  | cons a rest ih =>
      have hfresh : ∀ r ∈ rest, r.fresh now = .ok () := fun r hr => hl r (List.mem_cons_of_mem _ hr)
      have hrest := ih hfresh
      unfold select
      split_ifs with ha
      · refine hrest.congr fun p => ⟨fun h => first_cons.mpr (.inr h),fun h => ?_⟩
        exact (first_cons.mp h).resolve_left fun hp => Bool.false_ne_true (hp.1.symm.trans ha)
      · have hclear : Clear a entry := by simpa [Clear] using ha
        have hsecond := @selectSecond_searches entry a rest now (hl a List.mem_cons_self) hfresh
        exact (hsecond.orElse hrest).congr fun p => by simp [first_cons,hclear]

end Independence

/-! ## The route is valid -/

section Validity
variable {parsesAsIp : String → Bool} {entry : Service} {target : Service} {excluded : List Service}
  {now : ℕ} {a b c r : Introduction}

theorem clear_conflicts {s : Service} (h : Clear r s) : conflicts (r.addr,r.serviceId) s = false := h

theorem fresh_ok (h : r.fresh now = .ok ()) : (descriptor r).validate now = .ok () := by
  simp only [Introduction.fresh,Introduction.validate,sequence_eq_ok,require_eq_ok] at h
  obtain ⟨_,⟨addr,haddr,hcomplete⟩,hfresh⟩ := h
  simp only [TransitDescriptor.validate,sequence_eq_ok,require_eq_ok]
  refine ⟨addr,haddr,?_⟩
  rintro (hid | hcap | hexp)
  · exact hcomplete (.inl hid)
  · exact hcomplete (.inr (.inr (.inr (.inl hcap))))
  · exact hfresh (.inl hexp)

theorem validateMiddles_path (ha : a.fresh now = .ok ()) (hb : b.fresh now = .ok ())
    (hc : c.fresh now = .ok ()) (h : Independent entry [a,b,c]) :
    validateMiddles now [entry] (path a b c).toList =
      .ok [entry,(a.addr,a.serviceId),(b.addr,b.serviceId),(c.addr,c.serviceId)] := by
  obtain ⟨hae,⟨hbe,hba⟩,hce,hca,hcb⟩ := independent_three.mp h
  simp only [MiddlePath.toList,path,validateMiddles,sequence_eq_ok,require_eq_ok]
  refine ⟨(),fresh_ok ha,(),?_,(),fresh_ok hb,(),?_,(),fresh_ok hc,(),?_,rfl⟩
  · simpa [descriptor] using clear_conflicts hae
  · simpa [descriptor] using ⟨clear_conflicts hbe,clear_conflicts hba⟩
  · simpa [descriptor] using ⟨clear_conflicts hce,clear_conflicts hca,clear_conflicts hcb⟩

theorem validateEnds_ok {services : List Service} {t : Target}
    (h : ∀ s ∈ services, (∀ e ∈ excluded, conflicts s e = false) ∧ t.conflicts s = false) :
    validateEnds t excluded services = .ok () := by
  induction services with
  | nil => rfl
  | cons s rest ih =>
      have hs := h s List.mem_cons_self
      simp only [validateEnds,sequence_eq_ok,require_eq_ok]
      refine ⟨(),?_,ih fun x hx => h x (List.mem_cons_of_mem _ hx)⟩
      simpa [hs.2] using hs.1

end Validity

/-! ## Selection from the directory -/

section Selection
variable {allowed : RelayCodec.IpAddr → Bool} {d : Directory} {excluded : List Service} {now : ℕ}
  {available : List Introduction}

theorem eligible_ok (h : d.eligible allowed excluded now = .ok available) :
    ∀ r ∈ available, r.fresh now = .ok () ∧ ∀ e ∈ excluded, Clear r e := by
  simp only [Directory.eligible,sequence_eq_ok,require_eq_ok,done_eq_ok] at h
  obtain ⟨_,_,_,_,rfl⟩ := h
  intro r hr
  have hkeep := (List.mem_filter.mp hr).2
  simp only [Bool.and_eq_true,Bool.not_eq_true',List.any_eq_false] at hkeep
  refine ⟨?_,fun e he => ?_⟩
  · cases hfresh : r.fresh now with
    | error e =>
        rw [hfresh] at hkeep
        exact absurd hkeep.1.1 Bool.false_ne_true
    | ok u => rfl
  · exact Bool.eq_false_iff.mpr (hkeep.2 e (List.mem_append_right _ he))

/-- With a target relay that is valid and excluded, the directory gives the eligible relays,
the search ends, and it finds a path exactly if there are three independent relays; the
path is valid. -/
theorem selection_complete_and_valid (parsesAsIp : String → Bool) (allowed : RelayCodec.IpAddr → Bool)
    (d : Directory) (entry target : Service) (excluded : List Service) (now : ℕ)
    (hstate : d.persistenceFailed = false) (hcount : excluded.length ≤ 64)
    (htarget : ∃ t, Target.decode parsesAsIp (Target.relay target.1 target.2).encode = .ok t)
    (hexcluded : target ∈ excluded) (hentry : ∀ e ∈ excluded, conflicts entry e = false) :
    ∃ available found, d.eligible allowed excluded now = .ok available ∧
      select entry now available = .ok found ∧
      (found.isSome ↔ ∃ a ∈ available, ∃ b ∈ available, ∃ c ∈ available,
        Independent entry [a,b,c]) ∧
      ∀ p, found = some p →
        validate parsesAsIp entry p (.relay target.1 target.2) excluded now = .ok () := by
  have heligible : ∃ available, d.eligible allowed excluded now = .ok available := by
    simp only [Directory.eligible,sequence_eq_ok,require_eq_ok,done_eq_ok]
    exact ⟨_,(),hcount,(),hstate,rfl⟩
  obtain ⟨available,havailable⟩ := heligible
  have hok := eligible_ok havailable
  have hsearch := @select_searches entry available now fun r hr => (hok r hr).1
  refine ⟨available,?_⟩
  rcases hsearch with ⟨hnone,hno⟩ | ⟨p,hsome,a,b,c,hsub,hind,rfl⟩
  · refine ⟨none,havailable,hnone,?_,fun _ hp => by cases hp⟩
    refine ⟨fun h => absurd h Bool.false_ne_true,?_⟩
    rintro ⟨a,ha,b,hb,c,hc,hind⟩
    obtain ⟨x,y,z,hsub,hxyz⟩ := hind.ordered ha hb hc
    exact absurd ⟨x,y,z,hsub,hxyz,rfl⟩ (hno (path x y z))
  · have ha := hok a (hsub.subset (by simp))
    have hb := hok b (hsub.subset (by simp))
    have hc := hok c (hsub.subset (by simp))
    refine ⟨some (path a b c),havailable,hsome,⟨fun _ => ?_,fun _ => rfl⟩,fun p hp => ?_⟩
    · exact ⟨a,hsub.subset (by simp),b,hsub.subset (by simp),c,hsub.subset (by simp),hind⟩
    · cases hp
      obtain ⟨t,ht⟩ := htarget
      simp only [validate,sequence_eq_ok,require_eq_ok]
      refine ⟨(),hcount,t,ht,_,validateMiddles_path ha.1 hb.1 hc.1 hind,validateEnds_ok ?_⟩
      simp only [List.mem_cons,List.not_mem_nil,or_false,forall_eq_or_imp,forall_eq]
      exact ⟨⟨hentry,hentry target hexcluded⟩,⟨ha.2,ha.2 target hexcluded⟩,
        ⟨hb.2,hb.2 target hexcluded⟩,hc.2,hc.2 target hexcluded⟩

end Selection

def sampleMiddle (n : ℕ) : Introduction :=
  ⟨.v4 (wordBlock 4 (2^24*127+n)) 443,wordBlock 32 n,wordBlock 32 100,wordBlock 32 101,
    wordBlock 32 102,1000⟩

def sampleService (n : ℕ) : Service := ((sampleMiddle n).addr,(sampleMiddle n).serviceId)

def sampleDirectory : Directory :=
  ⟨⟨[sampleMiddle 2,sampleMiddle 3,sampleMiddle 4],[],[]⟩,false,false,[]⟩

theorem selection_complete_and_valid_sample : ∃ available p,
    sampleDirectory.eligible (fun _ => true) [sampleService 5] 900 = .ok available ∧
    select (sampleService 1) 900 available = .ok (some p) ∧
    validate (fun _ => false) (sampleService 1) p
      (.relay (sampleService 5).1 (sampleService 5).2) [sampleService 5] 900 = .ok () := by
  obtain ⟨available,found,havailable,hselect,hiff,hvalid⟩ := selection_complete_and_valid
    (fun _ => false) (fun _ => true) sampleDirectory (sampleService 1) (sampleService 5)
    [sampleService 5] 900 rfl (by decide) ⟨_,rfl⟩ (by simp) (by decide +kernel)
  have hlist : available = [sampleMiddle 2,sampleMiddle 3,sampleMiddle 4] :=
    (Except.ok.inj ((rfl : _ = sampleDirectory.eligible _ _ _).trans havailable)).symm
  have hsome : found.isSome = true := hiff.mpr ⟨sampleMiddle 2,by simp [hlist],sampleMiddle 3,
    by simp [hlist],sampleMiddle 4,by simp [hlist],by
      rw [independent_three]
      unfold Clear
      decide +kernel⟩
  obtain ⟨p,rfl⟩ := Option.isSome_iff_exists.mp hsome
  exact ⟨available,p,havailable,hselect,hvalid p rfl⟩

end Gcoms.RelayPaths
