import Gcoms.RelayCodec

/-!
# What a forwarding tag binds

Two forwarding instructions that a hop accepts under one key and with one tag
have equal transcripts, as far as the HMAC does not collide on them. In GC/2 the
transcript is the payload, so the instructions are equal. The GC/1 transcript
names the target's service identity but not its socket address: everything but
the address is determined, and the address is not.
-/
namespace Gcoms.RelayForward
open ByteCodec Primitives Fallible RelayCells RelayCodec

/-! ## GC/1 -/

/-- The nested deposit of a forwarding payload, as bytes. -/
def pushNatural (payload : Bytes) : Bytes := slice payload 62 (62+wordAt 2 payload 60)

/-- The tag that a cell of either version supplies. -/
def suppliedTag (payload : Bytes) : Bytes := payload.drop (payload.length-32)

/-- The bytes that the tag of an accepted cell authenticates. -/
def transcriptOf (service : Block 32) (cell : Cell) (f : Frwd) : Bytes :=
  frwdTranscript service f (pushNatural cell.payload) (wordAt 2 cell.payload 60)

section Forward
variable (P : Suite)

theorem exactLength_eq_ok {actual expected : ℕ} {u : Unit} :
    exactLength actual expected = .ok u ↔ actual = expected := by
  simp only [exactLength,sequence_eq_ok,require_eq_ok]
  constructor
  · rintro ⟨_,h₁,h₂⟩
    omega
  · rintro rfl
    exact ⟨(),le_rfl,le_rfl⟩

/-- The bytes of a GC/1 payload that name the socket address. -/
def addressBytes (payload : Bytes) : Bytes := slice payload 1 20

/-- The encoding of a target is canonical. -/
theorem encode_of_decode {encoded : Bytes} {t : RelayTarget}
    (h : RelayTarget.decode encoded = .ok t) : encoded = t.encode := by
  simp only [RelayTarget.decode,sequence_eq_ok,require_eq_ok,done_eq_ok] at h
  obtain ⟨_,hlen,ip,hip,rfl⟩ := h
  have hlen' : encoded.length = 51 := hlen
  have htag : bigEndian 1 (wordAt 1 encoded 0) = slice encoded 0 1 := bigEndian_wordAt (by omega)
  have hport : bigEndian 2 (wordAt 2 encoded 17) = slice encoded 17 19 := bigEndian_wordAt (by omega)
  have hservice : (blockAt 32 encoded 19).toList = slice encoded 19 51 := blockAt_toList (by omega)
  have htail : bigEndian 2 (wordAt 2 encoded 17)++(blockAt 32 encoded 19).toList =
      slice encoded 17 51 := by
    rw [hport,hservice,slice_append_slice (by omega) (by omega)]
  have hall : slice encoded 0 17++slice encoded 17 51 = encoded := by
    rw [slice_append_slice (by omega) (by omega),slice_self _ hlen']
  unfold RelayTarget.decodeIp at hip
  split at hip
  · rename_i h4
    simp only [sequence_eq_ok,require_eq_ok,done_eq_ok] at hip
    obtain ⟨_,hzero,rfl⟩ := hip
    have hz : slice encoded 5 17 = List.replicate 12 0 := by
      have hl : (slice encoded 5 17).length = 12 := slice_length (by omega)
      rw [← hl]
      exact List.eq_replicate_iff.mpr ⟨rfl,hzero⟩
    have hocts : (blockAt 4 encoded 1).toList = slice encoded 1 5 := blockAt_toList (by omega)
    have hhead : byte 4++((blockAt 4 encoded 1).toList++List.replicate 12 0) =
        slice encoded 0 17 := by
      have hb : byte 4 = slice encoded 0 1 := by
        rw [← htag,h4]
        rfl
      rw [hocts,← hz,slice_append_slice (by omega) (by omega),hb,
        slice_append_slice (by omega) (by omega)]
    change encoded = (byte 4++((blockAt 4 encoded 1).toList++List.replicate 12 0))++_
    rw [hhead,htail,hall]
  · rename_i h6
    obtain rfl := done_eq_ok.mp hip
    have hocts : (blockAt 16 encoded 1).toList = slice encoded 1 17 := blockAt_toList (by omega)
    have hhead : byte 6++(blockAt 16 encoded 1).toList = slice encoded 0 17 := by
      have hb : byte 6 = slice encoded 0 1 := by
        rw [← htag,h6]
        rfl
      rw [hocts,hb,slice_append_slice (by omega) (by omega)]
    change encoded = (byte 6++(blockAt 16 encoded 1).toList)++_
    rw [hhead,htail,hall]
  · exact absurd hip (by simp)

/-- What an accepted cell determines about its value. -/
structure Accepted (cell : Cell) (key service : Block 32) (f : Frwd) : Prop where
  target : RelayTarget.decode (slice cell.payload 1 52) = .ok f.target
  length : 52 ≤ cell.payload.length
  expiry : f.frwdExpiry < 256^8
  pushLen : wordAt 2 cell.payload 60 < 256^2
  nested : Frwd.nested (wordAt 2 cell.payload 60) (pushNatural cell.payload) = .ok f.relayPush
  tag : (P.hmac key (transcriptOf service cell f)).toList = suppliedTag cell.payload

theorem accepted_of_decode {cell : Cell} {key service : Block 32} {nowUnix : ℕ}
    {policy : FrwdTargetPolicy} {f : Frwd}
    (h : Frwd.decodeFromCell P cell key service nowUnix policy = .ok f) :
    Accepted P cell key service f := by
  simp only [Frwd.decodeFromCell,sequence_eq_ok,require_eq_ok,exactLength_eq_ok,done_eq_ok] at h
  obtain ⟨_,_,_,_,_,hmin,_,_,target,htarget,_,_,_,hlen,push,hnested,_,htag,_,_,_,_,_,_,rfl⟩ := h
  have hfix : frwdFixedLen = 110 := rfl
  have hdrop : cell.payload.length-32 = 62+wordAt 2 cell.payload 60+16 := by omega
  exact ⟨htarget,by omega,wordAt_lt (by omega),wordAt_lt (by omega),hnested,by rw [suppliedTag,hdrop]; exact htag⟩

/-- The target field is the address followed by the service identity. -/
theorem Accepted.split_target {cell : Cell} {key service : Block 32} {f : Frwd}
    (h : Accepted P cell key service f) :
    addressBytes cell.payload++f.target.relayServiceId.toList = f.target.encode := by
  have henc := encode_of_decode h.target
  have hlen := h.length
  have hsplit : slice cell.payload 1 20++slice cell.payload 20 52 = f.target.encode := by
    rw [← henc,slice_append_slice (by omega) (by omega)]
  have hl : (slice cell.payload 20 52).length = f.target.relayServiceId.toList.length := by
    rw [slice_length (by omega),List.Vector.toList_length]
  have hpre : ∃ pre, pre++f.target.relayServiceId.toList = f.target.encode :=
    ⟨_,List.append_assoc _ _ _⟩
  obtain ⟨pre,hpre⟩ := hpre
  have hservice := (List.append_inj' (hsplit.trans hpre.symm) hl).2
  rw [addressBytes,← hservice,hsplit]

/-- A transcript lists fields of fixed width in front of the nested deposit. -/
theorem frwdTranscript_inj {service : Block 32} {f g : Frwd} {xs ys : Bytes} {m n : ℕ}
    (h : frwdTranscript service f xs m = frwdTranscript service g ys n) :
    f.target.relayServiceId = g.target.relayServiceId ∧
      bigEndian 8 f.frwdExpiry = bigEndian 8 g.frwdExpiry ∧ f.nonce = g.nonce ∧
      bigEndian 2 m = bigEndian 2 n ∧ xs = ys := by
  unfold frwdTranscript at h
  obtain ⟨_,h⟩ := List.append_inj h rfl
  obtain ⟨_,h⟩ := List.append_inj h rfl
  obtain ⟨_,h⟩ := List.append_inj h rfl
  obtain ⟨hservice,h⟩ := List.append_inj h (by simp)
  obtain ⟨_,h⟩ := List.append_inj h (by simp)
  obtain ⟨_,h⟩ := List.append_inj h (by simp)
  obtain ⟨_,h⟩ := List.append_inj h rfl
  obtain ⟨hexpiry,h⟩ := List.append_inj h (by simp)
  obtain ⟨hnonce,h⟩ := List.append_inj h (by simp)
  obtain ⟨hlen,hpush⟩ := List.append_inj h (by simp)
  exact ⟨List.Vector.eq _ _ hservice,hexpiry,List.Vector.eq _ _ hnonce,hlen,hpush⟩

/-- Equal tags leave only the bytes of the socket address open. -/
theorem frwd_eq_iff {c d : Cell} {key service : Block 32} {f g : Frwd}
    (hf : Accepted P c key service f) (hg : Accepted P d key service g)
    (htag : suppliedTag c.payload = suppliedTag d.payload)
    (hinj : P.hmac key (transcriptOf service c f) = P.hmac key (transcriptOf service d g) →
      transcriptOf service c f = transcriptOf service d g) :
    f = g ↔ addressBytes c.payload = addressBytes d.payload := by
  have hmac : P.hmac key (transcriptOf service c f) = P.hmac key (transcriptOf service d g) :=
    List.Vector.eq _ _ (hf.tag.trans (htag.trans hg.tag.symm))
  obtain ⟨hservice,hexpiry,hnonce,hlen,hpush⟩ := frwdTranscript_inj (hinj hmac)
  have hexp := bigEndian_injective hf.expiry hg.expiry hexpiry
  have hl := bigEndian_injective hf.pushLen hg.pushLen hlen
  have hnested : f.relayPush = g.relayPush := by
    have h₁ := hf.nested
    have h₂ := hg.nested
    rw [hl,hpush] at h₁
    exact Except.ok.inj (h₁.symm.trans h₂)
  have hc := hf.split_target
  have hd := hg.split_target
  refine ⟨fun h => ?_,fun haddr => ?_⟩
  · rw [h] at hc
    exact (List.append_inj (hc.trans hd.symm) (by
      rw [addressBytes,addressBytes,slice_length (by have := hf.length; omega),
        slice_length (by have := hg.length; omega)])).1
  · have henc : f.target.encode = g.target.encode := by rw [← hc,← hd,haddr,hservice]
    have h₁ := hf.target
    have h₂ := hg.target
    rw [encode_of_decode h₁,henc,← encode_of_decode h₂,h₂] at h₁
    have htarget := Except.ok.inj h₁
    obtain ⟨_,_,_,_⟩ := f
    obtain ⟨_,_,_,_⟩ := g
    simp only at hexp hnonce hnested htarget
    simp only [hexp,hnonce,hnested,htarget]

/-! ## GC/2 -/

theorem transcript_inj {service : Block 32} {xs ys t : Bytes}
    (hx : Gc2.transcript .frwd service xs = .ok t) (hy : Gc2.transcript .frwd service ys = .ok t) :
    xs = ys := by
  simp only [Gc2.transcript,Gc2.domain,sequence_eq_ok,Except.ok.injEq,done_eq_ok] at hx hy
  obtain ⟨_,rfl,hx⟩ := hx
  obtain ⟨_,rfl,hy⟩ := hy
  obtain ⟨_,h⟩ := List.append_inj (hx.trans hy.symm) rfl
  obtain ⟨_,h⟩ := List.append_inj h rfl
  obtain ⟨_,h⟩ := List.append_inj h rfl
  obtain ⟨_,h⟩ := List.append_inj h rfl
  exact (List.append_inj h (by simp)).2

/-- What an accepted GC/2 cell determines: its value is a function of the bytes that the
tag authenticates, of the clock and of the policy. -/
theorem accepted_gc2 {cell : NaturalCell} {key service : Block 32} {now : ℕ}
    {policy : FrwdTargetPolicy} {f : Gc2.Forward}
    (h : Gc2.Forward.decode P cell key service now policy = .ok f) :
    ∃ bytes t, Gc2.body cell .frwd = .ok bytes ∧ Gc2.transcript .frwd service bytes = .ok t ∧
      (P.hmac key t).toList = suppliedTag cell.payload ∧
      ∃ traffic target push, f = ⟨traffic,target,wordAt 8 bytes 52,blockAt 16 bytes 60,push⟩ ∧
        Gc2.trafficClass bytes = .ok traffic ∧
        RelayTarget.decode (slice bytes 1 (1+targetLen)) = .ok target ∧
        Gc2.Forward.nested traffic (wordAt 2 bytes 76) (bytes.drop Gc2.frwdFixed) now = .ok push := by
  simp only [Gc2.Forward.decode,Gc2.authenticate,sequence_eq_ok,require_eq_ok,done_eq_ok] at h
  obtain ⟨_,⟨bytes,hb,t,ht,_,htag,rfl⟩,_,_,traffic,hc,target,htarget,_,_,_,_,_,_,push,hp,rfl⟩ := h
  refine ⟨bytes,t,hb,ht,?_,traffic,target,push,rfl,hc,htarget,hp⟩
  simp only [Gc2.body,sequence_eq_ok,require_eq_ok,done_eq_ok] at hb
  obtain ⟨_,_,_,_,rfl⟩ := hb
  rw [htag,suppliedTag,List.length_take,Nat.min_eq_left (by omega)]
  rfl

theorem nested_now {traffic : TrafficClass} {len : ℕ} {bytes : Bytes} {now now' : ℕ}
    {p q : Option Gc2.UnverifiedPush} (hp : Gc2.Forward.nested traffic len bytes now = .ok p)
    (hq : Gc2.Forward.nested traffic len bytes now' = .ok q) : p = q := by
  unfold Gc2.Forward.nested at hp hq
  by_cases hl : len = 0
  · rw [if_pos hl] at hp hq
    exact (done_eq_ok.mp hp).symm.trans (done_eq_ok.mp hq)
  · rw [if_neg hl] at hp hq
    simp only [sequence_eq_ok,require_eq_ok,done_eq_ok] at hp hq
    obtain ⟨c,hc,x,hx,_,_,_,_,rfl⟩ := hp
    obtain ⟨d,hd,y,hy,_,_,_,_,rfl⟩ := hq
    obtain rfl := Except.ok.inj (hc.symm.trans hd)
    obtain rfl := Except.ok.inj (hx.symm.trans hy)
    rfl

/-- The tag of a GC/2 cell as it was computed. -/
def transcriptGc2 (service : Block 32) (cell : NaturalCell) : Except RelayCodecError Bytes := do
  let bytes ← Gc2.body cell .frwd
  Gc2.transcript .frwd service bytes

theorem forward_eq {c d : NaturalCell} {key service : Block 32} {now now' : ℕ}
    {policy policy' : FrwdTargetPolicy} {f g : Gc2.Forward}
    (hf : Gc2.Forward.decode P c key service now policy = .ok f)
    (hg : Gc2.Forward.decode P d key service now' policy' = .ok g)
    (htag : suppliedTag c.payload = suppliedTag d.payload)
    (hinj : ∀ t u, transcriptGc2 service c = .ok t → transcriptGc2 service d = .ok u →
      P.hmac key t = P.hmac key u → t = u) : f = g := by
  obtain ⟨bs,t,hb,ht,hmac,traffic,target,push,rfl,hc,htarget,hpush⟩ := accepted_gc2 P hf
  obtain ⟨bs',u,hb',hu,hmac',traffic',target',push',rfl,hc',htarget',hpush'⟩ := accepted_gc2 P hg
  have htu : t = u := by
    refine hinj t u ?_ ?_ (List.Vector.eq _ _ (hmac.trans (htag.trans hmac'.symm)))
    · exact sequence_eq_ok.mpr ⟨bs,hb,ht⟩
    · exact sequence_eq_ok.mpr ⟨bs',hb',hu⟩
  subst htu
  obtain rfl := transcript_inj ht hu
  obtain rfl := Except.ok.inj (hc.symm.trans hc')
  obtain rfl := Except.ok.inj (htarget.symm.trans htarget')
  rw [nested_now hpush hpush']

/-- Two accepted GC/1 instructions with one tag are equal exactly if their payloads
agree in the bytes of the socket address; two accepted GC/2 instructions with one tag are equal. -/
theorem forwarding_tag_binds (key service : Block 32) :
    (∀ c d now now' policy policy' f g,
      Frwd.decodeFromCell P c key service now policy = .ok f →
      Frwd.decodeFromCell P d key service now' policy' = .ok g →
      suppliedTag c.payload = suppliedTag d.payload →
      (P.hmac key (transcriptOf service c f) = P.hmac key (transcriptOf service d g) →
        transcriptOf service c f = transcriptOf service d g) →
      (f = g ↔ addressBytes c.payload = addressBytes d.payload)) ∧
    ∀ c d now now' policy policy' f g,
      Gc2.Forward.decode P c key service now policy = .ok f →
      Gc2.Forward.decode P d key service now' policy' = .ok g →
      suppliedTag c.payload = suppliedTag d.payload →
      (∀ t u, transcriptGc2 service c = .ok t → transcriptGc2 service d = .ok u →
        P.hmac key t = P.hmac key u → t = u) → f = g := by
  refine ⟨?_,?_⟩
  · intro c d now now' policy policy' f g hf hg htag hinj
    exact frwd_eq_iff P (accepted_of_decode P hf) (accepted_of_decode P hg) htag hinj
  · intro c d now now' policy policy' f g hf hg htag hinj
    exact forward_eq P hf hg htag hinj

end Forward

/-! ## A redirected instruction -/

/-- A cover instruction toward port 443 of the given IPv4 address. -/
def sampleFrwd (ip : Block 4) (tag : Bytes) : Cell :=
  Cell.new .frwd 0 0 (byte 1++(RelayTarget.encode ⟨⟨.v4 ip,443⟩,wordBlock 32 7⟩++
    (bigEndian 8 90++(bigEndian 2 0++((wordBlock 16 5).toList++tag)))))

/-- The tag of the instruction toward 8.8.8.8, computed by the holder of the hop key. -/
def sampleTag : Bytes := (openSuite.hmac (wordBlock 32 3) (frwdTranscript (wordBlock 32 4)
  ⟨⟨⟨.v4 (wordBlock 4 0x08080808),443⟩,wordBlock 32 7⟩,90,none,wordBlock 16 5⟩ [] 0)).toList

def samplePolicy : FrwdTargetPolicy := ⟨false,[]⟩

set_option maxRecDepth 20000 in
theorem sample_accepted : ∃ f g,
    Frwd.decodeFromCell openSuite (sampleFrwd (wordBlock 4 0x08080808) sampleTag) (wordBlock 32 3)
      (wordBlock 32 4) 10 samplePolicy = .ok f ∧
    Frwd.decodeFromCell openSuite (sampleFrwd (wordBlock 4 0x09090909) sampleTag) (wordBlock 32 3)
      (wordBlock 32 4) 10 samplePolicy = .ok g ∧
    f.target.address = ⟨.v4 (wordBlock 4 0x08080808),443⟩ ∧
    g.target.address = ⟨.v4 (wordBlock 4 0x09090909),443⟩ ∧
    transcriptOf (wordBlock 32 4) (sampleFrwd (wordBlock 4 0x08080808) sampleTag) f =
      transcriptOf (wordBlock 32 4) (sampleFrwd (wordBlock 4 0x09090909) sampleTag) g ∧
    suppliedTag (sampleFrwd (wordBlock 4 0x08080808) sampleTag).payload =
      suppliedTag (sampleFrwd (wordBlock 4 0x09090909) sampleTag).payload :=
  ⟨_,_,rfl,rfl,rfl,rfl,rfl,rfl⟩

/-- With the bytes of the address replaced by those of 9.9.9.9 and the tag kept, the
instruction is accepted again, toward the other destination. -/
theorem frwd_redirected : ∃ f g,
    Frwd.decodeFromCell openSuite (sampleFrwd (wordBlock 4 0x08080808) sampleTag) (wordBlock 32 3)
      (wordBlock 32 4) 10 samplePolicy = .ok f ∧
    Frwd.decodeFromCell openSuite (sampleFrwd (wordBlock 4 0x09090909) sampleTag) (wordBlock 32 3)
      (wordBlock 32 4) 10 samplePolicy = .ok g ∧
    suppliedTag (sampleFrwd (wordBlock 4 0x08080808) sampleTag).payload =
      suppliedTag (sampleFrwd (wordBlock 4 0x09090909) sampleTag).payload ∧
    f.target.address = ⟨.v4 (wordBlock 4 0x08080808),443⟩ ∧
    g.target.address = ⟨.v4 (wordBlock 4 0x09090909),443⟩ := by
  obtain ⟨f,g,hf,hg,h₁,h₂,_,htag⟩ := sample_accepted
  exact ⟨f,g,hf,hg,htag,h₁,h₂⟩

/-- A GC/2 cover instruction toward 8.8.8.8. -/
def samplePayload : Bytes :=
  byte 0++(RelayTarget.encode ⟨⟨.v4 (wordBlock 4 0x08080808),443⟩,wordBlock 32 7⟩++
    (bigEndian 8 90++((wordBlock 16 5).toList++bigEndian 2 0)))

def sampleForward : Except NaturalError NaturalCell := do
  let t := ascii "GC2/FRWD\x00"++(byte 2++(byte 8++((wordBlock 32 4).toList++
    (bigEndian 2 samplePayload.length++samplePayload))))
  NaturalCell.new .frwd 0 (samplePayload++(openSuite.hmac (wordBlock 32 3) t).toList)

set_option maxRecDepth 20000 in
theorem sample_forward : ∃ c f g, sampleForward = .ok c ∧
    Gc2.Forward.decode openSuite c (wordBlock 32 3) (wordBlock 32 4) 10 samplePolicy = .ok f ∧
    Gc2.Forward.decode openSuite c (wordBlock 32 3) (wordBlock 32 4) 20 samplePolicy = .ok g :=
  ⟨_,_,_,rfl,rfl,rfl⟩

theorem forwarding_tag_binds_sample :
    (∃ f g, f ≠ g ∧
      Frwd.decodeFromCell openSuite (sampleFrwd (wordBlock 4 0x08080808) sampleTag) (wordBlock 32 3)
        (wordBlock 32 4) 10 samplePolicy = .ok f ∧
      Frwd.decodeFromCell openSuite (sampleFrwd (wordBlock 4 0x09090909) sampleTag) (wordBlock 32 3)
        (wordBlock 32 4) 10 samplePolicy = .ok g) ∧
    ∃ c f, sampleForward = .ok c ∧
      Gc2.Forward.decode openSuite c (wordBlock 32 3) (wordBlock 32 4) 10 samplePolicy = .ok f ∧
      Gc2.Forward.decode openSuite c (wordBlock 32 3) (wordBlock 32 4) 20 samplePolicy = .ok f := by
  obtain ⟨f,g,hf,hg,_,_,ht,htag⟩ := sample_accepted
  obtain ⟨c,x,y,hc,hx,hy⟩ := sample_forward
  have hbinds := forwarding_tag_binds openSuite (wordBlock 32 3) (wordBlock 32 4)
  refine ⟨⟨f,g,fun hfg => ?_,hf,hg⟩,c,x,hc,hx,?_⟩
  · have haddr := (hbinds.1 _ _ _ _ _ _ f g hf hg htag (fun _ => ht)).mp hfg
    exact absurd haddr (by decide)
  · have hxy := hbinds.2 c c _ _ _ _ x y hx hy rfl (fun t u ht hu _ =>
      Except.ok.inj (ht.symm.trans hu))
    rw [hxy]
    exact hy

end Gcoms.RelayForward
