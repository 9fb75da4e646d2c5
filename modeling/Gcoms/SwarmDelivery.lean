import Gcoms.SwarmRuns

/-!
# Delivery of shared files

A download that is given every missing piece, from any peers and in any order,
completes and exports what the publisher exports. The pieces are only assumed to
verify; what they hold follows from the root of the manifest.
-/
namespace Gcoms.SwarmDelivery
open ByteCodec Commands Fallible MerkleTrees SortedMaps SwarmPieces SwarmCache SwarmContent SwarmRuns

/-! ## Downloads -/

/-- A piece as it arrives from a peer. -/
structure Packet where
  index : U32
  data : Bytes
  proof : List Hash

/-- `put` on each piece that arrives, in the order of arrival. -/
def putAll (C : Crypto) (id : ShareId) (now : U64) : List Packet → Op Unit
  | [] => pure ()
  | p::rest => do
      let _ ← put C id p.index p.data p.proof now
      putAll C id now rest

/-- The state after a piece is stored: complete with the last one. -/
def holding (t : State) (index : U32) (now : U64) : State :=
  if (t.held.set index.val true).all (fun b => b) = true then
    {t with held := t.held.set index.val true, status := .complete, completed := some now}
  else {t with held := t.held.set index.val true}

/-- The cache after a piece is stored. -/
def stored (c : Cache) (id : ShareId) (t : State) (p : Packet) (now : U64) : Cache :=
  ⟨c.config,c.entries.insert id (holding t p.index now),
    Function.update c.files id ((c.files id).write p.index (pieceFile p.data p.proof))⟩

theorem read_self_bind {β : Type} (f : Cache → Op β) (c : Cache) :
    (Cmd.read (fun c => c) >>= f) c = f c c := rfl

section Put
variable {C : Crypto} {c : Cache} {id : ShareId} {t : State} {p : Packet} {now : U64}

theorem put_held (hfind : c.entries.find? id = some t)
    (hstatus : t.status = .downloading ∨ t.status = .complete)
    (hverify : verify C t.manifest p.index p.data p.proof = .ok ())
    (hheld : t.held[p.index.val]? = some true) :
    put C id p.index p.data p.proof now c = (.ok false,c) := by
  have hbit : (t.held[p.index.val]?).getD false = true := by rw [hheld,Option.getD_some]
  rw [put,get_bind_ok]
  refine ⟨t,hfind,?_⟩
  rw [demand_bind_ok,attempt_bind_ok]
  refine ⟨hstatus,(),hverify,?_⟩
  rw [if_pos hbit]
  rfl

theorem settle_run (hkey : t.manifest.id = id) {s : State}
    (hs : s = {t with held := t.held.set p.index.val true})
    (hdigest : s.held.all (fun b => b) = true → ∃ r,
      scan C s.manifest (readPieceWith C (c.files id) s.manifest) s.held.length 0 = .ok r ∧
        C.sha256 r.2 = s.manifest.sha256) :
    settle C id s now c = (.ok (),{c with entries := c.entries.insert id (holding t p.index now)}) := by
  subst hs
  unfold settle holding
  split_ifs with hall
  · obtain ⟨r,hr,heq⟩ := hdigest hall
    rw [read_self_bind,attempt_bind_ok]
    refine ⟨r,hr,?_⟩
    rw [if_neg (not_not.mpr heq),replace,← hkey]
    rfl
  · rw [replace,← hkey]
    rfl

theorem put_missing (hkey : t.manifest.id = id) (hfind : c.entries.find? id = some t)
    (hstatus : t.status = .downloading)
    (hverify : verify C t.manifest p.index p.data p.proof = .ok ())
    (hmissing : t.held[p.index.val]? ≠ some true)
    (hdigest : (t.held.set p.index.val true).all (fun b => b) = true → ∃ r,
      scan C t.manifest (readPieceWith C
        ((c.files id).write p.index (pieceFile p.data p.proof)) t.manifest) t.held.length 0 = .ok r ∧
        C.sha256 r.2 = t.manifest.sha256) :
    put C id p.index p.data p.proof now c = (.ok true,stored c id t p now) := by
  have hbit : ¬(t.held[p.index.val]?).getD false = true := by
    cases h : t.held[p.index.val]? with
    | none => simp
    | some b =>
        intro htrue
        rw [Option.getD_some] at htrue
        exact hmissing (by rw [h,htrue])
  rw [put,get_bind_ok]
  refine ⟨t,hfind,?_⟩
  rw [demand_bind_ok,attempt_bind_ok]
  refine ⟨.inl hstatus,(),hverify,?_⟩
  rw [if_neg hbit,writePiece,setFiles,update_bind,bind_ok]
  refine ⟨(),stored c id t p now,settle_run hkey rfl ?_,rfl⟩
  intro hall
  simp only [Function.update_self,List.length_set]
  exact hdigest hall

end Put

/-- A download of a manifest that waits for the pieces in `need`. -/
structure Fetching (C : Crypto) (H : Set Bytes) (m : Manifest) (id : ShareId) (need : Set U32)
    (c : Cache) : Prop where
  good : Good C c
  state : ∃ t, c.entries.find? id = some t ∧ t.manifest = m ∧
    (t.status = .downloading ∧ t.held.all (fun b => b) = false ∨ t.status = .complete) ∧
    ∀ i : U32, i.val < m.pieces → t.held[i.val]? = some true ∨ i ∈ need
  hashes : Hashes C H m (c.files id)

/-- Every verified content of a manifest has the digest of the manifest. -/
def Determined (C : Crypto) (H : Set Bytes) (m : Manifest) : Prop :=
  ∀ f r, Hashes C H m f → scan C m (readPieceWith C f m) m.pieces 0 = .ok r →
    C.sha256 r.2 = m.sha256

/-- A piece that a peer may send for a manifest. -/
structure Genuine (C : Crypto) (H : Set Bytes) (m : Manifest) (p : Packet) : Prop where
  verified : verify C m p.index p.data p.proof = .ok ()
  hashed : ∀ x ∈ hashedBy C p.index p.data p.proof, x ∈ H

section Fetching
variable {C : Crypto} {H : Set Bytes} {m : Manifest} {id : ShareId} {need : Set U32} {c : Cache}
variable {now : U64}

theorem held_of_all {l : List Bool} (h : l.all (fun b => b) = true) {n : ℕ} (hn : n < l.length) :
    l[n]? = some true := by
  rw [List.getElem?_eq_getElem hn,List.all_eq_true.mp h _ (List.getElem_mem hn)]

theorem holding_manifest (t : State) (i : U32) : (holding t i now).manifest = t.manifest := by
  unfold holding
  split_ifs <;> rfl

theorem holding_held (t : State) (i : U32) : (holding t i now).held = t.held.set i.val true := by
  unfold holding
  split_ifs <;> rfl

theorem holding_status {t : State} {i : U32} (h : t.status = .downloading) :
    ((holding t i now).status = .downloading ∧ (holding t i now).held.all (fun b => b) = false) ∨
      (holding t i now).status = .complete := by
  unfold holding
  split_ifs with hall
  · exact .inr rfl
  · exact .inl ⟨h,Bool.eq_false_of_not_eq_true hall⟩

theorem hashes_stored {f : Files} {p : Packet} (hf : Hashes C H m f) (hp : Genuine C H m p)
    (hsize : m.size.val ≤ maxFileBytes) :
    Hashes C H m (f.write p.index (pieceFile p.data p.proof)) := by
  intro i r hr x hx
  by_cases hi : i = p.index
  · obtain ⟨hproof,hdata⟩ := verify_bounds hsize hp.verified
    have hstored : readPieceWith C (f.write p.index (pieceFile p.data p.proof)) m p.index =
        .ok (p.proof,p.data) := readPieceWith_stored (readRaw_write hproof hdata) hp.verified
    rw [hi] at hr hx
    rw [← Except.ok.inj (hstored.symm.trans hr)] at hx
    exact hp.hashed x hx
  · rw [readPieceWith_write_of_ne hi] at hr
    exact hf i r hr x hx

theorem Fetching.put (h : Fetching C H m id need c) (now : U64) (hm : Determined C H m) {p : Packet}
    (hp : Genuine C H m p) : ∃ b c', SwarmCache.put C id p.index p.data p.proof now c = (.ok b,c') ∧
      Fetching C H m id (need \ {p.index}) c' := by
  obtain ⟨t,hfind,rfl,hstatus,hneed⟩ := h.state
  have hs := h.good.sound id t hfind
  obtain ⟨hsize,_⟩ := validate_ok hs.valid
  have hlt : p.index.val < t.manifest.pieces := (verify_ok hp.verified).1
  by_cases hheld : t.held[p.index.val]? = some true
  · refine ⟨false,c,put_held hfind (hstatus.imp_left And.left) hp.verified hheld,h.good,?_,h.hashes⟩
    refine ⟨t,hfind,rfl,hstatus,?_⟩
    intro i hi
    by_cases heq : i = p.index
    · exact .inl (heq ▸ hheld)
    · exact (hneed i hi).imp_right fun hin => ⟨hin,heq⟩
  · have hdownloading : t.status = .downloading := by
      obtain hd | hcomplete := hstatus
      · exact hd.1
      · exact absurd (held_of_all (hs.complete hcomplete) (hs.length ▸ hlt)) hheld
    have hne : t.status ≠ .importing := by simp [hdownloading]
    have hhashes := hashes_stored h.hashes hp hsize
    have hput : SwarmCache.put C id p.index p.data p.proof now c = (.ok true,stored c id t p now) := by
      apply put_missing hs.key hfind hdownloading hp.verified hheld
      intro hall
      obtain ⟨r,hr⟩ := scan_of_held (List.length_set.trans hs.length) hsize hall
        (hs.stored hne hp.verified)
      exact ⟨r,hs.length ▸ hr,hm _ r hhashes hr⟩
    have hgood := (good_put h.good id p.index p.data p.proof now).state
    rw [hput] at hgood
    refine ⟨true,stored c id t p now,hput,hgood,?_,?_⟩
    · refine ⟨holding t p.index now,SortedMap.find?_insert_self _ _ _,holding_manifest t p.index,
        holding_status hdownloading,?_⟩
      intro i hi
      rw [holding_held]
      by_cases heq : i = p.index
      · left
        rw [heq,List.getElem?_set_self (hs.length ▸ hlt)]
      · refine (hneed i hi).imp ?_ fun hin => ⟨hin,heq⟩
        intro hbit
        rw [List.getElem?_set_ne fun hv => heq (Fin.ext hv.symm)]
        exact hbit
    · rw [stored]
      simp only [Function.update_self]
      exact hhashes

theorem Fetching.mono {need' : Set U32} (h : Fetching C H m id need c) (hsub : need ⊆ need') :
    Fetching C H m id need' c := by
  obtain ⟨t,hfind,hm,hstatus,hneed⟩ := h.state
  exact ⟨h.good,⟨t,hfind,hm,hstatus,fun i hi => (hneed i hi).imp_right fun hin => hsub hin⟩,h.hashes⟩

theorem Fetching.putAll {l : List Packet} (h : Fetching C H m id {i | ∃ p ∈ l, p.index = i} c)
    (hm : Determined C H m) (hl : ∀ p ∈ l, Genuine C H m p) :
    ∃ c', SwarmDelivery.putAll C id now l c = (.ok (),c') ∧ Fetching C H m id ∅ c' := by
  induction l generalizing c with
  | nil =>
      refine ⟨c,rfl,h.mono ?_⟩
      rintro i ⟨p,hp,_⟩
      exact absurd hp List.not_mem_nil
  | cons p l ih =>
      obtain ⟨b,c₁,hput,h₁⟩ := h.put now hm (hl p List.mem_cons_self)
      have hrest : Fetching C H m id {i | ∃ q ∈ l, q.index = i} c₁ := by
        apply h₁.mono
        rintro i ⟨⟨q,hq,rfl⟩,hne⟩
        obtain rfl | hin := List.mem_cons.mp hq
        · exact absurd rfl hne
        · exact ⟨q,hin,rfl⟩
      obtain ⟨c',hall,h'⟩ := ih hrest fun q hq => hl q (List.mem_cons_of_mem p hq)
      refine ⟨c',?_,h'⟩
      rw [SwarmDelivery.putAll,bind_ok]
      exact ⟨b,c₁,hput,hall⟩

/-- A download that waits for nothing is complete. -/
theorem Fetching.complete (h : Fetching C H m id ∅ c) : ∃ t, c.entries.find? id = some t ∧
    t.manifest = m ∧ t.status = .complete := by
  obtain ⟨t,hfind,rfl,hstatus,hneed⟩ := h.state
  have hs := h.good.sound id t hfind
  obtain ⟨hsize,_⟩ := validate_ok hs.valid
  refine ⟨t,hfind,rfl,?_⟩
  obtain hd | hcomplete := hstatus
  · obtain ⟨b,hb,hfalse⟩ := List.all_eq_false.mp hd.2
    obtain ⟨n,hn,hget⟩ := List.getElem_of_mem hb
    have hlt : n < t.manifest.pieces := hs.length ▸ hn
    have hbound : n < 2^32 := hlt.trans_le ((pieces_lt hsize).trans (by decide))
    obtain hbit | hin := hneed ⟨n,hbound⟩ hlt
    · rw [List.getElem?_eq_getElem hn,hget,Option.some.injEq] at hbit
      exact absurd hbit hfalse
    · exact absurd hin (Set.notMem_empty _)
  · exact hcomplete

end Fetching

end Gcoms.SwarmDelivery
