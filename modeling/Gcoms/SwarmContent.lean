import Gcoms.SwarmCache

/-!
# Sound states of a cache

The journal of a share says which pieces are held; the files hold them. The two fit
when every piece marked as held reads back and verifies, and when a complete share
has the digest of its manifest. Every operation of a cache keeps this, whether it
succeeds or fails, whatever pieces its peers send.
-/
namespace Gcoms.SwarmContent
open ByteCodec Commands Fallible MerkleTrees SortedMaps SwarmPieces SwarmCache

/-! ## Sound states -/

/-- The journal of a share fits its files. -/
structure Sound (C : Crypto) (id : ShareId) (s : State) (f : Files) : Prop where
  key : s.manifest.id = id
  valid : s.manifest.validate C = .ok ()
  length : s.held.length = s.manifest.pieces
  backed : ∀ i : U32, s.held[i.val]? = some true → backed C s f i = true
  bare : s.status = .importing → ∀ i raw plain, readRaw f i = .ok raw →
    s.manifest.openPiece C i raw.2 = .ok plain → raw.1 = []
  idle : s.status = .offered ∨ s.status = .cancelled → ∀ b ∈ s.held, b = false
  duplicate : s.duplicateOf.isSome → s.status = .cancelled
  complete : s.status = .complete → s.held.all (fun b => b) = true
  digest : s.status = .complete → ∃ r,
    scan C s.manifest (readPieceWith C f s.manifest) s.manifest.pieces 0 = .ok r ∧
      C.sha256 r.2 = s.manifest.sha256

section Sound
variable {C : Crypto} {id : ShareId} {s : State} {f : Files}

theorem backed_eq {s' : State} (hm : s'.manifest = s.manifest)
    (hstatus : s'.status = .importing ↔ s.status = .importing) (i : U32) :
    backed C s' f i = backed C s f i := by
  simp only [backed,hm,hstatus]

/-- Only a cancelled import is an alias of another. -/
theorem Sound.no_alias (h : Sound C id s f) (hstatus : s.status ≠ .cancelled) :
    s.duplicateOf = none := by
  cases hd : s.duplicateOf with
  | none => rfl
  | some target => exact absurd (h.duplicate (by rw [hd]; rfl)) hstatus

theorem validate_ok {m : Manifest} (h : m.validate C = .ok ()) :
    m.size.val ≤ maxFileBytes ∧ (m.size = 0 → m.sha256 = C.sha256 [] ∧ m.root = emptyRoot C) := by
  simp only [Manifest.validate,sequence_eq_ok,require_eq_ok] at h
  obtain ⟨_,_,_,⟨_,hsize,_⟩,hempty⟩ := h
  exact ⟨hsize,hempty⟩

theorem size_eq_zero {m : Manifest} (h : m.pieces = 0) : m.size = 0 := by
  have hdiv : (m.size.val+pieceBytes-1)/pieceBytes = 0 := h
  have hpb : 0 < pieceBytes := by decide
  rw [Nat.div_eq_zero_iff] at hdiv
  apply Fin.ext
  rw [Fin.val_zero]
  omega

/-- A change that leaves the pieces and their status alone. -/
theorem Sound.relabel (h : Sound C id s f) {s' : State} (hm : s'.manifest = s.manifest)
    (hheld : s'.held = s.held) (himporting : s'.status = .importing ↔ s.status = .importing)
    (hcomplete : s'.status = .complete → s.status = .complete)
    (hidle : s'.status = .offered ∨ s'.status = .cancelled → s.status = .offered ∨
      s.status = .cancelled) (hduplicate : s'.duplicateOf.isSome → s'.status = .cancelled) :
    Sound C id s' f where
  key := hm ▸ h.key
  valid := hm ▸ h.valid
  length := by rw [hheld,hm,h.length]
  backed i hi := by
    rw [backed_eq hm himporting]
    exact h.backed i (hheld ▸ hi)
  bare hs := hm ▸ h.bare (himporting.mp hs)
  idle hs := hheld ▸ h.idle (hidle hs)
  duplicate := hduplicate
  complete hs := hheld ▸ h.complete (hcomplete hs)
  digest hs := hm ▸ h.digest (hcomplete hs)

theorem not_held_of_idle {l : List Bool} (h : ∀ b ∈ l, b = false) (i : ℕ) : l[i]? ≠ some true := by
  intro hi
  exact absurd (h true (List.mem_of_getElem? hi)) (by decide)

/-- A state with no piece is sound with any files. -/
theorem Sound.of_idle {m : Manifest} (hm : s.manifest = m) (hkey : m.id = id)
    (hvalid : m.validate C = .ok ()) (hlength : s.held.length = m.pieces)
    (hheld : ∀ b ∈ s.held, b = false) (hstatus : s.status ≠ .importing)
    (hcomplete : s.status ≠ .complete) (hduplicate : s.duplicateOf.isSome → s.status = .cancelled) :
    Sound C id s f where
  key := hm ▸ hkey
  valid := hm ▸ hvalid
  length := hm ▸ hlength
  backed _ hi := absurd hi (not_held_of_idle hheld _)
  bare hs := absurd hs hstatus
  idle _ := hheld
  duplicate := hduplicate
  complete hs := absurd hs hcomplete
  digest hs := absurd hs hcomplete

theorem Sound.cancelled (h : Sound C id s f) {s' : State} (hm : s'.manifest = s.manifest)
    (hheld : s'.held = s.held.map fun _ => false) (hstatus : s'.status = .cancelled) (f' : Files) :
    Sound C id s' f' := by
  apply Sound.of_idle hm h.key h.valid
  · rw [hheld,List.length_map,h.length]
  · rw [hheld]
    intro b hb
    obtain ⟨_,_,rfl⟩ := List.mem_map.mp hb
    rfl
  · rw [hstatus]
    decide
  · rw [hstatus]
    decide
  · exact fun _ => hstatus

theorem sound_fresh {m : Manifest} {status : Status} {now : U64} (hvalid : m.validate C = .ok ())
    (hstatus : status = .offered ∨ status = .importing)
    (hfiles : status = .importing → f = Files.none) :
    Sound C m.id (State.fresh m status now) f where
  key := rfl
  valid := hvalid
  length := List.length_replicate
  backed i hi := absurd (List.eq_of_mem_replicate (List.mem_of_getElem? hi)) (by decide)
  bare hs i raw plain hraw := by
    rw [hfiles hs] at hraw
    simp only [readRaw,Files.none,sequence_eq_ok,found_eq_ok] at hraw
    obtain ⟨_,hnone,_⟩ := hraw
    exact absurd hnone (by simp)
  idle _ b hb := List.eq_of_mem_replicate hb
  duplicate hs := absurd hs (by simp [State.fresh])
  complete hs := by
    obtain rfl | rfl := hstatus <;> exact absurd hs (by simp [State.fresh])
  digest hs := by
    obtain rfl | rfl := hstatus <;> exact absurd hs (by simp [State.fresh])

/-- An empty file is complete as soon as it is accepted. -/
theorem Sound.empty (h : Sound C id s f) (hheld : s.held = []) {s' : State}
    (hm : s'.manifest = s.manifest) (hheld' : s'.held = s.held) (hstatus : s'.status = .complete)
    (hduplicate : s'.duplicateOf = none) (f' : Files) : Sound C id s' f' where
  key := hm ▸ h.key
  valid := hm ▸ h.valid
  length := by rw [hheld',hm,h.length]
  backed i hi := by
    rw [hheld',hheld] at hi
    simp at hi
  bare hs := absurd (hstatus.symm.trans hs) (by decide)
  idle _ b hb := by
    rw [hheld',hheld] at hb
    exact absurd hb List.not_mem_nil
  duplicate hs := absurd hs (by simp [hduplicate])
  complete _ := by
    rw [hheld',hheld]
    rfl
  digest _ := by
    have hpieces : s.manifest.pieces = 0 := by rw [← h.length,hheld,List.length_nil]
    refine ⟨([],[]),?_,?_⟩
    · rw [hm,hpieces]
      rfl
    · rw [hm,((validate_ok h.valid).2 (size_eq_zero hpieces)).1]

/-- The file of a piece that is not held may change. -/
theorem Sound.overwritten (h : Sound C id s f) {index : U32} {file : Bytes}
    (hindex : s.held[index.val]? ≠ some true) (hlt : index.val < s.manifest.pieces)
    (hstatus : s.status ≠ .importing) : Sound C id s (f.write index file) where
  key := h.key
  valid := h.valid
  length := h.length
  backed i hi := by
    have hne : i ≠ index := by
      rintro rfl
      exact hindex hi
    have hold := h.backed i hi
    rw [backed_iff hstatus] at hold ⊢
    rw [readPieceWith_write_of_ne hne]
    exact hold
  bare hs := absurd hs hstatus
  idle := h.idle
  duplicate := h.duplicate
  complete := h.complete
  digest hs := by
    -- a complete share holds every piece
    have hall := List.all_eq_true.mp (h.complete hs)
    have hlen : index.val < s.held.length := h.length ▸ hlt
    have htrue : s.held[index.val] = true := hall _ (List.getElem_mem hlen)
    exact absurd (by rw [List.getElem?_eq_getElem hlen,htrue]) hindex

theorem getElem?_set_true {l : List Bool} {n i : ℕ} (h : (l.set n true)[i]? = some true)
    (hne : i ≠ n) : l[i]? = some true := by
  rwa [List.getElem?_set_ne hne.symm] at h

theorem verify_bounds {m : Manifest} {index : U32} {data : Bytes} {proof : List Hash}
    (hsize : m.size.val ≤ maxFileBytes) (h : verify C m index data proof = .ok ()) :
    proof.length ≤ 16 ∧ data.length ≤ pieceBytes+28 := by
  obtain ⟨_,hproof,_,plain,hplain⟩ := verify_ok h
  constructor
  · rw [hproof,Nat.clog_le_iff_le_pow Nat.one_lt_two]
    exact (pieces_lt hsize).trans (by decide)
  · simp only [Manifest.openPiece,sequence_eq_ok,require_eq_ok] at hplain
    obtain ⟨n,hn,_,hlength,_⟩ := hplain
    obtain ⟨_,rfl⟩ := cipherLen_ok hn
    omega

/-- Storing a verified piece backs it and every piece held. -/
theorem Sound.stored (h : Sound C id s f) {index : U32} {data : Bytes} {proof : List Hash}
    (hstatus : s.status ≠ .importing) (hverify : verify C s.manifest index data proof = .ok ())
    (i : U32) (hi : (s.held.set index.val true)[i.val]? = some true) :
    ∃ r, readPieceWith C (f.write index (pieceFile data proof)) s.manifest i = .ok r := by
  by_cases hne : i = index
  · subst hne
    obtain ⟨hproof,hdata⟩ := verify_bounds (validate_ok h.valid).1 hverify
    exact ⟨_,readPieceWith_stored (readRaw_write hproof hdata) hverify⟩
  · have hold := h.backed i (getElem?_set_true hi fun heq => hne (Fin.ext heq))
    rw [readPieceWith_write_of_ne hne]
    exact (backed_iff hstatus).mp hold

end Sound

/-! ## Operations keep the journal sound -/

/-- Every journal fits its files, and there are no files without a journal. -/
structure Good (C : Crypto) (c : Cache) : Prop where
  sound : ∀ id s, c.entries.find? id = some s → Sound C id s (c.files id)
  vacant : ∀ id, c.entries.find? id = none → c.files id = Files.none

section Good
variable {C : Crypto} {c : Cache} {α : Type}

theorem Good.key {c : Cache} {id : ShareId} {s : State} (hc : Good C c)
    (hs : c.entries.find? id = some s) : s.manifest.id = id :=
  (hc.sound id s hs).key

theorem Good.removed (hc : Good C c) (id : ShareId) : Good C (removed c id) where
  sound k s hs := by
    by_cases hk : k = id
    · subst hk
      rw [SwarmCache.removed,SortedMap.find?_erase_self] at hs
      exact absurd hs (by simp)
    · rw [SwarmCache.removed,SortedMap.find?_erase_of_ne _ hk] at hs
      simp only [SwarmCache.removed,Function.update_of_ne hk]
      exact hc.sound k s hs
  vacant k hk := by
    by_cases hid : k = id
    · subst hid
      exact Function.update_self _ _ _
    · rw [SwarmCache.removed,SortedMap.find?_erase_of_ne _ hid] at hk
      simp only [SwarmCache.removed,Function.update_of_ne hid]
      exact hc.vacant k hk

theorem Good.replaced (hc : Good C c) {s : State}
    (hs : Sound C s.manifest.id s (c.files s.manifest.id)) :
    Good C {c with entries := c.entries.insert s.manifest.id s} where
  sound k t ht := by
    by_cases hk : k = s.manifest.id
    · subst hk
      rw [SortedMap.find?_insert_self] at ht
      obtain rfl := Option.some.inj ht
      exact hs
    · rw [SortedMap.find?_insert_of_ne _ _ hk] at ht
      exact hc.sound k t ht
  vacant k hk := by
    by_cases hid : k = s.manifest.id
    · subst hid
      rw [SortedMap.find?_insert_self] at hk
      exact absurd hk (by simp)
    · rw [SortedMap.find?_insert_of_ne _ _ hid] at hk
      exact hc.vacant k hk

/-- New files together with a state that fits them. -/
theorem Good.filed (hc : Good C c) {s : State} {f : Files} (hs : Sound C s.manifest.id s f) :
    Good C {c with entries := c.entries.insert s.manifest.id s,
                   files := Function.update c.files s.manifest.id f} where
  sound k t ht := by
    by_cases hk : k = s.manifest.id
    · subst hk
      rw [SortedMap.find?_insert_self] at ht
      obtain rfl := Option.some.inj ht
      simp only [Function.update_self]
      exact hs
    · rw [SortedMap.find?_insert_of_ne _ _ hk] at ht
      simp only [Function.update_of_ne hk]
      exact hc.sound k t ht
  vacant k hk := by
    by_cases hid : k = s.manifest.id
    · subst hid
      rw [SortedMap.find?_insert_self] at hk
      exact absurd hk (by simp)
    · rw [SortedMap.find?_insert_of_ne _ _ hid] at hk
      simp only [Function.update_of_ne hid]
      exact hc.vacant k hk

theorem keeps_replace (hc : Good C c) {s : State}
    (hs : Sound C s.manifest.id s (c.files s.manifest.id)) : Keeps (Good C) (replace s) c :=
  Keeps.update (hc.replaced hs)

theorem keeps_relabel (hc : Good C c) {id : ShareId} {s s' : State}
    (hs : Sound C id s (c.files id)) (hm : s'.manifest = s.manifest) (hheld : s'.held = s.held)
    (himporting : s'.status = .importing ↔ s.status = .importing)
    (hcomplete : s'.status = .complete → s.status = .complete)
    (hidle : s'.status = .offered ∨ s'.status = .cancelled → s.status = .offered ∨
      s.status = .cancelled) (hduplicate : s'.duplicateOf.isSome → s'.status = .cancelled) :
    Keeps (Good C) (replace s') c := by
  have hkey : s'.manifest.id = id := by rw [hm,hs.key]
  apply keeps_replace hc
  rw [hkey]
  exact hs.relabel hm hheld himporting hcomplete hidle hduplicate

theorem good_removable : Removable (Good C) where
  key _ _ _ hc hs := hc.key hs
  removed _ id _ hc _ := hc.removed id

theorem good_offer (hc : Good C c) (m : Manifest) (now : U64) : Keeps (Good C) (offer C m now) c := by
  apply Keeps.attempt_bind hc
  intro _ hvalid
  apply Keeps.read_bind
  cases c.entries.find? m.id with
  | some old => exact Keeps.demand _ hc
  | none =>
      apply Keeps.demand_bind hc
      intro _
      apply Keeps.demand_bind hc
      intro _
      exact keeps_replace hc (sound_fresh hvalid (.inl rfl) fun h => absurd h (by decide))

theorem Sound.accepted {id : ShareId} {s : State} {f : Files} (h : Sound C id s f) (now : U64)
    (hstatus : s.status ≠ .cancelled ∧ s.status ≠ .importing ∧ s.status ≠ .failed) (f' : Files)
    (hf : s.status = .offered ∨ f' = f) : Sound C id (s.accepted now) f' := by
  unfold State.accepted
  split_ifs with hheld
  · refine h.empty hheld ?_ ?_ ?_ ?_ f'
    · rfl
    · rfl
    · rfl
    · exact h.no_alias hstatus.1
  · obtain hoffered | rfl := hf
    · exact Sound.of_idle rfl h.key h.valid h.length (h.idle (.inl hoffered)) (by simp) (by simp)
        (by simp [h.no_alias hstatus.1])
    · refine h.relabel ?_ ?_ ?_ ?_ ?_ ?_
      · rfl
      · rfl
      · simp [hstatus.2.1]
      · simp
      · simp
      · simp [h.no_alias hstatus.1]

theorem accepted_manifest (s : State) (now : U64) : (s.accepted now).manifest = s.manifest := by
  unfold State.accepted
  split_ifs <;> rfl

theorem good_accept (hc : Good C c) (id : ShareId) (now : U64) :
    Keeps (Good C) (accept id now) c := by
  apply Keeps.get_bind hc
  intro s hfind
  have hs := hc.sound id s hfind
  apply Keeps.ite
  · intro _
    exact hc
  · intro _
    apply Keeps.demand_bind hc
    intro hstatus
    by_cases hoffered : s.status = .offered
    · rw [makeRoom,if_pos hoffered]
      apply (good_removable.admitBytes _ now hc).bind
      intro _ c' hc'
      apply keeps_replace hc'
      rw [accepted_manifest,hs.key]
      exact hs.accepted now hstatus _ (.inl hoffered)
    · rw [makeRoom,if_neg hoffered]
      apply keeps_replace hc
      rw [accepted_manifest,hs.key]
      exact hs.accepted now hstatus _ (.inr rfl)

theorem good_receipt (hc : Good C c) (id : ShareId) (member : Member) :
    Keeps (Good C) (receipt id member) c := by
  apply Keeps.get_bind hc
  intro s hfind
  apply Keeps.ite
  · exact fun _ => hc
  · intro _
    apply Keeps.ite
    · intro _
      refine keeps_relabel hc (hc.sound id s hfind) ?_ ?_ ?_ ?_ ?_ ?_
      · rfl
      · rfl
      · exact Iff.rfl
      · exact fun h => h
      · exact fun h => h
      · exact (hc.sound id s hfind).duplicate
    · exact fun _ => hc

theorem good_failure (hc : Good C c) (id : ShareId) (message : String) :
    Keeps (Good C) (failure id message) c := by
  apply Keeps.get_bind hc
  intro s hfind
  refine keeps_relabel hc (hc.sound id s hfind) ?_ ?_ ?_ ?_ ?_ ?_
  · rfl
  · rfl
  · simp only
    split_ifs with h <;> simp [h]
  · simp only
    split_ifs with h <;> simp [h]
  · simp only
    split_ifs with h <;> simp [h]
  · intro hs
    have hcancelled := (hc.sound id s hfind).duplicate hs
    simp [hcancelled]

theorem good_pause (hc : Good C c) (id : ShareId) : Keeps (Good C) (pause id) c := by
  apply Keeps.get_bind hc
  intro s hfind
  apply Keeps.ite
  · intro hstatus
    have hne : s.status ≠ .importing := by
      obtain h | ⟨h,_⟩ := hstatus <;> simp [h]
    have hactive : s.status ≠ .cancelled := by
      obtain h | ⟨h,_⟩ := hstatus <;> simp [h]
    refine keeps_relabel hc (hc.sound id s hfind) ?_ ?_ ?_ ?_ ?_ ?_
    · rfl
    · rfl
    · simp [hne]
    · simp
    · simp
    · simp [(hc.sound id s hfind).no_alias hactive]
  · exact fun _ => hc

/-- A state without pieces and the removal of its files. -/
theorem keeps_cleared (hc : Good C c) {id : ShareId} {s s' : State} (hs : Sound C id s (c.files id))
    (hm : s'.manifest = s.manifest) (hheld : s'.held = s.held.map fun _ => false)
    (hstatus : s'.status = .cancelled) {f : Unit → Op α}
    (hf : ∀ c', Good C c' → Keeps (Good C) (f ()) c') :
    Keeps (Good C) (replace s' >>= fun _ => removePieces id >>= f) c := by
  have hkey : s'.manifest.id = id := by rw [hm,hs.key]
  have hgood := hc.filed (s := s') (f := Files.none) (by
    rw [hkey]
    exact hs.cancelled hm hheld hstatus _)
  rw [hkey] at hgood
  apply Keeps.update_bind
  apply Keeps.update_bind
  rw [hkey]
  exact hf _ hgood

theorem good_cancel (hc : Good C c) (id : ShareId) : Keeps (Good C) (cancel id) c := by
  apply Keeps.get_bind hc
  intro s hfind
  refine keeps_cleared hc (hc.sound id s hfind) ?_ ?_ ?_ (f := fun _ => Pure.pure ())
    fun c' hc' => Keeps.pure () hc'
  · rfl
  · rfl
  · rfl

end Good

/-! ### Imports and downloads -/

section Transfers
variable {C : Crypto} {c : Cache}

/-- A removal does not bring a share back. -/
theorem absent_removable (id : ShareId) :
    Removable fun c => Good C c ∧ c.entries.find? id = none where
  key _ _ _ hc hs := hc.1.key hs
  removed c k s hc _ := by
    refine ⟨hc.1.removed k,?_⟩
    by_cases hk : id = k
    · rw [removed,hk,SortedMap.find?_erase_self]
    · rw [removed,SortedMap.find?_erase_of_ne _ hk]
      exact hc.2

theorem Keeps.mono {P Q : Cache → Prop} {α : Type} {x : Op α} (h : Keeps P x c)
    (hPQ : ∀ c, P c → Q c) : Keeps Q x c :=
  Leads.mono h (fun _ c' hc' => hPQ c' hc') fun _ c' hc' => hPQ c' hc'

theorem good_beginImport (hc : Good C c) (id : ShareId) (scope : Scope) (name : String)
    (size now : U64) (key : Block 32) :
    Keeps (Good C) (beginImport C id scope name size now key) c := by
  have hid : (importManifest C id scope name size key).id = id := rfl
  unfold beginImport
  apply Keeps.read_bind
  cases hfind : c.entries.find? id with
  | some old =>
      apply Keeps.demand_bind hc
      intro _
      exact Keeps.demand _ hc
  | none =>
      dsimp only
      generalize importManifest C id scope name size key = m at hid ⊢
      subst hid
      apply Keeps.attempt_bind hc
      intro _ hvalid
      apply Keeps.demand_bind hc
      intro _
      have hadmit := (absent_removable (C := C) m.id).admitBytes m.reservation now ⟨hc,hfind⟩
      refine Leads.bind (Leads.mono hadmit ?_ ?_)
      · rintro _ c' ⟨hc',hnone⟩
        exact keeps_replace hc' (sound_fresh hvalid (.inr rfl) fun _ => hc'.vacant m.id hnone)
      · exact fun _ _ h => h.1

/-- A piece that opens is marked as imported. -/
theorem Sound.marked {id : ShareId} {s : State} {f : Files} (h : Sound C id s f) {index : U32}
    (hstatus : s.status = .importing)
    (hpiece : ∃ raw plain, readRaw f index = .ok raw ∧
      s.manifest.openPiece C index raw.2 = .ok plain) :
    Sound C id {s with held := s.held.set index.val true} f where
  key := h.key
  valid := h.valid
  length := by
    rw [List.length_set]
    exact h.length
  backed i hi := by
    refine (backed_importing (s := {s with held := s.held.set index.val true}) hstatus).mpr ?_
    by_cases hne : i = index
    · subst hne
      exact hpiece
    · have hold := h.backed i (getElem?_set_true hi fun heq => hne (Fin.ext heq))
      exact (backed_importing hstatus).mp hold
  bare := h.bare
  idle hs := by
    simp only [hstatus] at hs
    simp at hs
  duplicate := h.duplicate
  complete hs := absurd (hstatus.symm.trans hs) (by decide)
  digest hs := absurd (hstatus.symm.trans hs) (by decide)

/-- Writing a sealed piece of an import. -/
theorem Sound.imported {id : ShareId} {s : State} {f : Files} (h : Sound C id s f) {index : U32}
    {nonce : Block 12} {plain cipher : Bytes} (hstatus : s.status = .importing)
    (hseal : s.manifest.sealPiece C index nonce plain = .ok cipher) :
    Sound C id s (f.write index (pieceFile cipher [])) ∧
      readRaw (f.write index (pieceFile cipher [])) index = .ok ([],cipher) := by
  have hopen := open_seal hseal
  have hdata : cipher.length ≤ pieceBytes+28 := by
    have hlength := hopen
    simp only [Manifest.openPiece,sequence_eq_ok,require_eq_ok] at hlength
    obtain ⟨n,hn,_,hlen,_⟩ := hlength
    obtain ⟨_,rfl⟩ := cipherLen_ok hn
    omega
  have hraw : readRaw (f.write index (pieceFile cipher [])) index = .ok ([],cipher) :=
    readRaw_write (Nat.zero_le _) hdata
  refine ⟨⟨h.key,h.valid,h.length,?_,?_,h.idle,h.duplicate,?_,?_⟩,hraw⟩
  · intro i hi
    rw [backed_importing hstatus]
    by_cases hne : i = index
    · subst hne
      exact ⟨_,_,hraw,hopen⟩
    · rw [readRaw_write_of_ne hne]
      exact (backed_importing hstatus).mp (h.backed i hi)
  · intro hs i raw opened hread hplain
    by_cases hne : i = index
    · subst hne
      obtain rfl := Except.ok.inj (hraw.symm.trans hread)
      rfl
    · rw [readRaw_write_of_ne hne] at hread
      exact h.bare hs i raw opened hread hplain
  · intro hs
    exact absurd (hstatus.symm.trans hs) (by decide)
  · intro hs
    exact absurd (hstatus.symm.trans hs) (by decide)

end Transfers

section Storing
variable {C : Crypto} {c : Cache}

/-- New files for a state that stays. -/
theorem Good.refiled (hc : Good C c) {id : ShareId} {s : State} {f : Files}
    (hfind : c.entries.find? id = some s) (hs : Sound C id s f) :
    Good C {c with files := Function.update c.files id f} where
  sound k t ht := by
    by_cases hk : k = id
    · subst hk
      obtain rfl := Option.some.inj (hfind.symm.trans ht)
      simp only [Function.update_self]
      exact hs
    · simp only [Function.update_of_ne hk]
      exact hc.sound k t ht
  vacant k hk := by
    have hne : k ≠ id := by
      rintro rfl
      exact absurd (hfind.symm.trans hk) (by simp)
    simp only [Function.update_of_ne hne]
    exact hc.vacant k hk

theorem good_importPiece (hc : Good C c) (id : ShareId) (index : U32) (nonce : Block 12)
    (plain : Bytes) : Keeps (Good C) (importPiece C id index nonce plain) c := by
  apply Keeps.get_bind hc
  intro s hfind
  have hs := hc.sound id s hfind
  apply Keeps.demand_bind hc
  intro hstatus
  apply Keeps.attempt_bind hc
  intro n _
  apply Keeps.demand_bind hc
  intro _
  apply Keeps.read_bind
  apply Keeps.ite
  · intro _
    apply Keeps.attempt_bind hc
    intro old hold
    apply Keeps.attempt_bind hc
    intro original hopen
    apply Keeps.demand_bind hc
    intro _
    apply keeps_replace hc
    have hmarked := hs.marked hstatus ⟨old,original,hold,hopen⟩
    rw [hs.key]
    exact hmarked
  · intro _
    apply Keeps.attempt_bind hc
    intro cipher hseal
    obtain ⟨himported,hraw⟩ := hs.imported hstatus hseal
    have hmarked := himported.marked hstatus ⟨_,plain,hraw,open_seal hseal⟩
    have hgood := hc.filed (s := {s with held := s.held.set index.val true})
      (f := (c.files id).write index (pieceFile cipher [])) (by rw [hs.key]; exact hmarked)
    apply Keeps.update_bind
    apply Keeps.update
    rw [hs.key] at hgood ⊢
    exact hgood

theorem keeps_canonical (hc : Good C c) (target : ShareId) : Keeps (Good C) (canonical target) c := by
  apply Keeps.get_bind hc
  intro t _
  apply Keeps.demand_bind hc
  exact fun _ => hc

theorem open_published {m : Manifest} (x : List Bytes × Bytes) (i : U32) (data : Bytes) :
    (published C m x).openPiece C i data = m.openPiece C i data := by
  have haad : (published C m x).aad i = m.aad i := by simp only [published,Manifest.aad]
  have hlength : (published C m x).cipherLen i = m.cipherLen i := rfl
  have hkey : (published C m x).key = m.key := rfl
  simp only [Manifest.openPiece,haad,hlength,hkey]

theorem scan_published {m : Manifest} (x : List Bytes × Bytes)
    (fetch : U32 → Outcome (List Hash × Bytes)) (n i : ℕ) :
    scan C (published C m x) fetch n i = scan C m fetch n i := by
  induction n generalizing i with
  | zero => rfl
  | succ n ih => simp only [scan,ih,open_published]

/-- The published manifest is valid, and every piece reads back with its proof. -/
theorem Sound.published {id : ShareId} {s : State} {f : Files} (h : Sound C id s f)
    (hstatus : s.status = .importing) (hall : s.held.all (fun b => b) = true) {r : List Bytes × Bytes}
    (hscan : scan C s.manifest (readRaw f) s.held.length 0 = .ok r) (now : U64) :
    Sound C id
      {s with manifest := published C s.manifest r, status := .complete, completed := some now}
      {f with tree := some (treeFile C (leaves C 0 r.1))} := by
  rw [h.length] at hscan
  obtain ⟨hlength,hpieces⟩ := scan_ok hscan
  obtain ⟨hsize,hempty⟩ := validate_ok h.valid
  have hread : ∀ k < s.manifest.pieces, ∃ proof raw plain,
      readRaw f (Fin.ofNat (2^32) k) = .ok raw ∧
      s.manifest.openPiece C (Fin.ofNat (2^32) k) raw.2 = .ok plain ∧
      readPieceWith C {f with tree := some (treeFile C (leaves C 0 r.1))}
        (SwarmCache.published C s.manifest r) (Fin.ofNat (2^32) k) = .ok (proof,raw.2) := by
    intro k hk
    obtain ⟨raw,plain,hraw,hget,hplain⟩ := hpieces k hk
    rw [Nat.zero_add] at hraw hplain
    have hindex : (Fin.ofNat (2^32) k).val = k :=
      Nat.mod_eq_of_lt (hk.trans_le ((pieces_lt hsize).trans (by decide)))
    have hget' : r.1[(Fin.ofNat (2^32) k).val]? = some raw.2 := by rw [hindex,hget]
    obtain ⟨p,_,_,hclimb⟩ := indexProof_climb (C := C) hget'
    have hbare := h.bare hstatus _ raw plain hraw hplain
    have hraw' : readRaw {f with tree := some (treeFile C (leaves C 0 r.1))}
        (Fin.ofNat (2^32) k) = .ok ([],raw.2) := by
      rw [← hbare]
      exact hraw
    obtain ⟨proof,hproof⟩ := readPieceWith_published (C := C)
      (m := SwarmCache.published C s.manifest r) hraw' hget' hlength rfl (by
        rw [SwarmCache.published]
        simp only [hclimb,Option.getD_some]) ((open_published r _ _).trans hplain)
    exact ⟨proof,raw,plain,hraw,hplain,hproof⟩
  refine ⟨h.key,?_,h.length,?_,?_,?_,?_,?_,?_⟩
  · have hvalid := h.valid
    simp only [Manifest.validate,sequence_eq_ok,require_eq_ok] at hvalid ⊢
    obtain ⟨u,hscope,v,hfields,_⟩ := hvalid
    refine ⟨u,hscope,v,hfields,?_⟩
    intro hzero
    have hnone : s.manifest.pieces = 0 := by
      have hval : s.manifest.size.val = 0 := congrArg Fin.val hzero
      rw [Manifest.pieces,hval]
      rfl
    rw [hnone] at hscan
    obtain rfl : ([],[]) = r := by simpa [scan,done_eq_ok] using hscan
    exact ⟨rfl,rfl⟩
  · intro i hi
    have hlt : i.val < s.manifest.pieces := by
      rw [← h.length]
      exact (List.getElem?_eq_some_iff.mp hi).1
    obtain ⟨proof,raw,_,_,_,hproof⟩ := hread i.val hlt
    have hi' : Fin.ofNat (2^32) i.val = i := Fin.ext (Nat.mod_eq_of_lt i.isLt)
    rw [hi'] at hproof
    exact (backed_iff (by simp)).mpr ⟨_,hproof⟩
  · intro hs
    exact absurd hs (by simp)
  · intro hs
    simp at hs
  · intro hs
    exact absurd (h.duplicate hs) (by rw [hstatus]; decide)
  · exact fun _ => hall
  · intro _
    have hscan' : ∃ r', scan C s.manifest
        (readPieceWith C {f with tree := some (treeFile C (leaves C 0 r.1))}
          (SwarmCache.published C s.manifest r)) s.manifest.pieces 0 = .ok r' := by
      apply scan_exists
      intro k hk
      obtain ⟨proof,raw,plain,_,hplain,hproof⟩ := hread k hk
      rw [Nat.zero_add]
      exact ⟨(proof,raw.2),plain,hproof,hplain⟩
    obtain ⟨r',hr'⟩ := hscan'
    have hsame : r = r' := by
      apply scan_eq hscan hr'
      intro k hk a a' ha ha'
      obtain ⟨proof,raw,plain,hraw,_,hproof⟩ := hread k hk
      rw [Nat.zero_add] at ha ha'
      rw [← Except.ok.inj (hraw.symm.trans ha),← Except.ok.inj (hproof.symm.trans ha')]
    refine ⟨r',?_,?_⟩
    · rw [scan_published]
      exact hr'
    · rw [← hsame]
      rfl

theorem good_finishImport (hc : Good C c) (id : ShareId) (now : U64) :
    Keeps (Good C) (finishImport C id now) c := by
  apply Keeps.get_bind hc
  intro s hfind
  have hs := hc.sound id s hfind
  cases hd : s.duplicateOf with
  | some target => exact keeps_canonical hc target
  | none =>
      apply Keeps.ite
      · exact fun _ => hc
      · intro _
        apply Keeps.demand_bind hc
        rintro ⟨hstatus,hall⟩
        apply Keeps.read_bind
        apply Keeps.attempt_bind hc
        intro r hscan
        have hsound := hs.published hstatus hall hscan now
        have hkey : (published C s.manifest r).id = id := hs.key
        have hgood := hc.filed (s := {s with
          manifest := published C s.manifest r, status := .complete, completed := some now})
          (f := {c.files id with tree := some (treeFile C (leaves C 0 r.1))})
          (by rw [hkey]; exact hsound)
        apply Keeps.update_bind
        apply Keeps.update_bind
        rw [hkey,hd] at hgood
        rw [hkey]
        exact hgood

theorem good_reuseImport (hc : Good C c) (id : ShareId) : Keeps (Good C) (reuseImport C id) c := by
  apply Keeps.get_bind hc
  intro s hfind
  cases s.duplicateOf with
  | some target => exact keeps_canonical hc target
  | none =>
      apply Keeps.demand_bind hc
      intro _
      apply Keeps.read_bind
      cases twin c id s with
      | none => exact hc
      | some existing =>
          apply Keeps.attempt_bind hc
          intro plain _
          apply Keeps.demand_bind hc
          intro _
          refine keeps_cleared hc (hc.sound id s hfind) ?_ ?_ ?_ ?_
          · rfl
          · rfl
          · rfl
          · exact fun c' hc' => hc'

/-- A share whose held pieces all verify. -/
theorem Sound.holding {id : ShareId} {s s' : State} {f f' : Files} (h : Sound C id s f)
    (hm : s'.manifest = s.manifest) (hlength : s'.held.length = s.held.length)
    (hstatus : s'.status = .downloading ∨ s'.status = .failed ∨ s'.status = .complete)
    (hduplicate : s'.duplicateOf = none)
    (hheld : ∀ i : U32, s'.held[i.val]? = some true →
      ∃ r, readPieceWith C f' s.manifest i = .ok r)
    (hcomplete : s'.status = .complete → s'.held.all (fun b => b) = true ∧ ∃ r,
      scan C s.manifest (readPieceWith C f' s.manifest) s.manifest.pieces 0 = .ok r ∧
        C.sha256 r.2 = s.manifest.sha256) : Sound C id s' f' where
  key := hm ▸ h.key
  valid := hm ▸ h.valid
  length := by rw [hlength,hm,h.length]
  backed i hi := by
    have hne : s'.status ≠ .importing := by
      obtain hs | hs | hs := hstatus <;> rw [hs] <;> decide
    rw [backed_iff hne,hm]
    exact hheld i hi
  bare hs := by
    obtain h' | h' | h' := hstatus <;> exact absurd (h'.symm.trans hs) (by decide)
  idle hs := by
    obtain h' | h' | h' := hstatus <;> rw [h'] at hs <;> simp at hs
  duplicate hs := absurd hs (by simp [hduplicate])
  complete hs := (hcomplete hs).1
  digest hs := by
    rw [hm]
    exact (hcomplete hs).2

theorem good_put (hc : Good C c) (id : ShareId) (index : U32) (data : Bytes) (proof : List Hash)
    (now : U64) : Keeps (Good C) (put C id index data proof now) c := by
  apply Keeps.get_bind hc
  intro s hfind
  have hs := hc.sound id s hfind
  apply Keeps.demand_bind hc
  intro hstatus
  apply Keeps.attempt_bind hc
  intro _ hverify
  apply Keeps.ite
  · exact fun _ => hc
  · intro hnot
    have hlt : index.val < s.manifest.pieces := (verify_ok hverify).1
    have hindex : s.held[index.val]? ≠ some true := by
      intro heq
      rw [heq] at hnot
      exact hnot rfl
    -- a complete share holds the piece, so this one is still downloading
    have hne : s.status ≠ .importing := by
      obtain h | h := hstatus <;> rw [h] <;> decide
    have hactive : s.status ≠ .cancelled := by
      obtain h | h := hstatus <;> rw [h] <;> decide
    have hduplicate := hs.no_alias hactive
    have hdownloading : s.status = .downloading := by
      obtain h | h := hstatus
      · exact h
      · have hlen : index.val < s.held.length := hs.length ▸ hlt
        have htrue : s.held[index.val] = true :=
          List.all_eq_true.mp (hs.complete h) _ (List.getElem_mem hlen)
        exact absurd (by rw [List.getElem?_eq_getElem hlen,htrue]) hindex
    have hstored := hs.stored hne hverify
    have hover : Sound C id s ((c.files id).write index (pieceFile data proof)) :=
      hs.overwritten hindex hlt hne
    have hgood := hc.refiled hfind hover
    have hfiles : ∀ s' : State, s'.manifest = s.manifest →
        Sound C id s' ((c.files id).write index (pieceFile data proof)) →
        Keeps (Good C) (replace s') ⟨c.config,c.entries,
          Function.update c.files id ((c.files id).write index (pieceFile data proof))⟩ := by
      intro s' hm hsound
      have hkey : s'.manifest.id = id := by rw [hm,hs.key]
      apply keeps_replace hgood
      rw [hkey]
      simp only [Function.update_self]
      exact hsound
    apply Keeps.update_bind
    refine Keeps.bind (x := settle C id {s with held := s.held.set index.val true} now) ?_ ?_
    · unfold settle
      apply Keeps.ite
      · intro hall
        apply Keeps.read_bind
        apply Keeps.attempt_bind hgood
        intro r hscan
        apply Keeps.ite
        · intro _
          refine hfiles _ ?_ (hs.holding ?_ ?_ ?_ ?_ hstored ?_)
          · rfl
          · rfl
          · exact List.length_set
          · exact .inr (.inl rfl)
          · exact hduplicate
          · intro h
            exact absurd h (by simp)
        · intro hdigest
          refine hfiles _ ?_ (hs.holding ?_ ?_ ?_ ?_ hstored ?_)
          · rfl
          · rfl
          · exact List.length_set
          · exact .inr (.inr rfl)
          · exact hduplicate
          · intro _
            refine ⟨hall,r,?_,not_not.mp hdigest⟩
            simp only [Function.update_self,List.length_set,hs.length] at hscan
            exact hscan
      · intro _
        refine hfiles _ ?_ (hs.holding ?_ ?_ ?_ ?_ hstored ?_)
        · rfl
        · rfl
        · exact List.length_set
        · exact .inl hdownloading
        · exact hduplicate
        · intro h
          exact absurd (hdownloading.symm.trans h) (by decide)
    · exact fun _ c' hc' => hc'

end Storing

end Gcoms.SwarmContent
