import Gcoms.ChannelReassembly

/-!
# Channel reassembly against arbitrary fragments

Whatever payloads are pushed, the two counters agree with the parts that are
stored, and the number of unfinished messages and of their bytes is bounded. The
indexed accesses of the source are checked ones here: none of them fails. Every
stored part was received under the identifier, the number of fragments and the
index it is stored for, so a returned message is made of received parts only.
-/
namespace Gcoms.FragmentSafety
open ByteCodec Primitives RelayCells ChannelFragments ChannelReassembly

/-! ## Checked accesses -/

/-- The removal panics at an unknown position. -/
def tryRemove (b : ChannelFragmentBuffer) (position : ℕ) :
    Option (FragmentEntry × ChannelFragmentBuffer) := do
  let entry ← b.entries[position]?
  some (entry,⟨b.entries.eraseIdx position,b.bytes-entry.bytes⟩)

def tryMakeRoom : ℕ → ChannelFragmentBuffer → Option ChannelFragmentBuffer
  | 0,_ => none
  | fuel+1,b =>
      if chanFragmentSlots ≤ b.entries.length then do
        let (_,b) ← tryRemove b 0
        tryMakeRoom fuel b
      else some b

section Checked
variable (P : Suite)

def tryPlace (b : ChannelFragmentBuffer) (position : ℕ) (fragment : Block 16) (index : ℕ)
    (chunk : Bytes) : Option (Option Bytes × ChannelFragmentBuffer) := do
  let entry ← b.entries[position]?
  let part ← entry.parts[index]?
  match part with
  | some existing =>
      if existing ≠ chunk then do
        let (_,b) ← tryRemove b position
        some (none,b)
      else some (none,b)
  | none =>
      if maxChanFragmentBytes < b.bytes+chunk.length then do
        let (_,b) ← tryRemove b position
        some (none,b)
      else do
        let b : ChannelFragmentBuffer :=
          ⟨b.entries.set position (entry.store index chunk),b.bytes+chunk.length⟩
        let entry ← b.entries[position]?
        if entry.parts.any Option.isNone then some (none,b)
        else do
          let (entry,b) ← tryRemove b position
          let encoded := (entry.parts.filterMap id).flatten
          some (if fragmentId P encoded = fragment then some encoded else none,b)

def tryAccept (b : ChannelFragmentBuffer) (fragment : Block 16) (total index : ℕ) (chunk : Bytes) :
    Option (Option Bytes × ChannelFragmentBuffer) :=
  match b.entries.findIdx? (fun e => decide (e.id = fragment)) with
  | some position => do
      let entry ← b.entries[position]?
      if entry.parts.length = total then tryPlace P b position fragment index chunk
      else do
        let (_,b) ← tryRemove b position
        some (none,b)
  | none => do
      let b ← tryMakeRoom (b.entries.length+1) b
      let b := {b with entries := b.entries++[⟨fragment,List.replicate total none,0⟩]}
      tryPlace P b (b.entries.length-1) fragment index chunk

/-- A push, unless it panics. -/
def tryPush (b : ChannelFragmentBuffer) (payload : Bytes) :
    Option (Option Bytes × ChannelFragmentBuffer) :=
  if payload.head? ≠ some kindChanFragment ∨ payload.length ≤ chanFragmentHeader then some (none,b)
  else
    let index := wordAt 2 payload 17
    let total := wordAt 2 payload 19
    if ¬(2 ≤ total ∧ total ≤ maxChanFragments) ∨ total ≤ index then some (none,b)
    else tryAccept P b (blockAt 16 payload 1) total index (payload.drop chanFragmentHeader)

end Checked

/-! ## The invariant -/

def storedBytes (parts : List (Option Bytes)) : ℕ := (parts.map fun p => p.elim 0 List.length).sum

def entryBytes (entries : List FragmentEntry) : ℕ := (entries.map FragmentEntry.bytes).sum

/-- Both counters are right and the bounds hold. -/
structure Sound (b : ChannelFragmentBuffer) : Prop where
  ids : (b.entries.map FragmentEntry.id).Nodup
  slots : b.entries.length ≤ chanFragmentSlots
  parts : ∀ e ∈ b.entries, e.bytes = storedBytes e.parts
  bytes : b.bytes = entryBytes b.entries
  limit : b.bytes ≤ maxChanFragmentBytes

/-- The payload is a fragment with these fields. -/
structure Carries (payload : Bytes) (fragment : Block 16) (total index : ℕ) (chunk : Bytes) :
    Prop where
  kind : payload.head? = some kindChanFragment
  header : chanFragmentHeader < payload.length
  fragment : blockAt 16 payload 1 = fragment
  index : wordAt 2 payload 17 = index
  total : wordAt 2 payload 19 = total
  chunk : payload.drop chanFragmentHeader = chunk

def Received (log : List Bytes) (fragment : Block 16) (total index : ℕ) (chunk : Bytes) : Prop :=
  ∃ payload ∈ log, Carries payload fragment total index chunk

/-- Every stored part was received for its place. -/
def Held (log : List Bytes) (entries : List FragmentEntry) : Prop :=
  ∀ e ∈ entries, ∀ i chunk, e.parts[i]? = some (some chunk) →
    Received log e.id e.parts.length i chunk

/-- The message consists of received parts, one for each index, that agree on their number. -/
structure Assembled (P : Suite) (log : List Bytes) (fragment : Block 16) (total : ℕ)
    (message : Bytes) : Prop where
  hash : fragmentId P message = fragment
  parts : ∃ chunks : List Bytes, message = chunks.flatten ∧ chunks.length = total ∧
    ∀ i chunk, chunks[i]? = some chunk → Received log fragment total i chunk

section Invariant
variable {P : Suite} {log : List Bytes} {b : ChannelFragmentBuffer} {l₁ l₂ : List FragmentEntry}
  {e : FragmentEntry} {bytes index : ℕ} {chunk : Bytes}

theorem storedBytes_set {parts : List (Option Bytes)} (h : parts[index]? = some none) :
    storedBytes (parts.set index (some chunk)) = storedBytes parts+chunk.length := by
  induction parts generalizing index with
  | nil => simp at h
  | cons p rest ih =>
      cases index with
      | zero =>
          obtain rfl : p = none := by simpa using h
          simp [storedBytes,Nat.add_comm]
      | succ index =>
          have hrest := ih (by simpa using h)
          simp only [storedBytes,List.set_cons_succ,List.map_cons,List.sum_cons] at hrest ⊢
          omega

theorem entryBytes_middle (l₁ l₂ : List FragmentEntry) (e : FragmentEntry) :
    entryBytes (l₁++e::l₂) = entryBytes (l₁++l₂)+e.bytes := by
  simp only [entryBytes,List.map_append,List.map_cons,List.sum_append,List.sum_cons]
  omega

theorem Sound.removed (h : Sound ⟨l₁++e::l₂,bytes⟩) : Sound ⟨l₁++l₂,bytes-e.bytes⟩ := by
  have hsub : (l₁++l₂).Sublist (l₁++e::l₂) :=
    (List.Sublist.refl l₁).append (List.sublist_cons_self e l₂)
  have hbytes : bytes = entryBytes (l₁++l₂)+e.bytes :=
    h.bytes.trans (entryBytes_middle l₁ l₂ e)
  exact
    { ids := h.ids.sublist (hsub.map _)
      slots := hsub.length_le.trans h.slots
      parts := fun e he => h.parts e (hsub.subset he)
      bytes := by
        change bytes-e.bytes = entryBytes (l₁++l₂)
        omega
      limit := (Nat.sub_le _ _).trans h.limit }

theorem Held.removed (h : Held log (l₁++e::l₂)) : Held log (l₁++l₂) := fun a ha =>
  h a (((List.Sublist.refl l₁).append (List.sublist_cons_self e l₂)).subset ha)

theorem Held.mono {log' : List Bytes} {entries : List FragmentEntry} (h : Held log entries)
    (hlog : log ⊆ log') : Held log' entries := by
  intro e he i chunk hpart
  obtain ⟨payload,hmem,hcarries⟩ := h e he i chunk hpart
  exact ⟨payload,hlog hmem,hcarries⟩

theorem Sound.stored (h : Sound ⟨l₁++e::l₂,bytes⟩) (hpart : e.parts[index]? = some none)
    (hfits : bytes+chunk.length ≤ maxChanFragmentBytes) :
    Sound ⟨l₁++e.store index chunk::l₂,bytes+chunk.length⟩ where
  ids := by simpa [FragmentEntry.store] using h.ids
  slots := by simpa using h.slots
  parts := by
    intro a ha
    rcases List.mem_append.mp ha with ha | ha
    · exact h.parts a (List.mem_append_left _ ha)
    · rcases List.mem_cons.mp ha with rfl | ha
      · have hparts := h.parts e (by simp)
        change e.bytes+chunk.length = storedBytes (e.parts.set index (some chunk))
        rw [storedBytes_set hpart,hparts]
      · exact h.parts a (List.mem_append_right _ (List.mem_cons_of_mem _ ha))
  bytes := by
    have hbytes : bytes = entryBytes (l₁++l₂)+e.bytes :=
      h.bytes.trans (entryBytes_middle l₁ l₂ e)
    change bytes+chunk.length = entryBytes (l₁++e.store index chunk::l₂)
    rw [entryBytes_middle,hbytes]
    exact Nat.add_assoc _ _ _
  limit := hfits

theorem Held.stored (h : Held log (l₁++e::l₂))
    (hnew : Received log e.id e.parts.length index chunk) :
    Held log (l₁++e.store index chunk::l₂) := by
  intro a ha
  rcases List.mem_append.mp ha with ha | ha
  · exact h a (List.mem_append_left _ ha)
  · rcases List.mem_cons.mp ha with rfl | ha
    · intro i c hc
      simp only [FragmentEntry.store,List.length_set,List.getElem?_set] at hc ⊢
      split_ifs at hc with heq
      · subst heq
        obtain rfl : chunk = c := by simpa using hc
        exact hnew
      · exact h e (by simp) i c hc
    · exact h a (List.mem_append_right _ (List.mem_cons_of_mem _ ha))

/-- Without a missing part the entry is a message. -/
theorem assembled_of_full (hheld : Held log [e]) (hfull : e.parts.any Option.isNone = false)
    (hhash : fragmentId P (e.parts.filterMap id).flatten = e.id) :
    Assembled P log e.id e.parts.length (e.parts.filterMap id).flatten := by
  have hsome : e.parts = (e.parts.filterMap id).map some := by
    generalize e.parts = parts at hfull
    induction parts with
    | nil => rfl
    | cons p rest ih =>
        cases p with
        | none => simp at hfull
        | some c =>
            have hrest := ih (by simpa using hfull)
            rw [List.filterMap_cons_some (by rfl : id (some c) = some c),List.map_cons,← hrest]
  refine ⟨hhash,e.parts.filterMap id,rfl,?_,fun i c hc => ?_⟩
  · have hlen := congrArg List.length hsome
    rw [List.length_map] at hlen
    exact hlen.symm
  · refine hheld e (List.mem_singleton_self e) i c ?_
    rw [hsome,List.getElem?_map,hc]
    rfl

end Invariant

/-! ## One push -/

section Push
variable (P : Suite) {log : List Bytes} {b : ChannelFragmentBuffer} {l₁ l₂ : List FragmentEntry}
  {e : FragmentEntry} {bytes index total : ℕ} {chunk payload : Bytes} {fragment : Block 16}

/-- What a push leaves and returns. -/
structure Result (log : List Bytes) (fragment : Block 16) (total : ℕ)
    (r : Option Bytes × ChannelFragmentBuffer) : Prop where
  sound : Sound r.2
  held : Held log r.2.entries
  returned : ∀ m, r.1 = some m → Assembled P log fragment total m

theorem tryRemove_middle (l₁ l₂ : List FragmentEntry) (e : FragmentEntry) (bytes : ℕ) :
    tryRemove ⟨l₁++e::l₂,bytes⟩ l₁.length = some (e,⟨l₁++l₂,bytes-e.bytes⟩) := by
  simp [tryRemove,List.eraseIdx_append_of_length_le]

theorem Result.removed (h : Sound ⟨l₁++e::l₂,bytes⟩) (hheld : Held log (l₁++e::l₂)) :
    Result P log fragment total (none,⟨l₁++l₂,bytes-e.bytes⟩) where
  sound := h.removed
  held := hheld.removed
  returned := by simp

theorem Result.kept (h : Sound b) (hheld : Held log b.entries) :
    Result P log fragment total (none,b) where
  sound := h
  held := hheld
  returned := by simp

theorem place_result (h : Sound ⟨l₁++e::l₂,bytes⟩) (hheld : Held log (l₁++e::l₂))
    (hindex : index < e.parts.length) (hnew : Received log e.id e.parts.length index chunk) :
    Result P log e.id e.parts.length
      (ChannelFragmentBuffer.place P ⟨l₁++e::l₂,bytes⟩ l₁.length e index chunk) ∧
    tryPlace P ⟨l₁++e::l₂,bytes⟩ l₁.length e.id index chunk =
      some (ChannelFragmentBuffer.place P ⟨l₁++e::l₂,bytes⟩ l₁.length e index chunk) := by
  have hentry : (l₁++e::l₂)[l₁.length]? = some e := by simp
  have hpart : e.parts[index]? = some e.parts[index] := List.getElem?_eq_getElem hindex
  unfold tryPlace ChannelFragmentBuffer.place
  simp only [hentry,hpart,Option.bind_eq_bind,Option.bind_some,Option.join_some,remove_middle,
    tryRemove_middle]
  cases hvalue : e.parts[index] with
  | some existing =>
      dsimp only
      by_cases hsame : existing = chunk
      · simp only [hsame,ne_eq,not_true_eq_false,if_false]
        exact ⟨.kept P h hheld,trivial⟩
      · simp only [hsame,ne_eq,not_false_eq_true,if_true]
        exact ⟨.removed P h hheld,trivial⟩
  | none =>
      rw [hvalue] at hpart
      dsimp only
      by_cases hover : maxChanFragmentBytes < bytes+chunk.length
      · rw [if_pos hover,if_pos hover]
        exact ⟨.removed P h hheld,rfl⟩
      · rw [if_neg hover,if_neg hover]
        have hset : (l₁++e::l₂).set l₁.length (e.store index chunk) =
            l₁++e.store index chunk::l₂ := by simp
        have hsound := h.stored hpart (not_lt.mp hover)
        have hstored := hheld.stored hnew
        have hget : (l₁++e.store index chunk::l₂)[l₁.length]? = some (e.store index chunk) := by
          simp
        unfold ChannelFragmentBuffer.finish
        simp only [hset,hget,Option.bind_some,remove_middle,tryRemove_middle]
        cases hfull : (e.store index chunk).parts.any Option.isNone with
        | true => exact ⟨.kept P hsound hstored,rfl⟩
        | false =>
            refine ⟨⟨hsound.removed,hstored.removed,fun m hm => ?_⟩,rfl⟩
            have hone : Held log [e.store index chunk] := fun a ha =>
              hstored a (by rw [List.mem_singleton.mp ha]; simp)
            have hlen : (e.store index chunk).parts.length = e.parts.length :=
              List.length_set
            simp only [Bool.false_eq_true,if_false] at hm
            split_ifs at hm with hhash
            cases hm
            rw [← hlen]
            exact assembled_of_full hone hfull hhash

theorem makeRoom_result (b : ChannelFragmentBuffer) (h : Sound b) (hheld : Held log b.entries) :
    Sound (ChannelFragmentBuffer.makeRoom b.entries b.bytes) ∧
    Held log (ChannelFragmentBuffer.makeRoom b.entries b.bytes).entries ∧
    (ChannelFragmentBuffer.makeRoom b.entries b.bytes).entries.length < chanFragmentSlots ∧
    (ChannelFragmentBuffer.makeRoom b.entries b.bytes).entries.Sublist b.entries ∧
    tryMakeRoom (b.entries.length+1) b =
      some (ChannelFragmentBuffer.makeRoom b.entries b.bytes) := by
  obtain ⟨entries,bytes⟩ := b
  dsimp only at hheld ⊢
  induction entries generalizing bytes with
  | nil => exact ⟨h,hheld,Nat.zero_lt_succ 63,List.Sublist.refl _,rfl⟩
  | cons e rest ih =>
      rw [tryMakeRoom,ChannelFragmentBuffer.makeRoom]
      by_cases hfull : chanFragmentSlots ≤ rest.length+1
      · have hsound : Sound ⟨rest,bytes-e.bytes⟩ := @Sound.removed [] rest e bytes h
        have hrest : Held log rest := @Held.removed log [] rest e hheld
        have hremove : tryRemove ⟨e::rest,bytes⟩ 0 = some (e,⟨rest,bytes-e.bytes⟩) :=
          tryRemove_middle [] rest e bytes
        obtain ⟨h1,h2,h3,h4,h5⟩ := ih (bytes-e.bytes) hsound hrest
        have hfull' : chanFragmentSlots ≤ (e::rest).length := hfull
        rw [if_pos hfull,if_pos hfull',hremove]
        exact ⟨h1,h2,h3,h4.trans (List.sublist_cons_self e rest),h5⟩
      · have hfull' : ¬chanFragmentSlots ≤ (e::rest).length := hfull
        rw [if_neg hfull,if_neg hfull']
        exact ⟨h,hheld,not_le.mp hfull,List.Sublist.refl _,rfl⟩

theorem findIdx?_entry {position : ℕ}
    (h : b.entries.findIdx? (fun e => decide (e.id = fragment)) = some position) :
    ∃ l₁ e l₂, b.entries = l₁++e::l₂ ∧ l₁.length = position ∧ e.id = fragment := by
  obtain ⟨hlt,hid,_⟩ := List.findIdx?_eq_some_iff_getElem.mp h
  refine ⟨b.entries.take position,b.entries[position],b.entries.drop (position+1),?_,?_,?_⟩
  · rw [List.getElem_cons_drop,List.take_append_drop]
  · simp [hlt.le]
  · simpa using hid

/-- An entry without parts for a new message. -/
theorem Sound.opened (h : Sound b) (hroom : b.entries.length < chanFragmentSlots)
    (hnew : ∀ e ∈ b.entries, e.id ≠ fragment) :
    Sound ⟨b.entries++[⟨fragment,List.replicate total none,0⟩],b.bytes⟩ where
  ids := by
    rw [List.map_append,List.nodup_append]
    refine ⟨h.ids,List.nodup_singleton _,fun a ha c hc => ?_⟩
    obtain ⟨e,he,rfl⟩ := List.mem_map.mp ha
    rw [List.mem_singleton.mp hc]
    exact hnew e he
  slots := by
    rw [List.length_append]
    exact hroom
  parts := by
    intro e he
    rcases List.mem_append.mp he with he | he
    · exact h.parts e he
    · rw [List.mem_singleton.mp he]
      simp [storedBytes]
  bytes := by
    rw [h.bytes]
    simp [entryBytes]
  limit := h.limit

theorem Held.opened {entries : List FragmentEntry} (h : Held log entries) :
    Held log (entries++[⟨fragment,List.replicate total none,0⟩]) := by
  intro e he i chunk hpart
  rcases List.mem_append.mp he with he | he
  · exact h e he i chunk hpart
  · rw [List.mem_singleton.mp he] at hpart
    simp [List.getElem?_replicate] at hpart

theorem accept_result (h : Sound b) (hheld : Held log b.entries) (hindex : index < total)
    (hnew : Received log fragment total index chunk) :
    Result P log fragment total (b.accept P fragment total index chunk) ∧
    tryAccept P b fragment total index chunk = some (b.accept P fragment total index chunk) := by
  unfold tryAccept ChannelFragmentBuffer.accept
  cases hfind : b.entries.findIdx? (fun e => decide (e.id = fragment)) with
  | some position =>
      obtain ⟨l₁,e,l₂,hentries,rfl,rfl⟩ := findIdx?_entry hfind
      obtain ⟨entries,bytes⟩ := b
      dsimp only at hentries hheld
      subst hentries
      have hentry : (l₁++e::l₂)[l₁.length]? = some e := by simp
      simp only [hentry,Option.bind_eq_bind,Option.bind_some,remove_middle,tryRemove_middle]
      by_cases htotal : e.parts.length = total
      · subst htotal
        rw [if_pos rfl,if_pos rfl]
        exact place_result P h hheld hindex hnew
      · rw [if_neg htotal,if_neg htotal]
        exact ⟨.removed P h hheld,rfl⟩
  | none =>
      obtain ⟨hsound,hroom,hfree,hsub,htry⟩ := makeRoom_result b h hheld
      have hother : ∀ e ∈ (ChannelFragmentBuffer.makeRoom b.entries b.bytes).entries,
          e.id ≠ fragment := fun e he => by
        simpa using List.findIdx?_eq_none_iff.mp hfind e (hsub.subset he)
      generalize ChannelFragmentBuffer.makeRoom b.entries b.bytes = roomy at *
      have hresult := @place_result P log roomy.entries []
        ⟨fragment,List.replicate total none,0⟩ roomy.bytes index chunk
        (hsound.opened hfree hother) hroom.opened (by simpa using hindex) (by simpa using hnew)
      rw [List.length_replicate] at hresult
      simp only [htry,Option.bind_eq_bind,Option.bind_some,List.length_append,List.length_singleton,
        Nat.add_sub_cancel]
      exact hresult

theorem push_result (h : Sound b) (hheld : Held log b.entries) (payload : Bytes) :
    Result P (log++[payload]) (blockAt 16 payload 1) (wordAt 2 payload 19) (b.push P payload) ∧
    tryPush P b payload = some (b.push P payload) := by
  have hheld' : Held (log++[payload]) b.entries := hheld.mono (List.subset_append_left _ _)
  unfold tryPush ChannelFragmentBuffer.push
  by_cases hkind : payload.head? ≠ some kindChanFragment ∨ payload.length ≤ chanFragmentHeader
  · rw [if_pos hkind,if_pos hkind]
    exact ⟨.kept P h hheld',rfl⟩
  · rw [if_neg hkind,if_neg hkind]
    dsimp only
    by_cases htotal : ¬(2 ≤ wordAt 2 payload 19 ∧ wordAt 2 payload 19 ≤ maxChanFragments) ∨
        wordAt 2 payload 19 ≤ wordAt 2 payload 17
    · rw [if_pos htotal,if_pos htotal]
      exact ⟨.kept P h hheld',rfl⟩
    · rw [if_neg htotal,if_neg htotal]
      have hcarries : Carries payload (blockAt 16 payload 1) (wordAt 2 payload 19)
          (wordAt 2 payload 17) (payload.drop chanFragmentHeader) :=
        ⟨not_not.mp (not_or.mp hkind).1,not_le.mp (not_or.mp hkind).2,rfl,rfl,rfl,rfl⟩
      exact accept_result P h hheld' (not_le.mp (not_or.mp htotal).2)
        ⟨payload,by simp,hcarries⟩

end Push

/-! ## Every sequence of payloads -/

section Runs
variable (P : Suite)

/-- The buffer after the payloads. -/
def pushAll (payloads : List Bytes) (b : ChannelFragmentBuffer) : ChannelFragmentBuffer :=
  payloads.foldl (fun b payload => (b.push P payload).2) b

/-- What holds of the buffer after the payloads of the log. -/
structure Safe (log : List Bytes) (b : ChannelFragmentBuffer) : Prop where
  sound : Sound b
  pushes : ∀ payload, tryPush P b payload = some (b.push P payload)
  returned : ∀ payload m, (b.push P payload).1 = some m →
    Assembled P (log++[payload]) (blockAt 16 payload 1) (wordAt 2 payload 19) m

theorem pushAll_sound {log : List Bytes} {b : ChannelFragmentBuffer} (payloads : List Bytes)
    (h : Sound b) (hheld : Held log b.entries) :
    Sound (pushAll P payloads b) ∧ Held (log++payloads) (pushAll P payloads b).entries := by
  induction payloads generalizing log b with
  | nil =>
      rw [List.append_nil]
      exact ⟨h,hheld⟩
  | cons payload rest ih =>
      have hstep := (push_result P h hheld payload).1
      rw [List.append_cons]
      exact ih hstep.sound hstep.held

theorem reassembly_withstands_fragments (payloads : List Bytes) :
    Safe P payloads (pushAll P payloads .empty) := by
  have hempty : Sound .empty := ⟨List.nodup_nil,Nat.zero_le _,by simp [ChannelFragmentBuffer.empty],
    rfl,Nat.zero_le _⟩
  have hnone : Held [] ChannelFragmentBuffer.empty.entries := by
    simp [Held,ChannelFragmentBuffer.empty]
  obtain ⟨hsound,hheld⟩ := pushAll_sound P payloads hempty hnone
  exact ⟨hsound,fun payload => (push_result P hsound hheld payload).2,
    fun payload => (push_result P hsound hheld payload).1.returned⟩

end Runs

end Gcoms.FragmentSafety
