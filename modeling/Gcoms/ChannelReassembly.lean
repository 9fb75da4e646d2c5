import Gcoms.ChannelFragments

/-!
# Reassembly of interleaved channel messages

The fragments of several messages arrive in any order, some of them repeatedly.
After a sequence of deliveries the buffer holds one entry for each message that
has begun and is not complete, and the entry has exactly the parts delivered so
far. One delivery preserves this, and the run follows by induction.
-/
namespace Gcoms.ChannelReassembly
open ByteCodec ByteStrings Primitives RelayCells ChannelFragments

/-- A channel name and the wire bytes sent on it. -/
abbrev Message := String × Bytes

def encoding (m : Message) : Bytes := encodeChan m.1 m.2

def count (m : Message) : ℕ := chunkCount chunkSize (encoding m)

def part (m : Message) (i : ℕ) : Bytes := chunk chunkSize (encoding m) i

abbrev Delivery := Message × ℕ

theorem chunkSize_pos : 0 < chunkSize := by decide

theorem sum_part (m : Message) : ∑ i ∈ Finset.range (count m), (part m i).length =
    (encoding m).length := sum_chunk_length chunkSize_pos _

/-! ## What is sent -/

theorem getRange_field (pre post : Bytes) {bs mid : Bytes} {i j : ℕ} (h : bs = pre++(mid++post))
    (hi : pre.length = i) (hj : i+mid.length = j) : getRange bs i j = some mid := by
  rw [getRange,if_pos ?_,slice_field pre h hi hj]
  subst hi hj
  simp [h]

theorem decodeChan_encodeChan {m : Message} (hname : m.1.utf8ByteSize ≤ 2^16-1) :
    decodeChan (Cell.new .msg 0 0 (encoding m)) = some m := by
  obtain ⟨name,wire⟩ := m
  have hlt : name.utf8ByteSize < 2^16 := by
    have h : name.utf8ByteSize ≤ 2^16-1 := hname
    omega
  have henc : encodeChan name wire =
      [kindChan]++bigEndian 2 name.utf8ByteSize++utf8 name++wire := by
    rw [encodeChan,Nat.mod_eq_of_lt hlt]
  have hword := readBigEndian_bigEndian 2 name.utf8ByteSize (by omega)
  have hhead : (encodeChan name wire).head? = some kindChan := rfl
  have h1 : getRange (encodeChan name wire) 1 3 = some (bigEndian 2 name.utf8ByteSize) :=
    getRange_field [kindChan] (utf8 name++wire) (by rw [henc]; simp) rfl (by simp)
  have h2 : getRange (encodeChan name wire) 3 (3+name.utf8ByteSize) = some (utf8 name) :=
    getRange_field ([kindChan]++bigEndian 2 name.utf8ByteSize) wire (by rw [henc]; simp)
      (by simp) (by rw [utf8_length])
  have h3 : getRange (encodeChan name wire) (3+name.utf8ByteSize) (encodeChan name wire).length =
      some wire := by
    have hpre : ([kindChan]++bigEndian 2 name.utf8ByteSize++utf8 name).length =
        3+name.utf8ByteSize := by
      simp [utf8_length]
      omega
    refine getRange_field ([kindChan]++bigEndian 2 name.utf8ByteSize++utf8 name) [] ?_ hpre ?_
    · rw [henc,List.append_nil]
    · rw [henc,List.length_append,hpre]
  simp [decodeChan,Cell.new,encoding,hhead,h1,hword,h2,fromUtf8_utf8,h3]

section Fragments
variable {P : Suite} {m : Message} {cells : List Cell}

/-- The cells of a message that needs fragments. -/
theorem encodeChanCells_ok (h : encodeChanCells P m.1 m.2 = .ok cells)
    (hlong : maxMessage < (encoding m).length) :
    m.1.utf8ByteSize ≤ 2^16-1 ∧ 2 ≤ count m ∧ count m ≤ maxChanFragments ∧
    cells.length = count m ∧ ∀ i, i < count m → ∃ c, cells[i]? = some c ∧
      c.payload = fragmentPayload (fragmentId P (encoding m)) (count m) i (part m i) := by
  unfold encodeChanCells at h
  dsimp only at h
  split_ifs at h with hname hshort hbig hwide hmany
  · exact absurd hlong (not_lt.mpr hshort)
  · cases h
    have hle : count m ≤ maxChanFragments := not_lt.mp hmany
    refine ⟨not_lt.mp hname,?_,hle,by simp [count,encoding],?_⟩
    · have h2 : 2*chunkSize ≤ (encoding m).length+chunkSize-1 := by
        simp only [chunkSize,maxMessage,chanFragmentHeader] at hlong ⊢
        omega
      exact (Nat.le_div_iff_mul_le chunkSize_pos).mpr h2
    · intro i hi
      have hmod : i%65536 = i := Nat.mod_eq_of_lt (by
        unfold maxChanFragments at hle
        omega)
      have hi' : i < chunkCount chunkSize (encodeChan m.1 m.2) := hi
      refine ⟨Cell.new .msg 0 0 (fragmentPayload (fragmentId P (encoding m)) (count m) i
        (part m i)),?_,rfl⟩
      simp [chunks,hi',hmod,part,encoding,count]

theorem blockAt_field {n i : ℕ} (pre post : Bytes) {bs : Bytes} {b : Block n}
    (h : bs = pre++(b.toList++post)) (hi : pre.length = i) : blockAt n bs i = b := by
  rw [blockAt,slice_field pre h hi (by simp)]
  simpa using pad_self b []

theorem wordAt_field {n i v : ℕ} (pre post : Bytes) {bs : Bytes}
    (h : bs = pre++(bigEndian n v++post)) (hi : pre.length = i) (hv : v < 256^n) :
    wordAt n bs i = v := by
  rw [wordAt,slice_field pre h hi (by simp),readBigEndian_bigEndian n v hv]

/-- A fragment is taken apart into what it was made of. -/
theorem push_fragment (b : ChannelFragmentBuffer) {id : Block 16} {total index : ℕ} {chunk : Bytes}
    (htotal : 2 ≤ total ∧ total ≤ maxChanFragments) (hindex : index < total)
    (hchunk : 0 < chunk.length) :
    b.push P (fragmentPayload id total index chunk) = b.accept P id total index chunk := by
  have hmax : maxChanFragments = 2048 := rfl
  have h1 : wordAt 2 (fragmentPayload id total index chunk) 17 = index :=
    wordAt_field ([kindChanFragment]++id.toList) (bigEndian 2 total++chunk)
      (by simp [fragmentPayload]) (by simp) (by omega)
  have h2 : wordAt 2 (fragmentPayload id total index chunk) 19 = total :=
    wordAt_field ([kindChanFragment]++id.toList++bigEndian 2 index) chunk
      (by simp [fragmentPayload]) (by simp) (by omega)
  have h3 : blockAt 16 (fragmentPayload id total index chunk) 1 = id :=
    blockAt_field [kindChanFragment] (bigEndian 2 index++bigEndian 2 total++chunk)
      (by simp [fragmentPayload]) rfl
  have h4 : (fragmentPayload id total index chunk).drop chanFragmentHeader = chunk :=
    List.drop_left' (by simp [chanFragmentHeader])
  have h5 : (fragmentPayload id total index chunk).length = chanFragmentHeader+chunk.length := by
    simp [fragmentPayload,chanFragmentHeader]
    omega
  have hhead : (fragmentPayload id total index chunk).head? = some kindChanFragment := rfl
  unfold ChannelFragmentBuffer.push
  rw [if_neg ?_]
  · simp only [h1,h2,h3,h4]
    rw [if_neg (by omega)]
  · rintro (hne | hle)
    · exact hne hhead
    · rw [h5] at hle
      omega

end Fragments

/-! ## What the buffer holds -/

def Complete (pre : List Delivery) (m : Message) : Prop := ∀ i, i < count m → (m,i) ∈ pre

instance (pre : List Delivery) (m : Message) : Decidable (Complete pre m) :=
  inferInstanceAs (Decidable (∀ i, i < count m → (m,i) ∈ pre))

def Begun (pre : List Delivery) (m : Message) : Prop := ∃ i, (m,i) ∈ pre

def partsAt (pre : List Delivery) (m : Message) : List (Option Bytes) :=
  (List.range (count m)).map (fun i => if (m,i) ∈ pre then some (part m i) else none)

def bytesAt (pre : List Delivery) (m : Message) : ℕ :=
  ∑ i ∈ Finset.range (count m), if (m,i) ∈ pre then (part m i).length else 0

section Parts
variable {pre : List Delivery} {m : Message} {i : ℕ}

theorem partsAt_get (hi : i < count m) :
    (partsAt pre m)[i]?.join = if (m,i) ∈ pre then some (part m i) else none := by
  simp [partsAt,hi]

theorem partsAt_set : (partsAt pre m).set i (some (part m i)) = partsAt (pre++[(m,i)]) m := by
  apply List.ext_getElem?
  intro j
  rw [List.getElem?_set]
  by_cases hij : i = j
  · subst hij
    by_cases hi : i < count m
    · simp [partsAt,hi]
    · simp [partsAt,hi]
  · rw [if_neg hij,partsAt,partsAt,List.getElem?_map,List.getElem?_map]
    by_cases hj : j < count m
    · have hji : ¬j = i := fun h => hij h.symm
      simp [hj,hji]
    · simp [hj]

theorem partsAt_any : (partsAt pre m).any Option.isNone = true ↔ ¬Complete pre m := by
  unfold partsAt Complete
  rw [List.any_map,List.any_eq_true]
  push Not
  refine exists_congr (fun i => ?_)
  simp only [List.mem_range,Function.comp_apply]
  split_ifs with h <;> simp [h]

theorem partsAt_flatten (h : Complete pre m) :
    ((partsAt pre m).filterMap id).flatten = encoding m := by
  have hparts : partsAt pre m = (List.range (count m)).map (fun i => some (part m i)) := by
    apply List.map_congr_left
    intro i hi
    rw [if_pos (h i (List.mem_range.mp hi))]
  have hmap : (partsAt pre m).filterMap id = (List.range (count m)).map (part m) := by
    rw [hparts,List.filterMap_map]
    exact congrFun List.filterMap_eq_map' _
  rw [hmap]
  exact chunks_flatten chunkSize_pos (encoding m)

theorem bytesAt_snoc (hi : i < count m) (hnew : (m,i) ∉ pre) :
    bytesAt (pre++[(m,i)]) m = bytesAt pre m+(part m i).length := by
  have hsum : (part m i).length =
      ∑ j ∈ Finset.range (count m), if j = i then (part m j).length else 0 := by
    rw [Finset.sum_ite_eq',if_pos (Finset.mem_range.mpr hi)]
  rw [hsum,bytesAt,bytesAt,← Finset.sum_add_distrib]
  apply Finset.sum_congr rfl
  intro j _
  by_cases hj : j = i
  · subst hj
    simp [hnew]
  · simp [hj]

theorem bytesAt_le : bytesAt pre m ≤ (encoding m).length := by
  rw [← sum_part,bytesAt]
  apply Finset.sum_le_sum
  intro i _
  split_ifs
  · exact le_rfl
  · exact Nat.zero_le _

end Parts

section Buffer
variable (P : Suite)

def entryAt (pre : List Delivery) (m : Message) : FragmentEntry :=
  ⟨fragmentId P (encoding m),partsAt pre m,bytesAt pre m⟩

/-- The unfinished messages, in the order in which they began. -/
structure Holds (pre : List Delivery) (b : ChannelFragmentBuffer) (active : List Message) :
    Prop where
  nodup : active.Nodup
  mem : ∀ m, m ∈ active ↔ Begun pre m ∧ ¬Complete pre m
  entries : b.entries = active.map (entryAt P pre)
  bytes : b.bytes = (active.map (bytesAt pre)).sum

variable {P} {pre : List Delivery} {m m' : Message} {i : ℕ}

theorem entryAt_congr {pre' : List Delivery} (h : ∀ j, (m,j) ∈ pre' ↔ (m,j) ∈ pre) :
    entryAt P pre' m = entryAt P pre m := by
  simp [entryAt,partsAt,bytesAt,h]

theorem snoc_of_ne (h : m' ≠ m) (j : ℕ) : (m',j) ∈ pre++[(m,i)] ↔ (m',j) ∈ pre := by
  simp [h]

theorem snoc_of_mem (h : (m,i) ∈ pre) (d : Delivery) : d ∈ pre++[(m,i)] ↔ d ∈ pre := by
  simp only [List.mem_append,List.mem_singleton,or_iff_left_iff_imp]
  rintro rfl
  exact h

theorem begun_of_ne (h : m' ≠ m) : Begun (pre++[(m,i)]) m' ↔ Begun pre m' :=
  exists_congr (snoc_of_ne h)

theorem complete_of_ne (h : m' ≠ m) : Complete (pre++[(m,i)]) m' ↔ Complete pre m' :=
  forall₂_congr (fun j _ => snoc_of_ne h j)

/-- A lookup found the entry of `m`, or a new one was added. -/
structure Located (P : Suite) (pre : List Delivery) (b : ChannelFragmentBuffer)
    (l₁ : List Message) (m : Message) (l₂ : List Message) : Prop where
  nodup : (l₁++m::l₂).Nodup
  others : ∀ m', m' ≠ m → (m' ∈ l₁++l₂ ↔ Begun pre m' ∧ ¬Complete pre m')
  entries : b.entries = (l₁++m::l₂).map (entryAt P pre)
  bytes : b.bytes = ((l₁++m::l₂).map (bytesAt pre)).sum

theorem Located.ne {b : ChannelFragmentBuffer} {l₁ l₂ : List Message}
    (h : Located P pre b l₁ m l₂) {m' : Message} (hm : m' ∈ l₁++l₂) : m' ≠ m := by
  rintro rfl
  have hn := List.nodup_middle.mp h.nodup
  exact (List.nodup_cons.mp hn).1 hm

section Located
variable {b : ChannelFragmentBuffer} {l₁ l₂ : List Message}

theorem Located.entries_others (h : Located P pre b l₁ m l₂) :
    l₁.map (entryAt P (pre++[(m,i)])) = l₁.map (entryAt P pre) ∧
      l₂.map (entryAt P (pre++[(m,i)])) = l₂.map (entryAt P pre) := by
  refine ⟨List.map_congr_left ?_,List.map_congr_left ?_⟩
  · intro m' hm
    exact entryAt_congr (snoc_of_ne (h.ne (List.mem_append_left _ hm)))
  · intro m' hm
    exact entryAt_congr (snoc_of_ne (h.ne (List.mem_append_right _ hm)))

theorem Located.bytes_others (h : Located P pre b l₁ m l₂) :
    l₁.map (bytesAt (pre++[(m,i)])) = l₁.map (bytesAt pre) ∧
      l₂.map (bytesAt (pre++[(m,i)])) = l₂.map (bytesAt pre) := by
  obtain ⟨h1,h2⟩ := h.entries_others (i := i)
  have hbytes : ∀ p, bytesAt p = FragmentEntry.bytes ∘ entryAt P p := fun p => rfl
  rw [hbytes,hbytes,← List.map_map,← List.map_map,← List.map_map,← List.map_map,h1,h2]
  exact ⟨rfl,rfl⟩

/-- The message stays unfinished after a part of it. -/
theorem Located.unfinished (h : Located P pre b l₁ m l₂) {b' : ChannelFragmentBuffer}
    (hopen : ¬Complete (pre++[(m,i)]) m)
    (hentries : b'.entries = (l₁++m::l₂).map (entryAt P (pre++[(m,i)])))
    (hbytes : b'.bytes = ((l₁++m::l₂).map (bytesAt (pre++[(m,i)]))).sum) :
    Holds P (pre++[(m,i)]) b' (l₁++m::l₂) := by
  refine ⟨h.nodup,fun m' => ?_,hentries,hbytes⟩
  by_cases hm : m' = m
  · subst hm
    exact ⟨fun _ => ⟨⟨i,by simp⟩,hopen⟩,fun _ => by simp⟩
  · rw [begun_of_ne hm,complete_of_ne hm,← h.others m' hm]
    simp [hm]

/-- The message is complete and its entry is removed. -/
theorem Located.finished (h : Located P pre b l₁ m l₂) {b' : ChannelFragmentBuffer}
    (hdone : Complete (pre++[(m,i)]) m) (hentries : b'.entries = (l₁++l₂).map (entryAt P pre))
    (hbytes : b'.bytes = ((l₁++l₂).map (bytesAt pre)).sum) :
    Holds P (pre++[(m,i)]) b' (l₁++l₂) := by
  obtain ⟨he1,he2⟩ := h.entries_others (i := i)
  obtain ⟨hb1,hb2⟩ := h.bytes_others (i := i)
  refine ⟨?_,fun m' => ?_,?_,?_⟩
  · exact (List.nodup_cons.mp (List.nodup_middle.mp h.nodup)).2
  · by_cases hm : m' = m
    · subst hm
      exact ⟨fun hmem => absurd rfl (h.ne hmem),fun hmem => absurd hdone hmem.2⟩
    · rw [begun_of_ne hm,complete_of_ne hm]
      exact h.others m' hm
  · rw [hentries,List.map_append,List.map_append,he1,he2]
  · rw [hbytes,List.map_append,List.map_append,hb1,hb2]

theorem Located.repeated (h : Located P pre b l₁ m l₂) (hi : i < count m)
    (hopen : ¬Complete pre m) (hold : (m,i) ∈ pre) :
    ∃ b' active, b.place P l₁.length (entryAt P pre m) i (part m i) =
        (if Complete (pre++[(m,i)]) m then some (encoding m) else none,b') ∧
      Holds P (pre++[(m,i)]) b' active := by
  have hget : (entryAt P pre m).parts[i]?.join = _ := partsAt_get hi
  rw [if_pos hold] at hget
  have hsame := snoc_of_mem hold
  have hcomplete : ¬Complete (pre++[(m,i)]) m := by
    intro hc
    exact hopen (fun j hj => (hsame _).mp (hc j hj))
  have hentry : entryAt P (pre++[(m,i)]) m = entryAt P pre m := entryAt_congr (fun j => hsame _)
  have hbytes : bytesAt (pre++[(m,i)]) m = bytesAt pre m := congrArg FragmentEntry.bytes hentry
  obtain ⟨he1,he2⟩ := h.entries_others (i := i)
  obtain ⟨hb1,hb2⟩ := h.bytes_others (i := i)
  refine ⟨b,l₁++m::l₂,?_,h.unfinished hcomplete ?_ ?_⟩
  · rw [ChannelFragmentBuffer.place,hget,if_neg hcomplete]
    simp
  · rw [h.entries,List.map_append,List.map_append,List.map_cons,List.map_cons,he1,he2,hentry]
  · rw [h.bytes,List.map_append,List.map_append,List.map_cons,List.map_cons,hb1,hb2,hbytes]

theorem remove_middle (l₁ l₂ : List FragmentEntry) (e : FragmentEntry) (bytes : ℕ) :
    ChannelFragmentBuffer.remove ⟨l₁++e::l₂,bytes⟩ l₁.length = ⟨l₁++l₂,bytes-e.bytes⟩ := by
  simp [ChannelFragmentBuffer.remove,List.eraseIdx_append_of_length_le]

theorem place_new {b : ChannelFragmentBuffer} {entry : FragmentEntry} {position index : ℕ}
    {chunk : Bytes} (hget : entry.parts[index]?.join = none)
    (hfits : b.bytes+chunk.length ≤ maxChanFragmentBytes) :
    b.place P position entry index chunk = ChannelFragmentBuffer.finish P
      ⟨b.entries.set position (entry.store index chunk),b.bytes+chunk.length⟩ position
      (entry.store index chunk) := by
  rw [ChannelFragmentBuffer.place,hget]
  exact if_neg (not_lt.mpr hfits)

theorem Located.stored (h : Located P pre b l₁ m l₂) (hi : i < count m) (hnew : (m,i) ∉ pre)
    (hroom : ((l₁++m::l₂).map (fun m => (encoding m).length)).sum ≤ maxChanFragmentBytes) :
    ∃ b' active, b.place P l₁.length (entryAt P pre m) i (part m i) =
        (if Complete (pre++[(m,i)]) m then some (encoding m) else none,b') ∧
      Holds P (pre++[(m,i)]) b' active := by
  have hget : (entryAt P pre m).parts[i]?.join = _ := partsAt_get hi
  rw [if_neg hnew] at hget
  obtain ⟨he1,he2⟩ := h.entries_others (i := i)
  obtain ⟨hb1,hb2⟩ := h.bytes_others (i := i)
  have hstep := bytesAt_snoc hi hnew
  have hbytes : b.bytes+(part m i).length = ((l₁++m::l₂).map (bytesAt (pre++[(m,i)]))).sum := by
    rw [h.bytes,List.map_append,List.map_append,List.map_cons,List.map_cons,hb1,hb2,hstep]
    simp only [List.sum_append,List.sum_cons]
    omega
  have hfits : b.bytes+(part m i).length ≤ maxChanFragmentBytes := by
    rw [hbytes]
    refine le_trans ?_ hroom
    exact List.sum_le_sum (fun m' _ => bytesAt_le)
  have hentry : (entryAt P pre m).store i (part m i) = entryAt P (pre++[(m,i)]) m := by
    simp only [FragmentEntry.store,entryAt,partsAt_set,hstep]
  have hset : b.entries.set l₁.length (entryAt P (pre++[(m,i)]) m) =
      (l₁++m::l₂).map (entryAt P (pre++[(m,i)])) := by
    rw [h.entries,List.map_append,List.map_append,List.map_cons,List.map_cons,he1,he2,
      List.set_append_right _ _ (by simp)]
    simp
  rw [place_new hget hfits,hentry,hset,ChannelFragmentBuffer.finish]
  by_cases hdone : Complete (pre++[(m,i)]) m
  · have hany : ¬(entryAt P (pre++[(m,i)]) m).parts.any Option.isNone = true := by
      intro hany
      exact partsAt_any.mp hany hdone
    rw [if_neg hany,if_pos hdone]
    have hflat : ((entryAt P (pre++[(m,i)]) m).parts.filterMap id).flatten = encoding m :=
      partsAt_flatten hdone
    have hid : fragmentId P (encoding m) = (entryAt P (pre++[(m,i)]) m).id := rfl
    rw [hflat]
    dsimp only
    rw [if_pos hid]
    have hremove := remove_middle (l₁.map (entryAt P pre)) (l₂.map (entryAt P pre))
      (entryAt P (pre++[(m,i)]) m) (b.bytes+(part m i).length)
    rw [List.length_map] at hremove
    rw [List.map_append,List.map_cons,he1,he2,hremove]
    refine ⟨_,l₁++l₂,rfl,h.finished hdone (List.map_append ..).symm ?_⟩
    rw [List.map_append,List.map_cons,hb1,hb2,List.sum_append,List.sum_cons] at hbytes
    rw [List.map_append,List.sum_append]
    change _-bytesAt (pre++[(m,i)]) m = _
    omega
  · have hany : (entryAt P (pre++[(m,i)]) m).parts.any Option.isNone = true := partsAt_any.mpr hdone
    rw [if_pos hany,if_neg hdone]
    exact ⟨_,l₁++m::l₂,rfl,h.unfinished hdone rfl hbytes⟩

end Located

/-! ## One delivery -/

/-- Messages that fit the buffer together. -/
structure Batch (P : Suite) (messages : Finset Message) : Prop where
  slots : messages.card ≤ chanFragmentSlots
  ids : Set.InjOn (fun m => fragmentId P (encoding m)) messages
  bytes : ∑ m ∈ messages, (encoding m).length ≤ maxChanFragmentBytes

section Delivery
variable {messages : Finset Message} {b : ChannelFragmentBuffer} {active : List Message}

theorem sum_le_of_nodup {l : List Message} (hn : l.Nodup) (hl : ∀ m ∈ l, m ∈ messages) :
    (l.map (fun m => (encoding m).length)).sum ≤ ∑ m ∈ messages, (encoding m).length := by
  rw [← List.sum_toFinset _ hn]
  apply Finset.sum_le_sum_of_subset
  intro m hm
  exact hl m (List.mem_toFinset.mp hm)

theorem makeRoom_of_lt {entries : List FragmentEntry} {bytes : ℕ}
    (h : entries.length < chanFragmentSlots) :
    ChannelFragmentBuffer.makeRoom entries bytes = ⟨entries,bytes⟩ := by
  cases entries with
  | nil => rfl
  | cons e rest =>
      rw [ChannelFragmentBuffer.makeRoom,if_neg]
      simpa using h

theorem entryAt_new (h : ¬Begun pre m) :
    entryAt P pre m = ⟨fragmentId P (encoding m),List.replicate (count m) none,0⟩ := by
  have hno : ∀ j, (m,j) ∉ pre := fun j hj => h ⟨j,hj⟩
  have hparts : partsAt pre m = List.replicate (count m) none := by
    simp [partsAt,hno,List.map_const']
  have hbytes : bytesAt pre m = 0 := by
    simp [bytesAt,hno]
  rw [entryAt,hparts,hbytes]

theorem Holds.accept (hbatch : Batch P messages) (h : Holds P pre b active)
    (hpre : ∀ d ∈ pre, d.1 ∈ messages) (hm : m ∈ messages) (hi : i < count m)
    (hopen : ¬Complete pre m) :
    ∃ b' active', b.accept P (fragmentId P (encoding m)) (count m) i (part m i) =
        (if Complete (pre++[(m,i)]) m then some (encoding m) else none,b') ∧
      Holds P (pre++[(m,i)]) b' active' := by
  have hactive : ∀ m' ∈ active, m' ∈ messages := by
    intro m' hm'
    obtain ⟨j,hj⟩ := ((h.mem m').mp hm').1
    exact hpre _ hj
  have hother : ∀ m' ∈ messages, m' ≠ m → ¬(entryAt P pre m').id = fragmentId P (encoding m) :=
    fun m' hm' hne hid => hne (hbatch.ids hm' hm hid)
  have hplace : ∀ {b : ChannelFragmentBuffer} {l₁ l₂ : List Message}, Located P pre b l₁ m l₂ →
      (∀ m' ∈ l₁++m::l₂, m' ∈ messages) →
      ∃ b' active', b.place P l₁.length (entryAt P pre m) i (part m i) =
          (if Complete (pre++[(m,i)]) m then some (encoding m) else none,b') ∧
        Holds P (pre++[(m,i)]) b' active' := by
    intro b l₁ l₂ hloc hmem
    by_cases hold : (m,i) ∈ pre
    · exact hloc.repeated hi hopen hold
    · exact hloc.stored hi hold ((sum_le_of_nodup hloc.nodup hmem).trans hbatch.bytes)
  unfold ChannelFragmentBuffer.accept
  by_cases hin : m ∈ active
  · obtain ⟨l₁,l₂,rfl⟩ := List.mem_iff_append.mp hin
    have hloc : Located P pre b l₁ m l₂ := by
      refine ⟨h.nodup,fun m' hne => ?_,h.entries,h.bytes⟩
      rw [← h.mem m']
      simp [hne]
    have hfirst : ∀ m' ∈ l₁, decide ((entryAt P pre m').id = fragmentId P (encoding m)) = false := by
      intro m' hm'
      have hne := hloc.ne (List.mem_append_left l₂ hm')
      simpa using hother m' (hactive m' (List.mem_append_left _ hm')) hne
    have hfind : b.entries.findIdx? (fun e => decide (e.id = fragmentId P (encoding m))) =
        some l₁.length := by
      have hnone : (l₁.map (entryAt P pre)).findIdx?
          (fun e => decide (e.id = fragmentId P (encoding m))) = none := by
        rw [List.findIdx?_eq_none_iff]
        intro e he
        obtain ⟨m',hm',rfl⟩ := List.mem_map.mp he
        exact hfirst m' hm'
      have hid : (entryAt P pre m).id = fragmentId P (encoding m) := rfl
      rw [h.entries,List.map_append,List.map_cons,List.findIdx?_append,hnone,List.findIdx?_cons]
      simp [hid]
    have hget : b.entries[l₁.length]? = some (entryAt P pre m) := by
      rw [h.entries]
      simp
    have hlen : (entryAt P pre m).parts.length = count m := by
      simp [entryAt,partsAt]
    rw [hfind]
    dsimp only
    rw [hget]
    dsimp only
    rw [if_pos hlen]
    exact hplace hloc hactive
  · have hnew : ¬Begun pre m := fun hb => hin ((h.mem m).mpr ⟨hb,hopen⟩)
    have hfind : b.entries.findIdx? (fun e => decide (e.id = fragmentId P (encoding m))) =
        none := by
      rw [List.findIdx?_eq_none_iff,h.entries]
      intro e he
      obtain ⟨m',hm',rfl⟩ := List.mem_map.mp he
      have hne : m' ≠ m := by
        rintro rfl
        exact hin hm'
      simpa using hother m' (hactive m' hm') hne
    have hslots : b.entries.length < chanFragmentSlots := by
      have hsub : active.toFinset ⊆ messages.erase m := by
        intro m' hm'
        rw [List.mem_toFinset] at hm'
        refine Finset.mem_erase.mpr ⟨?_,hactive m' hm'⟩
        rintro rfl
        exact hin hm'
      have hcard := Finset.card_le_card hsub
      rw [List.toFinset_card_of_nodup h.nodup,Finset.card_erase_of_mem hm] at hcard
      have hpos : 0 < messages.card := Finset.card_pos.mpr ⟨m,hm⟩
      have hslots := hbatch.slots
      rw [h.entries,List.length_map]
      omega
    rw [hfind]
    dsimp only
    rw [makeRoom_of_lt hslots,← entryAt_new hnew]
    have hloc : Located P pre ⟨b.entries++[entryAt P pre m],b.bytes⟩ active m [] := by
      have hbytes : bytesAt pre m = 0 := congrArg FragmentEntry.bytes (entryAt_new (P := P) hnew)
      refine ⟨?_,fun m' hne => ?_,?_,?_⟩
      · exact List.nodup_append.mpr ⟨h.nodup,List.nodup_singleton m,by
          intro a ha b hb hab
          rw [List.mem_singleton.mp hb] at hab
          exact hin (hab ▸ ha)⟩
      · rw [List.append_nil]
        exact h.mem m'
      · simp [h.entries]
      · simp [h.bytes,hbytes]
    have hlength : b.entries.length = active.length := by
      rw [h.entries,List.length_map]
    dsimp only
    rw [hlength]
    refine hplace hloc (fun m' hm' => ?_)
    rcases List.mem_append.mp hm' with hmem | hmem
    · exact hactive m' hmem
    · rw [List.mem_singleton.mp hmem]
      exact hm

end Delivery

end Buffer

/-! ## Whole deliveries -/

section Run
variable (P : Suite)

/-- The results of the pushes, in order, and the buffer at the end. -/
def run (cells : Message → List Cell) :
    List Delivery → ChannelFragmentBuffer → List (Option Bytes) × ChannelFragmentBuffer
  | [],b => ([],b)
  | d::ds,b =>
      let pushed := b.push P ((cells d.1)[d.2]?.elim [] Cell.payload)
      let rest := run cells ds pushed.2
      (pushed.1::rest.1,rest.2)

/-- Fragments in any order, each at least once and none after its message is complete. -/
structure Interleaving (messages : Finset Message) (cells : Message → List Cell)
    (ds : List Delivery) : Prop where
  fragments : ∀ d ∈ ds, d.1 ∈ messages ∧ d.2 < (cells d.1).length
  all : ∀ m ∈ messages, ∀ i < (cells m).length, (m,i) ∈ ds
  pending : ∀ pre d post, ds = pre++d::post → ∃ i < (cells d.1).length, (d.1,i) ∉ pre

/-- The message is returned at its last missing part. -/
def expected (pre : List Delivery) (d : Delivery) : Option Bytes :=
  if Complete (pre++[d]) d.1 then some (encoding d.1) else none

def expectedAll : List Delivery → List Delivery → List (Option Bytes)
  | _,[] => []
  | pre,d::ds => expected pre d::expectedAll (pre++[d]) ds

theorem expectedAll_get (pre ds : List Delivery) (k : ℕ) :
    (expectedAll pre ds)[k]? = ds[k]?.map (expected (pre++ds.take k)) := by
  induction ds generalizing pre k with
  | nil => rfl
  | cons d ds ih =>
      cases k with
      | zero => simp [expectedAll]
      | succ k => simp [expectedAll,ih]

/-- No part arrives after its message is complete. -/
def Timely (pre ds : List Delivery) : Prop :=
  ∀ mid d post, ds = mid++d::post → ¬Complete (pre++mid) d.1

theorem Timely.head {pre ds : List Delivery} {d : Delivery} (h : Timely pre (d::ds)) :
    ¬Complete pre d.1 := by
  have h0 := h [] d ds rfl
  rwa [List.append_nil] at h0

theorem Timely.tail {pre ds : List Delivery} {d : Delivery} (h : Timely pre (d::ds)) :
    Timely (pre++[d]) ds := by
  intro mid e post he
  have hd := h (d::mid) e post (by rw [he]; rfl)
  rwa [List.append_assoc]

theorem complete_mono {pre post : List Delivery} {m : Message} (h : Complete pre m) :
    Complete (pre++post) m :=
  fun i hi => List.mem_append_left post (h i hi)

/-- Each completed message is returned once. -/
theorem expectedAll_returned {messages : Finset Message} (pre ds : List Delivery)
    (hds : ∀ d ∈ ds, d.1 ∈ messages) (htimely : Timely pre ds) :
    ((expectedAll pre ds).filterMap id : Multiset Bytes)+
        (messages.filter (Complete pre)).val.map encoding =
      (messages.filter (Complete (pre++ds))).val.map encoding := by
  induction ds generalizing pre with
  | nil => simp [expectedAll]
  | cons d ds ih =>
      have htail := ih (pre++[d]) (fun e he => hds e (List.mem_cons_of_mem d he)) htimely.tail
      rw [List.append_assoc,List.singleton_append] at htail
      rw [← htail,expectedAll,expected]
      have hopen := htimely.head
      have hothers : ∀ m, m ≠ d.1 → (Complete (pre++[d]) m ↔ Complete pre m) :=
        fun m hm => complete_of_ne hm
      by_cases hdone : Complete (pre++[d]) d.1
      · have hfilter : messages.filter (Complete (pre++[d])) =
            insert d.1 (messages.filter (Complete pre)) := by
          ext m
          by_cases hm : m = d.1
          · subst hm
            simp [hdone,hds d]
          · simp [hm,hothers m hm]
        have hnot : d.1 ∉ messages.filter (Complete pre) := by
          simp [hopen]
        rw [if_pos hdone,hfilter,Finset.insert_val_of_notMem hnot,Multiset.map_cons,
          List.filterMap_cons_some (rfl : id (some (encoding d.1)) = _),← Multiset.cons_coe,
          Multiset.cons_add,Multiset.add_cons]
      · have hfilter : messages.filter (Complete (pre++[d])) = messages.filter (Complete pre) := by
          ext m
          by_cases hm : m = d.1
          · subst hm
            simp [hdone,hopen]
          · simp [hothers m hm]
        rw [if_neg hdone,hfilter]
        rfl

variable {P} {messages : Finset Message} {cells : Message → List Cell}

theorem run_expected (hbatch : Batch P messages)
    (hlong : ∀ m ∈ messages, maxMessage < (encoding m).length)
    (hcells : ∀ m ∈ messages, encodeChanCells P m.1 m.2 = .ok (cells m))
    (pre ds : List Delivery) {b : ChannelFragmentBuffer} {active : List Message}
    (hb : Holds P pre b active) (hpre : ∀ d ∈ pre, d.1 ∈ messages)
    (hds : ∀ d ∈ ds, d.1 ∈ messages ∧ d.2 < count d.1) (htimely : Timely pre ds) :
    ∃ b' active', run P cells ds b = (expectedAll pre ds,b') ∧ Holds P (pre++ds) b' active' := by
  induction ds generalizing pre b active with
  | nil => exact ⟨b,active,rfl,by rwa [List.append_nil]⟩
  | cons d ds ih =>
      obtain ⟨m,i⟩ := d
      obtain ⟨hm,hi⟩ := hds (m,i) List.mem_cons_self
      obtain ⟨-,h2,hmax,-,hget⟩ := encodeChanCells_ok (hcells m hm) (hlong m hm)
      obtain ⟨c,hc,hpayload⟩ := hget i hi
      have hpush : b.push P ((cells m)[i]?.elim [] Cell.payload) =
          b.accept P (fragmentId P (encoding m)) (count m) i (part m i) := by
        rw [hc,Option.elim_some,hpayload]
        exact push_fragment b ⟨h2,hmax⟩ hi (chunk_length_pos chunkSize_pos hi)
      obtain ⟨b₁,active₁,haccept,hb₁⟩ := hb.accept hbatch hpre hm hi htimely.head
      obtain ⟨b',active',hrun,hb'⟩ := ih (pre++[(m,i)]) hb₁ (by
          intro e he
          rcases List.mem_append.mp he with he | he
          · exact hpre e he
          · rw [List.mem_singleton.mp he]
            exact hm) (fun e he => hds e (List.mem_cons_of_mem _ he)) htimely.tail
      refine ⟨b',active',?_,by rwa [List.append_assoc,List.singleton_append] at hb'⟩
      rw [run,hpush,haccept]
      dsimp only
      rw [hrun]
      rfl

theorem holds_empty : Holds P [] ChannelFragmentBuffer.empty [] where
  nodup := List.nodup_nil
  mem m := by simp [Begun]
  entries := rfl
  bytes := rfl

/-- Interleaved fragments of several messages are put together again: each message
is returned exactly once, at the push of its last missing fragment, and decodes to
what was sent, and the buffer ends empty. -/
theorem messages_survive_fragmentation (messages : Finset Message) (cells : Message → List Cell)
    (ds : List Delivery) (hcard : messages.card ≤ 64)
    (hids : Set.InjOn (fun m => fragmentId P (encoding m)) messages)
    (hlong : ∀ m ∈ messages, maxMessage < (encoding m).length)
    (hbytes : ∑ m ∈ messages, (encoding m).length ≤ maxChanFragmentBytes)
    (hcells : ∀ m ∈ messages, encodeChanCells P m.1 m.2 = .ok (cells m))
    (hds : Interleaving messages cells ds) :
    (∀ k m i, ds[k]? = some (m,i) →
      (run P cells ds ChannelFragmentBuffer.empty).1[k]? =
        some (if ∀ j < (cells m).length, (m,j) ∈ ds.take (k+1) then some (encoding m) else none)) ∧
    ((run P cells ds ChannelFragmentBuffer.empty).1.filterMap id).Perm
      (messages.toList.map encoding) ∧
    (∀ m ∈ messages, decodeChan (Cell.new .msg 0 0 (encoding m)) = some m) ∧
    (run P cells ds ChannelFragmentBuffer.empty).2 = ChannelFragmentBuffer.empty := by
  have hbatch : Batch P messages := ⟨hcard,hids,hbytes⟩
  have hlength : ∀ m ∈ messages, (cells m).length = count m :=
    fun m hm => (encodeChanCells_ok (hcells m hm) (hlong m hm)).2.2.2.1
  have hmem : ∀ d ∈ ds, d.1 ∈ messages ∧ d.2 < count d.1 := by
    intro d hd
    obtain ⟨hm,hi⟩ := hds.fragments d hd
    rw [hlength d.1 hm] at hi
    exact ⟨hm,hi⟩
  have htimely : Timely [] ds := by
    intro mid d post hsplit hc
    have hd : d ∈ ds := by simp [hsplit]
    obtain ⟨i,hi,hnot⟩ := hds.pending mid d post hsplit
    rw [hlength d.1 (hmem d hd).1] at hi
    exact hnot (hc i hi)
  have hall : ∀ m ∈ messages, Complete ds m := by
    intro m hm i hi
    rw [← hlength m hm] at hi
    exact hds.all m hm i hi
  obtain ⟨b',active,hrun,hb'⟩ := run_expected hbatch hlong hcells [] ds holds_empty (by simp)
    hmem htimely
  rw [List.nil_append] at hb'
  rw [hrun]
  refine ⟨fun k m i hk => ?_,?_,?_,?_⟩
  · have hm := (hmem (m,i) (List.mem_of_getElem? hk)).1
    rw [expectedAll_get,hk,Option.map_some,List.nil_append]
    have htake : ds.take (k+1) = ds.take k++[(m,i)] := by
      rw [List.take_add_one,hk]
      rfl
    rw [hlength m hm,htake]
    rfl
  · have hreturned := expectedAll_returned [] ds (fun d hd => (hmem d hd).1) htimely
    have hnone : messages.filter (Complete []) = ∅ := by
      rw [Finset.filter_eq_empty_iff]
      intro m hm hc
      have h2 := (encodeChanCells_ok (hcells m hm) (hlong m hm)).2.1
      exact absurd (hc 0 (by omega)) List.not_mem_nil
    have hevery : messages.filter (Complete ([]++ds)) = messages := by
      rw [Finset.filter_eq_self]
      exact hall
    rw [hnone,hevery,← Finset.coe_toList messages] at hreturned
    simp only [Finset.empty_val,Multiset.map_zero,add_zero,Multiset.map_coe] at hreturned
    exact Multiset.coe_eq_coe.mp hreturned
  · intro m hm
    exact decodeChan_encodeChan (encodeChanCells_ok (hcells m hm) (hlong m hm)).1
  · have hactive : active = [] := by
      rw [List.eq_nil_iff_forall_not_mem]
      intro m hm
      obtain ⟨⟨i,hi⟩,hopen⟩ := (hb'.mem m).mp hm
      exact hopen (hall m (hmem _ hi).1)
    obtain ⟨entries,bytes⟩ := b'
    have he := hb'.entries
    have hbs := hb'.bytes
    rw [hactive] at he hbs
    simp only [List.map_nil,List.sum_nil] at he hbs
    rw [he,hbs]
    rfl

/-- A message with a short enough name that fits the buffer can be sent. -/
theorem encodeChanCells_total {m : Message} (hname : m.1.utf8ByteSize ≤ 2^16-1)
    (hfits : (encoding m).length ≤ maxChanFragmentBytes) :
    ∃ cells, encodeChanCells P m.1 m.2 = .ok cells := by
  have hcount : chunkCount chunkSize (encodeChan m.1 m.2) ≤ maxChanFragments := by
    have hlen : (encodeChan m.1 m.2).length ≤ maxChanFragmentBytes := hfits
    unfold chunkCount
    apply Nat.div_le_of_le_mul
    simp only [maxChanFragmentBytes,maxChanFragments,chunkSize,maxMessage,chanFragmentHeader] at *
    omega
  have hwide : ¬2^16-1 < chunkCount chunkSize (encodeChan m.1 m.2) := by
    unfold maxChanFragments at hcount
    omega
  unfold encodeChanCells
  rw [if_neg (not_lt.mpr hname)]
  dsimp only
  split_ifs with hshort hbig hmany
  · exact ⟨_,rfl⟩
  · exact absurd hbig (not_lt.mpr hfits)
  · exact absurd hmany (not_lt.mpr hcount)
  · exact ⟨_,rfl⟩

end Run

/-- A message of two fragments. -/
def sampleLong : Message := ("a",List.replicate 16000 0)

def sampleCells (m : Message) : List Cell := (encodeChanCells openSuite m.1 m.2).toOption.getD []

def sampleDeliveries : List Delivery := [(sampleLong,1),(sampleLong,1),(sampleLong,0)]

theorem sampleLong_length : (encoding sampleLong).length = 16004 := by
  have hname : (utf8 sampleLong.1).length = 1 := utf8_length "a"
  have hwire : sampleLong.2.length = 16000 := List.length_replicate
  unfold encoding encodeChan
  rw [List.length_append,List.length_append,List.length_append,hname,hwire,bigEndian_length]
  rfl

theorem sampleCells_eq : encodeChanCells openSuite sampleLong.1 sampleLong.2 =
    .ok (sampleCells sampleLong) := by
  have hname : sampleLong.1.utf8ByteSize ≤ 2^16-1 := by decide
  have hfits : (encoding sampleLong).length ≤ maxChanFragmentBytes := by
    rw [sampleLong_length]
    decide
  obtain ⟨cells,hcells⟩ := encodeChanCells_total (P := openSuite) hname hfits
  rw [sampleCells,hcells]
  rfl

theorem sampleCells_length : (sampleCells sampleLong).length = 2 := by
  have hlong : maxMessage < (encoding sampleLong).length := by
    rw [sampleLong_length]
    decide
  rw [(encodeChanCells_ok sampleCells_eq hlong).2.2.2.1,count,chunkCount,sampleLong_length]
  rfl

theorem sampleDeliveries_interleave :
    Interleaving {sampleLong} sampleCells sampleDeliveries where
  fragments d hd := by
    simp only [sampleDeliveries,List.mem_cons,List.not_mem_nil,or_false] at hd
    rcases hd with rfl | rfl | rfl <;> simp [sampleCells_length]
  all m hm i hi := by
    rw [Finset.mem_singleton.mp hm,sampleCells_length] at *
    have hi' : i = 0 ∨ i = 1 := by omega
    rcases hi' with rfl | rfl <;> simp [sampleDeliveries]
  pending pre d post h := by
    -- the first fragment comes last, so it is missing before each delivery
    have hd : d.1 = sampleLong := by
      have hmem : d ∈ sampleDeliveries := by simp [h]
      simp only [sampleDeliveries,List.mem_cons,List.not_mem_nil,or_false] at hmem
      rcases hmem with rfl | rfl | rfl <;> rfl
    refine ⟨0,?_,fun hpre => ?_⟩
    · rw [hd,sampleCells_length]
      decide
    · rw [hd] at hpre
      have hlen := congrArg List.length h
      have htake := congrArg (List.take pre.length) h
      rw [List.take_left'  rfl] at htake
      rw [← htake] at hpre
      have hle : pre.length ≤ 2 := by
        simp [sampleDeliveries] at hlen
        omega
      have hsub := (List.take_subset_take_left sampleDeliveries hle) hpre
      simp [sampleDeliveries] at hsub

theorem messages_survive_fragmentation_sample :
    Interleaving {sampleLong} sampleCells sampleDeliveries ∧
    ((run openSuite sampleCells sampleDeliveries ChannelFragmentBuffer.empty).1.filterMap id).Perm
      [encoding sampleLong] := by
  refine ⟨sampleDeliveries_interleave,?_⟩
  have h := (messages_survive_fragmentation (P := openSuite) {sampleLong} sampleCells
    sampleDeliveries (by simp) (by simp) (by
      intro m hm
      rw [Finset.mem_singleton.mp hm,sampleLong_length]
      decide) (by
      rw [Finset.sum_singleton,sampleLong_length]
      decide) (by
      intro m hm
      rw [Finset.mem_singleton.mp hm]
      exact sampleCells_eq) sampleDeliveries_interleave).2.1
  simpa using h

end Gcoms.ChannelReassembly
