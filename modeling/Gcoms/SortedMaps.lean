import Mathlib

/-!
# Finite maps as strictly sorted association lists

An ordered map is the list of its entries in strictly increasing key order.
The order is part of the value, so two maps with the same lookups are equal
and iteration order is canonical. Insertion replaces an existing entry;
`retain` filters entries in place; `extend` inserts a list of entries in turn.
Every operation is specified once by its effect on `find?`, and cardinalities
are transported along a permutation of the entry list.
-/
namespace Gcoms.SortedMaps

@[ext] structure SortedMap (K V : Type) [LinearOrder K] where
  entries : List (K × V)
  sorted : entries.Pairwise (fun a b => a.1 < b.1)

namespace SortedMap
variable {K V : Type} [LinearOrder K]

instance [DecidableEq V] : DecidableEq (SortedMap K V) := fun a b =>
  decidable_of_iff (a.entries = b.entries) SortedMap.ext_iff.symm

def empty : SortedMap K V := ⟨[],List.Pairwise.nil⟩

def size (m : SortedMap K V) : ℕ := m.entries.length

def find? (m : SortedMap K V) (k : K) : Option V :=
  (m.entries.find? (fun e => e.1 = k)).map Prod.snd

def contains (m : SortedMap K V) (k : K) : Bool := (m.find? k).isSome

/-- Keeps the entries that satisfy `p`. -/
def retain (m : SortedMap K V) (p : K → V → Bool) : SortedMap K V :=
  ⟨m.entries.filter (fun e => p e.1 e.2),m.sorted.filter _⟩

def erase (m : SortedMap K V) (k : K) : SortedMap K V := m.retain (fun a _ => a ≠ k)

private theorem insert_sorted (m : SortedMap K V) (k : K) (v : V) :
    (m.entries.filter (fun e => e.1 < k) ++ (k,v) :: m.entries.filter (fun e => k < e.1)).Pairwise
      (fun a b => a.1 < b.1) := by
  rw [List.pairwise_append,List.pairwise_cons]
  refine ⟨m.sorted.filter _,⟨?_,m.sorted.filter _⟩,?_⟩
  · intro e he
    simpa using (List.mem_filter.mp he).2
  · intro a ha b hb
    have hak : a.1 < k := by simpa using (List.mem_filter.mp ha).2
    rcases List.mem_cons.mp hb with rfl | hb
    · exact hak
    · have hkb : k < b.1 := by simpa using (List.mem_filter.mp hb).2
      exact hak.trans hkb

def insert (m : SortedMap K V) (k : K) (v : V) : SortedMap K V :=
  ⟨m.entries.filter (fun e => e.1 < k) ++ (k,v) :: m.entries.filter (fun e => k < e.1),
    insert_sorted m k v⟩

def extend (m : SortedMap K V) (es : List (K × V)) : SortedMap K V :=
  es.foldl (fun acc e => acc.insert e.1 e.2) m

def mapValues {W : Type} (f : V → W) (m : SortedMap K V) : SortedMap K W :=
  ⟨m.entries.map (fun e => (e.1,f e.2)),List.pairwise_map.mpr m.sorted⟩

def mapWithKey {W : Type} (f : K → V → W) (m : SortedMap K V) : SortedMap K W :=
  ⟨m.entries.map (fun e => (e.1,f e.1 e.2)),List.pairwise_map.mpr m.sorted⟩

/-- The entry with the greatest key. -/
def last? (m : SortedMap K V) : Option (K × V) := m.entries.getLast?

/-! ## Lookups -/

theorem unique {m : SortedMap K V} {k : K} {v w : V}
    (hv : (k,v) ∈ m.entries) (hw : (k,w) ∈ m.entries) : v = w := by
  have hn : (m.entries.map Prod.fst).Nodup := List.pairwise_map.mpr (m.sorted.imp (fun h => h.ne))
  exact (Prod.mk.inj (List.inj_on_of_nodup_map hn hv hw rfl)).2

theorem mem_iff_find? {m : SortedMap K V} {k : K} {v : V} :
    (k,v) ∈ m.entries ↔ m.find? k = some v := by
  constructor
  · intro h
    have hs : (m.entries.find? (fun e => e.1 = k)).isSome := by
      rw [List.find?_isSome]
      exact ⟨(k,v),h,by simp⟩
    obtain ⟨e,he⟩ := Option.isSome_iff_exists.mp hs
    have hk : e.1 = k := by simpa using List.find?_some he
    have hm : (k,e.2) ∈ m.entries := by
      have := List.mem_of_find?_eq_some he
      rwa [← hk]
    rw [find?,he,Option.map_some,unique hm h]
  · intro h
    obtain ⟨e,he,hv⟩ := Option.map_eq_some_iff.mp h
    have hk : e.1 = k := by simpa using List.find?_some he
    have hm := List.mem_of_find?_eq_some he
    rwa [← hk,← hv]

theorem find?_eq_none {m : SortedMap K V} {k : K} :
    m.find? k = none ↔ ∀ v, (k,v) ∉ m.entries := by
  simp only [mem_iff_find?]
  cases h : m.find? k with
  | none => simp
  | some v => simp

theorem ext_find? {m n : SortedMap K V} (h : ∀ k, m.find? k = n.find? k) : m = n := by
  have hmem : ∀ e, e ∈ m.entries ↔ e ∈ n.entries := by
    rintro ⟨k,v⟩
    rw [mem_iff_find?,mem_iff_find?,h]
  have nodup : ∀ l : SortedMap K V, l.entries.Nodup := fun l =>
    l.sorted.imp (fun {a b} hlt hab => (hab ▸ hlt).false)
  have hp : m.entries.Perm n.entries :=
    (List.perm_ext_iff_of_nodup (nodup m) (nodup n)).mpr hmem
  apply SortedMap.ext
  exact hp.eq_of_pairwise (fun _ _ _ _ hab hba => (hab.asymm hba).elim) m.sorted n.sorted

@[simp] theorem find?_empty (k : K) : (empty : SortedMap K V).find? k = none := rfl

theorem find?_retain (m : SortedMap K V) (p : K → V → Bool) (k : K) :
    (m.retain p).find? k = (m.find? k).filter (p k) := by
  apply Option.ext
  intro v
  rw [← mem_iff_find?,Option.filter_eq_some_iff,← mem_iff_find?]
  simp [retain]

theorem find?_mapValues {W : Type} (f : V → W) (m : SortedMap K V) (k : K) :
    (m.mapValues f).find? k = (m.find? k).map f := by
  apply Option.ext
  intro w
  simp only [← mem_iff_find?,mapValues,List.mem_map,Prod.mk.injEq,Prod.exists,
    Option.map_eq_some_iff]
  constructor
  · rintro ⟨a,v,hm,rfl,rfl⟩
    exact ⟨v,hm,rfl⟩
  · rintro ⟨v,hv,rfl⟩
    exact ⟨k,v,hv,rfl,rfl⟩

theorem find?_mapWithKey {W : Type} (f : K → V → W) (m : SortedMap K V) (k : K) :
    (m.mapWithKey f).find? k = (m.find? k).map (f k) := by
  apply Option.ext
  intro w
  simp only [← mem_iff_find?,mapWithKey,List.mem_map,Prod.mk.injEq,Prod.exists,
    Option.map_eq_some_iff]
  constructor
  · rintro ⟨a,v,hm,rfl,rfl⟩
    exact ⟨v,hm,rfl⟩
  · rintro ⟨v,hv,rfl⟩
    exact ⟨k,v,hv,rfl,rfl⟩

@[simp] theorem find?_erase_self (m : SortedMap K V) (k : K) : (m.erase k).find? k = none := by
  simp [erase,find?_retain]

theorem find?_erase_of_ne (m : SortedMap K V) {k a : K} (h : a ≠ k) :
    (m.erase k).find? a = m.find? a := by
  cases hf : m.find? a <;> simp [erase,find?_retain,h,hf]

theorem find?_of_erase {m : SortedMap K V} {k a : K} {v : V} (h : (m.erase k).find? a = some v) :
    m.find? a = some v := by
  by_cases ha : a = k
  · rw [ha,find?_erase_self] at h
    cases h
  · rwa [find?_erase_of_ne m ha] at h

theorem mem_insert {m : SortedMap K V} {k a : K} {v b : V} :
    (a,b) ∈ (m.insert k v).entries ↔ (a = k ∧ b = v) ∨ (a ≠ k ∧ (a,b) ∈ m.entries) := by
  simp only [insert,List.mem_append,List.mem_cons,List.mem_filter,decide_eq_true_eq,Prod.mk.injEq]
  rcases lt_trichotomy a k with h | h | h
  · simp [h,h.ne,h.asymm]
  · subst h
    simp
  · simp [h,h.ne',h.asymm]

@[simp] theorem find?_insert_self (m : SortedMap K V) (k : K) (v : V) :
    (m.insert k v).find? k = some v := by
  rw [← mem_iff_find?,mem_insert]
  exact .inl ⟨rfl,rfl⟩

theorem find?_insert_of_ne (m : SortedMap K V) {k a : K} (v : V) (h : a ≠ k) :
    (m.insert k v).find? a = m.find? a := by
  apply Option.ext
  intro b
  rw [← mem_iff_find?,← mem_iff_find?,mem_insert]
  simp [h]

theorem find?_insert (m : SortedMap K V) (k a : K) (v : V) :
    (m.insert k v).find? a = if a = k then some v else m.find? a := by
  split
  · next h => rw [h,find?_insert_self]
  · next h => exact find?_insert_of_ne m v h

/-- Later entries win; a key that no entry mentions keeps its old value. -/
theorem find?_extend (m : SortedMap K V) (es : List (K × V)) (k : K) :
    (m.extend es).find? k = ((es.reverse.find? (fun e => e.1 = k)).map Prod.snd).or (m.find? k) := by
  induction es generalizing m with
  | nil => simp [extend]
  | cons e es ih =>
      have hstep : m.extend (e::es) = (m.insert e.1 e.2).extend es := rfl
      rw [hstep,ih,find?_insert,List.reverse_cons,List.find?_append]
      cases h : es.reverse.find? (fun e => decide (e.1 = k)) with
      | some f => simp
      | none =>
          by_cases hk : e.1 = k
          · simp [hk]
          · simp [hk,Ne.symm hk]

theorem find?_extend_of_forall_ne (m : SortedMap K V) (es : List (K × V)) {k : K}
    (h : ∀ e ∈ es, e.1 ≠ k) : (m.extend es).find? k = m.find? k := by
  have hn : es.reverse.find? (fun e => decide (e.1 = k)) = none := by
    rw [List.find?_eq_none]
    intro e he
    simpa using h e (List.mem_reverse.mp he)
  rw [find?_extend,hn]
  rfl

/-- Entries with distinct keys are all present after `extend`. -/
theorem find?_extend_of_mem (m : SortedMap K V) {es : List (K × V)} {k : K} {v : V}
    (hd : es.Pairwise (fun a b => a.1 ≠ b.1)) (h : (k,v) ∈ es) :
    (m.extend es).find? k = some v := by
  induction es generalizing m with
  | nil => simp at h
  | cons e es ih =>
      rw [List.pairwise_cons] at hd
      have hstep : m.extend (e::es) = (m.insert e.1 e.2).extend es := rfl
      rw [hstep]
      rcases List.mem_cons.mp h with rfl | h
      · rw [find?_extend_of_forall_ne]
        · exact find?_insert_self _ _ _
        · intro a ha
          exact (hd.1 a ha).symm
      · exact ih _ hd.2 h

/-! ## Iteration order and cardinality -/

theorem last?_eq_some {m : SortedMap K V} {k : K} {v : V} (h : m.last? = some (k,v)) :
    m.find? k = some v ∧ ∀ a w, m.find? a = some w → a ≤ k := by
  obtain ⟨pre,hp⟩ := List.getLast?_eq_some_iff.mp h
  refine ⟨mem_iff_find?.mp (by simp [hp]),?_⟩
  intro a w ha
  have hs := m.sorted
  have hm := mem_iff_find?.mpr ha
  rw [hp] at hs hm
  rw [List.pairwise_append] at hs
  rcases List.mem_append.mp hm with hm | hm
  · exact (hs.2.2 _ hm (k,v) (by simp)).le
  · have he : (a,w) = (k,v) := by simpa using hm
    exact (Prod.mk.inj he).1.le

theorem last?_eq_none {m : SortedMap K V} : m.last? = none ↔ m = empty := by
  rw [last?,List.getLast?_eq_none_iff]
  constructor
  · intro h
    exact SortedMap.ext h
  · intro h
    rw [h]
    rfl

/-- The greatest key determines the last entry. -/
theorem last?_of_greatest {m : SortedMap K V} {k : K} {v : V} (h : m.find? k = some v)
    (hmax : ∀ a w, m.find? a = some w → a ≤ k) : m.last? = some (k,v) := by
  cases hl : m.last? with
  | none =>
      rw [last?_eq_none.mp hl] at h
      simp at h
  | some e =>
      obtain ⟨a,w⟩ := e
      have ha := last?_eq_some hl
      have hka : k = a := le_antisymm (ha.2 k v h) (hmax a w ha.1)
      subst hka
      rw [h] at ha
      rw [Option.some.inj ha.1]

theorem entries_erase (m : SortedMap K V) (k : K) :
    (m.erase k).entries = m.entries.filter (fun e => e.1 ≠ k) := rfl

theorem erase_of_find?_none {m : SortedMap K V} {k : K} (h : m.find? k = none) :
    m.erase k = m := by
  apply ext_find?
  intro a
  by_cases ha : a = k
  · rw [ha,find?_erase_self,h]
  · exact find?_erase_of_ne m ha

/-- Insertion is, up to order, one new entry beside the other keys' entries. -/
theorem insert_perm (m : SortedMap K V) (k : K) (v : V) :
    (m.insert k v).entries.Perm ((k,v)::(m.erase k).entries) := by
  have hsplit : (m.entries.filter (fun e => e.1 ≠ k)).Perm
      (m.entries.filter (fun e => e.1 < k) ++ m.entries.filter (fun e => k < e.1)) := by
    have hp := List.filter_append_perm (fun e : K × V => e.1 < k)
      (m.entries.filter (fun e => e.1 ≠ k))
    refine hp.symm.trans (List.Perm.append (List.Perm.of_eq ?_) (List.Perm.of_eq ?_))
    · rw [List.filter_filter]
      apply List.filter_congr
      intro e _
      by_cases he : e.1 < k
      · simp [he,he.ne]
      · simp [he]
    · rw [List.filter_filter]
      apply List.filter_congr
      intro e _
      rcases lt_trichotomy e.1 k with he | he | he
      · simp [he,he.asymm]
      · simp [he]
      · simp [he,he.ne',he.asymm]
  rw [entries_erase]
  exact List.perm_middle.trans (hsplit.symm.cons _)

theorem size_insert_le (m : SortedMap K V) (k : K) (v : V) : (m.insert k v).size ≤ m.size+1 := by
  have h := (m.insert_perm k v).length_eq
  have hf := List.length_filter_le (fun e : K × V => decide (e.1 ≠ k)) m.entries
  rw [List.length_cons,entries_erase] at h
  simp only [size,h]
  omega

theorem countP_retain_le (m : SortedMap K V) (p : K → V → Bool) (q : K × V → Bool) :
    (m.retain p).entries.countP q ≤ m.entries.countP q :=
  List.Sublist.countP_le List.filter_sublist

theorem insert_of_find? {m : SortedMap K V} {k : K} {v : V} (h : m.find? k = some v) :
    m.insert k v = m := by
  apply ext_find?
  intro a
  rw [find?_insert]
  split
  next ha => rw [ha,h]
  next => rfl

/-- Counting by keys, an insertion adds at most its own key. -/
theorem countP_insert_le (m : SortedMap K V) (k : K) (v : V) (q : K → Bool) :
    (m.insert k v).entries.countP (fun e => q e.1) ≤
      m.entries.countP (fun e => q e.1)+(if q k then 1 else 0) := by
  have hle := m.countP_retain_le (fun a _ => a ≠ k) (fun e => q e.1)
  rw [(m.insert_perm k v).countP_eq,List.countP_cons]
  exact Nat.add_le_add_right hle _

/-- Counting by keys, an overwritten entry counts as before. -/
theorem countP_insert_of_find? {m : SortedMap K V} {k : K} {w : V} (h : m.find? k = some w) (v : V)
    (q : K → Bool) : (m.insert k v).entries.countP (fun e => q e.1) =
      m.entries.countP (fun e => q e.1) := by
  have hw := (m.insert_perm k w).countP_eq (fun e => q e.1)
  rw [insert_of_find? h] at hw
  rw [(m.insert_perm k v).countP_eq,hw,List.countP_cons,List.countP_cons]

theorem size_retain_le (m : SortedMap K V) (p : K → V → Bool) : (m.retain p).size ≤ m.size :=
  List.length_filter_le _ _

theorem size_insert_of_find? {m : SortedMap K V} {k : K} {w : V} (h : m.find? k = some w) (v : V) :
    (m.insert k v).size = m.size := by
  have hc := countP_insert_of_find? h v (fun _ => true)
  simp only [List.countP_true] at hc
  exact hc

/-- The sum of `f` over the values. -/
def sumBy (m : SortedMap K V) (f : V → ℕ) : ℕ := (m.entries.map (fun e => f e.2)).sum

theorem sumBy_insert (m : SortedMap K V) (k : K) (v : V) (f : V → ℕ) :
    (m.insert k v).sumBy f = f v+(m.erase k).sumBy f :=
  ((m.insert_perm k v).map _).sum_nat

theorem sumBy_of_find? {m : SortedMap K V} {k : K} {v : V} (h : m.find? k = some v) (f : V → ℕ) :
    m.sumBy f = f v+(m.erase k).sumBy f := by
  rw [← sumBy_insert,insert_of_find? h]

theorem sumBy_insert_new {m : SortedMap K V} {k : K} (h : m.find? k = none) (v : V) (f : V → ℕ) :
    (m.insert k v).sumBy f = f v+m.sumBy f := by
  rw [sumBy_insert,erase_of_find?_none h]

theorem sumBy_congr {m : SortedMap K V} {f g : V → ℕ}
    (h : ∀ k v, m.find? k = some v → f v = g v) : m.sumBy f = m.sumBy g := by
  unfold sumBy
  congr 1
  apply List.map_congr_left
  intro e he
  exact h e.1 e.2 (mem_iff_find?.mp he)

theorem sumBy_add (m : SortedMap K V) (f g : V → ℕ) :
    m.sumBy (fun v => f v+g v) = m.sumBy f+m.sumBy g := by
  unfold sumBy
  induction m.entries with
  | nil => rfl
  | cons e es ih =>
      simp only [List.map_cons,List.sum_cons,ih]
      omega

theorem sumBy_mul (m : SortedMap K V) (c : ℕ) (f : V → ℕ) :
    m.sumBy (fun v => c*f v) = c*m.sumBy f := by
  unfold sumBy
  rw [← List.sum_map_mul_left]

theorem sumBy_retain (m : SortedMap K V) (p : V → Bool) (f : V → ℕ) :
    (m.retain (fun _ v => p v)).sumBy f = m.sumBy (fun v => if p v then f v else 0) := by
  have hentries : (m.retain (fun _ v => p v)).entries = m.entries.filter (fun e => p e.2) := rfl
  unfold sumBy
  rw [hentries]
  induction m.entries with
  | nil => rfl
  | cons e es ih =>
      by_cases he : p e.2
      · simp only [List.filter_cons,he,if_true,List.map_cons,List.sum_cons,ih]
      · simp [he,ih]

theorem size_of_find? {m : SortedMap K V} {k : K} {v : V} (h : m.find? k = some v) :
    m.size = (m.erase k).size+1 := by
  have hlen := (m.insert_perm k v).length_eq
  rw [insert_of_find? h] at hlen
  exact hlen

/-- A sum is bounded by another one that covers its terms key by key. -/
theorem sumBy_le_sumBy {W : Type} {m : SortedMap K V} {n : SortedMap K W} {f : V → ℕ} {g : W → ℕ}
    (h : ∀ k v, m.find? k = some v → f v ≠ 0 → ∃ w, n.find? k = some w ∧ f v ≤ g w) :
    m.sumBy f ≤ n.sumBy g := by
  induction hsize : m.size generalizing m n with
  | zero =>
      have hnil : m.entries = [] := List.length_eq_zero_iff.mp hsize
      simp [sumBy,hnil]
  | succ size ih =>
      obtain ⟨⟨k,v⟩,es,hcons⟩ := List.exists_cons_of_length_eq_add_one hsize
      have hfind : m.find? k = some v := mem_iff_find?.mp (hcons ▸ List.mem_cons_self)
      have hrest : (m.erase k).size = size := by
        have := size_of_find? hfind
        omega
      rw [sumBy_of_find? hfind]
      by_cases hv : f v = 0
      · rw [hv,Nat.zero_add]
        exact ih (fun a b hab => h a b (find?_of_erase hab)) hrest
      · obtain ⟨w,hw,hle⟩ := h k v hfind hv
        rw [sumBy_of_find? hw]
        refine Nat.add_le_add hle (ih (fun a b hab hb => ?_) hrest)
        have hne : a ≠ k := by
          rintro rfl
          rw [find?_erase_self] at hab
          cases hab
        obtain ⟨c,hc,hbc⟩ := h a b (find?_of_erase hab) hb
        exact ⟨c,by rw [find?_erase_of_ne _ hne]; exact hc,hbc⟩

theorem keys_sorted (m : SortedMap K V) : (m.entries.map Prod.fst).Pairwise (·<·) :=
  List.pairwise_map.mpr m.sorted

/-- A map on exactly the counters above `a` up to `b` lists them in order. -/
theorem keys_interval {m : SortedMap ℕ V} {a b : ℕ}
    (h : ∀ c, (∃ v, m.find? c = some v) ↔ a < c ∧ c ≤ b) :
    m.entries.map Prod.fst = List.range' (a+1) (b-a) := by
  have hp : (m.entries.map Prod.fst).Perm (List.range' (a+1) (b-a)) := by
    rw [List.perm_ext_iff_of_nodup (m.keys_sorted.imp (fun hlt => hlt.ne)) List.nodup_range']
    intro c
    have hc := h c
    simp only [← mem_iff_find?] at hc
    simp only [List.mem_map,Prod.exists,exists_and_right,exists_eq_right,List.mem_range'_1,hc]
    omega
  exact hp.eq_of_pairwise (fun _ _ _ _ hab hba => (hab.asymm hba).elim) m.keys_sorted
    List.pairwise_lt_range'

/-- Keys within an interval bound the number of entries. -/
theorem size_le_of_interval {m : SortedMap ℕ V} {a b : ℕ}
    (h : ∀ c v, m.find? c = some v → a ≤ c ∧ c < b) : m.size ≤ b-a := by
  have hsub : m.entries.map Prod.fst ⊆ List.range' a (b-a) := by
    intro c hc
    obtain ⟨⟨k,v⟩,hm,rfl⟩ := List.mem_map.mp hc
    have := h k v (mem_iff_find?.mp hm)
    simp only [List.mem_range'_1]
    omega
  have hn : (m.entries.map Prod.fst).Nodup := m.keys_sorted.imp (fun hlt => hlt.ne)
  have hle := (hn.subperm hsub).length_le
  simpa [size] using hle

/-- Replaying the entries in order rebuilds the map, prefix by prefix. -/
theorem extend_prefix (m : SortedMap K V) (pre post : List (K × V))
    (h : m.entries = pre++post) : ((empty : SortedMap K V).extend pre).entries = pre := by
  induction pre using List.reverseRecOn generalizing post with
  | nil => rfl
  | append_singleton pre e ih =>
      have hpre := ih (e::post) (by simpa using h)
      have hs := m.sorted
      rw [h,List.pairwise_append,List.pairwise_append] at hs
      have hlt : ∀ a ∈ pre, a.1 < e.1 := fun a ha => hs.1.2.2 a ha e (by simp)
      have hstep : (empty : SortedMap K V).extend (pre++[e]) =
          ((empty : SortedMap K V).extend pre).insert e.1 e.2 := by
        simp [extend,List.foldl_append]
      rw [hstep]
      simp only [insert,hpre]
      rw [List.filter_eq_self.mpr (by simpa using hlt),
        List.filter_eq_nil_iff.mpr (by simpa using fun a b hab => (hlt (a,b) hab).le)]

theorem extend_entries (m : SortedMap K V) : (empty : SortedMap K V).extend m.entries = m :=
  SortedMap.ext (m.extend_prefix m.entries [] (List.append_nil _).symm)

end SortedMap

end Gcoms.SortedMaps
