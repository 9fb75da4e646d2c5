import Mathlib

/-!
# Binary hash trees in layers

A tree over `2^k` leaves is the list of its layers, from the leaves to the root.
The siblings on the way from a leaf to the root are its path; climbing along a path
hashes at each level with the sibling on the side that the position says. Climbing
along the tree's own path ends in its root. Two climbs from one position that end
alike, with paths of one length, began alike, if the branch hash told the pairs that
the two of them met apart.
-/
namespace Gcoms.MerkleTrees
variable {H : Type}

section Layers
variable (branch : H → H → H)

/-- The next layer. -/
def pairs : List H → List H
  | a::b::rest => branch a b::pairs rest
  | _ => []

/-- The layers of a tree of height `k`. -/
def layers : ℕ → List H → List (List H)
  | 0, l => [l]
  | k+1, l => l::layers k (pairs branch l)

/-- The layers built while the last one has more than one node. -/
def grow : ℕ → List H → List (List H)
  | 0, l => [l]
  | fuel+1, l => if 1 < l.length then l::grow fuel (pairs branch l) else [l]

/-- The pair that a node forms with its sibling. -/
def joined (pos : ℕ) (v s : H) : H × H := if pos%2 = 0 then (v,s) else (s,v)

def climb : H → ℕ → List H → H
  | v, _, [] => v
  | v, pos, s::rest => climb (branch (joined pos v s).1 (joined pos v s).2) (pos/2) rest

/-- The pairs that a climb hashes. -/
def climbed : H → ℕ → List H → List (H × H)
  | _, _, [] => []
  | v, pos, s::rest =>
      joined pos v s::climbed (branch (joined pos v s).1 (joined pos v s).2) (pos/2) rest

end Layers

/-- The siblings read through `look` from the flattened layers that begin at `base`. -/
def siblings (look : ℕ → Option H) : ℕ → (base width node : ℕ) → Option (List H)
  | 0, _, _, _ => some []
  | fuel+1, base, width, node =>
      if 1 < width then do
        let sibling ← look (base+(node^^^1))
        let rest ← siblings look fuel (base+width) (width/2) (node/2)
        some (sibling::rest)
      else some []

section Facts
variable {branch : H → H → H}

theorem length_pairs (l : List H) : (pairs branch l).length = l.length/2 := by
  induction l using pairs.induct with
  | case1 a b rest ih =>
      simp only [pairs,List.length_cons,ih]
      omega
  | case2 l h =>
      rcases l with _ | ⟨a,_ | ⟨b,rest⟩⟩
      · simp [pairs]
      · simp [pairs]
      · exact absurd rfl (h a b rest)

theorem getElem?_pairs (l : List H) {i : ℕ} {a b : H} (ha : l[2*i]? = some a)
    (hb : l[2*i+1]? = some b) : (pairs branch l)[i]? = some (branch a b) := by
  induction l using pairs.induct generalizing i with
  | case1 x y rest ih =>
      cases i with
      | zero =>
          cases ha
          cases hb
          rfl
      | succ i => exact ih ha hb
  | case2 l h =>
      rcases l with _ | ⟨x,_ | ⟨y,rest⟩⟩
      · cases ha
      · cases hb
      · exact absurd rfl (h x y rest)

theorem length_pairs_pow {l : List H} {k : ℕ} (h : l.length = 2^(k+1)) :
    (pairs branch l).length = 2^k := by
  rw [length_pairs,h,pow_succ]
  omega

theorem layers_ne_nil (k : ℕ) (l : List H) : layers branch k l ≠ [] := by
  cases k <;> exact List.cons_ne_nil _ _

theorem grow_eq_layers {fuel k : ℕ} {l : List H} (h : l.length = 2^k) (hk : k ≤ fuel) :
    grow branch fuel l = layers branch k l := by
  induction fuel generalizing k l with
  | zero =>
      obtain rfl := Nat.le_zero.mp hk
      rfl
  | succ fuel ih =>
      cases k with
      | zero => simp [grow,layers,h]
      | succ k =>
          have hlt : 1 < l.length := by
            rw [h]
            exact Nat.one_lt_two_pow k.succ_ne_zero
          rw [grow,if_pos hlt,layers,ih (length_pairs_pow h) (Nat.le_of_succ_le_succ hk)]

/-! ## The root and the paths -/

/-- The only node of the last layer. -/
def root (ls : List (List H)) : Option H := (ls.getLast?.getD []).head?

theorem root_layers_succ (k : ℕ) (l : List H) :
    root (layers branch (k+1) l) = root (layers branch k (pairs branch l)) := by
  rw [layers,root,List.getLast?_cons,root]
  obtain ⟨last,hlast⟩ := Option.isSome_iff_exists.mp
    (List.getLast?_isSome.mpr (layers_ne_nil k (pairs branch l)))
  rw [hlast]
  rfl

theorem xor_one_div (n : ℕ) : (n^^^1)/2 = n/2 := by
  rw [Nat.xor_div_two]
  simp

theorem xor_one_mod (n : ℕ) : (n^^^1)%2 = (n+1)%2 := by
  rw [Nat.xor_mod_two_eq]

theorem xor_one_lt {n k : ℕ} (h : n < 2^(k+1)) : n^^^1 < 2^(k+1) :=
  Nat.xor_lt_two_pow h (Nat.one_lt_two_pow k.succ_ne_zero)

/-- The path of a node: its sibling at each layer. -/
def Path (branch : H → H → H) : ℕ → List H → ℕ → List H → Prop
  | 0, _, _, p => p = []
  | k+1, l, node, p => ∃ s rest, p = s::rest ∧ l[node^^^1]? = some s ∧
      Path branch k (pairs branch l) (node/2) rest

theorem Path.length {k : ℕ} {l p : List H} {node : ℕ} (h : Path branch k l node p) :
    p.length = k := by
  induction k generalizing l node p with
  | zero =>
      rw [h]
      rfl
  | succ k ih =>
      obtain ⟨s,rest,rfl,_,hrest⟩ := h
      rw [List.length_cons,ih hrest]

theorem pairs_joined {l : List H} {node : ℕ} {v s : H} (hv : l[node]? = some v)
    (hs : l[node^^^1]? = some s) :
    (pairs branch l)[node/2]? = some (branch (joined node v s).1 (joined node v s).2) := by
  have hdiv := xor_one_div node
  have hmod := xor_one_mod node
  unfold joined
  split_ifs with heven
  · refine getElem?_pairs l ?_ ?_
    · rwa [show 2*(node/2) = node by omega]
    · rwa [show 2*(node/2)+1 = node^^^1 by omega]
  · refine getElem?_pairs l ?_ ?_
    · rwa [show 2*(node/2) = node^^^1 by omega]
    · rwa [show 2*(node/2)+1 = node by omega]

/-- Climbing along the path of a node ends in the root. -/
theorem Path.climb_eq {k : ℕ} {l p : List H} {node : ℕ} {v : H} (h : Path branch k l node p)
    (hlen : l.length = 2^k) (hv : l[node]? = some v) :
    root (layers branch k l) = some (climb branch v node p) := by
  induction k generalizing l node p v with
  | zero =>
      obtain rfl : p = [] := h
      obtain ⟨a,rfl⟩ := List.length_eq_one_iff.mp hlen
      obtain rfl : node = 0 := by
        have := (List.getElem?_eq_some_iff.mp hv).1
        simpa using this
      simpa [root,layers,climb] using hv
  | succ k ih =>
      obtain ⟨s,rest,rfl,hs,hrest⟩ := h
      have hup := ih hrest (length_pairs_pow hlen) (pairs_joined hv hs)
      rw [root_layers_succ,hup]
      rfl

/-- The siblings read from the flattened layers form the path. -/
theorem siblings_path {look : ℕ → Option H} {k fuel base node : ℕ} {l : List H}
    (hlen : l.length = 2^k) (hfuel : k ≤ fuel) (hnode : node < 2^k)
    (hlook : ∀ i x, (layers branch k l).flatten[i]? = some x → look (base+i) = some x) :
    ∃ p, siblings look fuel base (2^k) node = some p ∧ Path branch k l node p := by
  induction k generalizing fuel base node l with
  | zero =>
      refine ⟨[],?_,rfl⟩
      cases fuel with
      | zero => rfl
      | succ fuel => rfl
  | succ k ih =>
      obtain ⟨fuel,rfl⟩ : ∃ f, fuel = f+1 := ⟨fuel-1,by omega⟩
      have hflat : (layers branch (k+1) l).flatten =
          l++(layers branch k (pairs branch l)).flatten := rfl
      have hsib : node^^^1 < l.length := hlen ▸ xor_one_lt hnode
      obtain ⟨p,hp,hpath⟩ := @ih fuel (base+2^(k+1)) (node/2) (pairs branch l)
        (length_pairs_pow hlen) (Nat.le_of_succ_le_succ hfuel) (by
          rw [pow_succ] at hnode
          omega) (fun i x hx => by
          have := hlook (2^(k+1)+i) x (by
            rw [hflat,List.getElem?_append_right (by omega),hlen,Nat.add_sub_cancel_left]
            exact hx)
          rwa [← Nat.add_assoc] at this)
      have hhead : look (base+(node^^^1)) = some l[node^^^1] := hlook _ _ (by
        rw [hflat,List.getElem?_append_left hsib,List.getElem?_eq_getElem hsib])
      have hhalf : 2^(k+1)/2 = 2^k := by
        rw [pow_succ]
        omega
      refine ⟨l[node^^^1]::p,?_,l[node^^^1],p,rfl,List.getElem?_eq_getElem hsib,hpath⟩
      rw [siblings,if_pos (Nat.one_lt_two_pow k.succ_ne_zero),hhead,hhalf,hp]
      rfl

/-! ## Soundness -/

theorem joined_inj {pos : ℕ} {v s w t : H} (h : joined pos v s = joined pos w t) :
    v = w ∧ s = t := by
  unfold joined at h
  split_ifs at h
  · exact Prod.mk.inj h
  · exact (Prod.mk.inj h).symm

/-- Climbs of one length that end alike began alike. -/
theorem climb_inj {p q : List H} {pos : ℕ} {v w : H} (hlen : p.length = q.length)
    (hsep : ∀ x ∈ climbed branch v pos p, ∀ y ∈ climbed branch w pos q,
      branch x.1 x.2 = branch y.1 y.2 → x = y)
    (h : climb branch v pos p = climb branch w pos q) : v = w ∧ p = q := by
  induction p generalizing q pos v w with
  | nil =>
      obtain rfl := List.length_eq_zero_iff.mp hlen.symm
      exact ⟨h,rfl⟩
  | cons s p ih =>
      cases q with
      | nil => cases hlen
      | cons t q =>
          obtain ⟨hnode,hrest⟩ := ih (Nat.succ.inj hlen)
            (fun x hx y hy => hsep x (List.mem_cons_of_mem _ hx) y (List.mem_cons_of_mem _ hy)) h
          have hpair := hsep _ List.mem_cons_self _ List.mem_cons_self hnode
          obtain ⟨hv,hs⟩ := joined_inj hpair
          exact ⟨hv,by rw [hs,hrest]⟩

end Facts

end Gcoms.MerkleTrees
