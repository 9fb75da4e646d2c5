import Gcoms.RelayDirectory

/-!
# The stored form of the relay directory

The private form is a concatenation of counted records. Reading it back gives the
view without flow labels and scopes, provided that the view meets what the decoder
asks for: bounds, admissible relays with distinct identities, valid own services
that differ in their stored form, and independent guards.
-/
namespace Gcoms.DirectoryStorage
open ByteCodec Primitives Fallible RelayDirectory
open RelayCodec (IpAddr)

/-! ## Addresses -/

theorem encodeAddress_canonical (a : SocketAddr) : encodeAddress a.canonical = encodeAddress a := by
  cases a <;> rfl

@[simp] theorem canonical_ip (a : SocketAddr) : a.canonical.ip = a.ip := by
  cases a <;> rfl

@[simp] theorem encodeAddress_length (a : SocketAddr) : (encodeAddress a).length = 19 := by
  cases a <;> simp [encodeAddress,SocketAddr.ip]

/-- The sixteen bytes of an IPv4 address. -/
def padded (octets : Block 4) : Block 16 := ⟨octets.toList++List.replicate 12 0,by simp⟩

theorem padded_toList (octets : Block 4) :
    (padded octets).toList = octets.toList++List.replicate 12 0 := rfl

/-- The kind and the sixteen bytes of the stored form. -/
theorem encodeAddress_parts (a : SocketAddr) : ∃ kind : ℕ, ∃ body : Block 16, kind < 256 ∧
    encodeAddress a = bigEndian 1 kind++(body.toList++bigEndian 2 a.port) ∧
    decodeIp kind body = .ok a.ip := by
  cases a with
  | v4 octets port =>
      refine ⟨4,padded octets,by decide,?_,?_⟩
      · rw [padded_toList]
        exact List.append_assoc [4] _ _
      · have hzero : (padded octets).toList.drop 4 = List.replicate 12 0 := List.drop_left' (by simp)
        unfold decodeIp
        rw [if_pos ⟨rfl,hzero⟩,padded_toList,pad_self]
        rfl
  | v6 octets port flowinfo scopeId =>
      refine ⟨6,octets,by decide,?_,?_⟩
      · exact List.append_assoc [6] _ _
      · unfold decodeIp
        rw [if_neg (by omega),if_pos rfl]
        rfl

theorem readAddress_run (a : SocketAddr) (rest : Bytes) :
    readAddress.run (encodeAddress a++rest) =
      if Unusable a.ip a.port then .error "unusable relay address" else .ok (a.canonical,rest) := by
  obtain ⟨kind,body,hkind,hbytes,hip⟩ := encodeAddress_parts a
  have hport : Fin.ofNat (2^16) a.port.val = a.port := Fin.ofNat_val_eq_self a.port
  rw [hbytes,List.append_assoc,List.append_assoc]
  refine ((Reads.word _ 1 kind (by omega)).bind_run _ _).trans ?_
  refine ((Reads.take _ body).bind_run _ _).trans ?_
  refine ((Reads.word _ 2 a.port.val a.port.isLt).bind_run _ _).trans ?_
  refine ((Reads.lift hip).bind_run _ rest).trans ?_
  by_cases hu : Unusable a.ip a.port
  · rw [if_pos hu]
    unfold check
    rw [if_neg (not_not.mpr hu)]
    rfl
  · rw [if_neg hu]
    refine ((Reads.check _ hu).bind_run _ rest).trans ?_
    rw [hport]
    rfl

theorem decodeAddress_encodeAddress (a : SocketAddr) : decodeAddress (encodeAddress a) =
    if Unusable a.ip a.port then .error "unusable relay address" else .ok a.canonical := by
  have hrun := readAddress_run a []
  rw [List.append_nil] at hrun
  rw [decodeAddress,require,if_pos (encodeAddress_length a),hrun]
  split_ifs <;> rfl

theorem decodeAddress_ok {a b : SocketAddr} (h : decodeAddress (encodeAddress a) = .ok b) :
    decodeAddress (encodeAddress a) = .ok a.canonical := by
  rw [decodeAddress_encodeAddress] at h ⊢
  split_ifs at h ⊢
  rfl

/-! ## Introductions -/

/-- The fields in their stored order. -/
def plain (r : Introduction) : Bytes :=
  encodeAddress r.addr++(r.serviceId.toList++(r.reentryCap.toList++(r.entryCap.toList++
    (r.transitCap.toList++bigEndian 8 r.expiresAt))))

def canonical (r : Introduction) : Introduction := {r with addr := r.addr.canonical}

@[simp] theorem plain_length (r : Introduction) : (plain r).length = introductionBytes := by
  simp [plain,introductionBytes]

theorem plain_canonical (r : Introduction) : plain (canonical r) = plain r := by
  simp only [plain,canonical,encodeAddress_canonical]

theorem validate_canonical (r : Introduction) : (canonical r).validate = r.validate := by
  simp only [Introduction.validate,canonical,encodeAddress_canonical]
  rfl

theorem encode_eq {r : Introduction} (h : r.validate = .ok ()) : r.encode = .ok (plain r) := by
  rw [Introduction.encode,h]
  rfl

theorem validate_address {r : Introduction} (h : r.validate = .ok ()) :
    decodeAddress (encodeAddress r.addr) = .ok r.addr.canonical := by
  simp only [Introduction.validate,sequence_eq_ok] at h
  obtain ⟨b,hb,-⟩ := h
  exact decodeAddress_ok hb

theorem decode_plain {r : Introduction} (h : r.validate = .ok ()) :
    Introduction.decode (plain r) = .ok (canonical r) := by
  have hread : Reads Introduction.readFields (plain r) (canonical r) := by
    have haddr := Reads.take "invalid GC/2 introduction length"
      (⟨encodeAddress r.addr,encodeAddress_length r.addr⟩ : Block 19)
    refine haddr.bind ((Reads.take _ r.serviceId).bind ((Reads.take _ r.reentryCap).bind
      ((Reads.take _ r.entryCap).bind ((Reads.take _ r.transitCap).bind
        ((Reads.word _ 8 r.expiresAt.val r.expiresAt.isLt).last ?_)))))
    refine (Reads.lift (validate_address h)).silent ?_
    have hexp : Fin.ofNat (2^64) r.expiresAt.val = r.expiresAt := Fin.ofNat_val_eq_self r.expiresAt
    rw [hexp]
    exact Reads.pure _
  rw [Introduction.decode,require,if_pos (plain_length r),hread.run]
  change (do (canonical r).validate; pure (canonical r)) = Except.ok (canonical r)
  rw [validate_canonical,h]
  rfl

/-! ## Views -/

def canonicalView (v : View) : View :=
  ⟨v.relays.map canonical,v.guards,v.own.map (fun o => (o.1.canonical,o.2))⟩

/-- What the decoder asks of a view. -/
structure Storable (allowed : IpAddr → Bool) (now : ℕ) (v : View) : Prop where
  relayCount : v.relays.length ≤ maxRelays
  guardCount : v.guards.length ≤ maxGuards
  ownCount : v.own.length ≤ maxOwnServices
  admitted : ∀ r ∈ v.relays, admissible allowed r now = .ok ()
  distinct : (v.relays.map Introduction.serviceId).Nodup
  ownValid : ∀ o ∈ v.own, ¬Unusable o.1.ip o.1.port ∧ o.2 ≠ zeroId
  ownDistinct : (v.own.map (fun o => (o.1.canonical,o.2))).Nodup

/-- The stored form of a view whose relays are valid. -/
def plainView (v : View) : Bytes :=
  ascii "GCDR"++[2]++(bigEndian 1 v.relays.length++(v.relays.flatMap plain++
    (bigEndian 1 v.guards.length++(v.guards.flatMap (·.toList)++(bigEndian 1 v.own.length++
      v.own.flatMap (fun o => encodeAddress o.1++o.2.toList))))))

theorem encodeRelays_eq {relays : List Introduction} (h : ∀ r ∈ relays, r.validate = .ok ()) :
    View.encodeRelays relays = .ok (relays.flatMap plain) := by
  induction relays with
  | nil => rfl
  | cons r relays ih =>
      rw [View.encodeRelays,encode_eq (h r List.mem_cons_self),
        ih (fun r' hr' => h r' (List.mem_cons_of_mem r hr'))]
      rfl

theorem encode_view {v : View} (h : ∀ r ∈ v.relays, r.validate = .ok ()) :
    v.encode = .ok (plainView v) := by
  rw [View.encode,encodeRelays_eq h]
  rfl

theorem plainView_canonical (v : View) : plainView (canonicalView v) = plainView v := by
  simp only [plainView,canonicalView,List.length_map,List.flatMap_map,plain_canonical,
    encodeAddress_canonical]

theorem foldl_snoc {α β : Type} (f : α → β) (xs : List α) (s : List β) :
    xs.foldl (fun acc x => acc++[f x]) s = s++xs.map f := by
  induction xs generalizing s with
  | nil => simp
  | cons x xs ih => simp [ih]

section Reading
variable {allowed : IpAddr → Bool} {now : ℕ}

theorem admissible_validate {r : Introduction} (h : admissible allowed r now = .ok ()) :
    r.validate = .ok () := by
  simp only [admissible,sequence_eq_ok] at h
  obtain ⟨_,hv,-⟩ := h
  exact hv

theorem admissible_canonical (r : Introduction) :
    admissible allowed (canonical r) now = admissible allowed r now := by
  unfold admissible
  rw [validate_canonical]
  simp [canonical]

theorem reads_relays {relays : List Introduction}
    (hadm : ∀ r ∈ relays, admissible allowed r now = .ok ())
    (hd : (relays.map Introduction.serviceId).Nodup) :
    Reads (loop (readRelay allowed now) relays.length []) (relays.flatMap plain)
      (relays.map canonical) := by
  have hloop := Reads.loop (readRelay allowed now) plain (fun s r => s++[canonical r]) relays []
  rw [foldl_snoc,List.nil_append] at hloop
  apply hloop
  intro pre r post hsplit
  rw [foldl_snoc,List.nil_append]
  have hr : r ∈ relays := by simp [hsplit]
  have htake := Reads.take "truncated GC/2 directory" (⟨plain r,plain_length r⟩ : Block introductionBytes)
  refine htake.last ?_
  refine (Reads.lift (decode_plain (admissible_validate (hadm r hr)))).silent ?_
  refine (Reads.lift ((admissible_canonical r).trans (hadm r hr))).silent ?_
  refine (Reads.check _ ?_).silent (Reads.pure _)
  rw [hsplit,List.map_append,List.map_cons,List.nodup_append] at hd
  rw [List.any_eq_true]
  rintro ⟨old,hold,hid⟩
  obtain ⟨r',hr',rfl⟩ := List.mem_map.mp hold
  exact hd.2.2 _ (List.mem_map_of_mem hr') _ List.mem_cons_self (of_decide_eq_true hid)

theorem reads_guards (guards : List (Block 32)) :
    Reads (loop readGuard guards.length []) (guards.flatMap (·.toList)) guards := by
  have hloop := Reads.loop readGuard (fun pin : Block 32 => pin.toList) (fun s pin => s++[pin])
    guards []
  have hfold : guards.foldl (fun s pin => s++[pin]) [] = guards := by
    have h := foldl_snoc id guards []
    simpa using h
  rw [hfold] at hloop
  apply hloop
  intro pre pin post _
  exact (Reads.take "truncated GC/2 directory" pin).last (Reads.pure _)

theorem reads_own {own : List (SocketAddr × Block 32)}
    (hv : ∀ o ∈ own, ¬Unusable o.1.ip o.1.port ∧ o.2 ≠ zeroId)
    (hd : (own.map (fun o => (o.1.canonical,o.2))).Nodup) :
    Reads (loop readOwn own.length []) (own.flatMap (fun o => encodeAddress o.1++o.2.toList))
      (own.map (fun o => (o.1.canonical,o.2))) := by
  have hloop := Reads.loop readOwn (fun o : SocketAddr × Block 32 => encodeAddress o.1++o.2.toList)
    (fun s o => s++[(o.1.canonical,o.2)]) own []
  rw [foldl_snoc,List.nil_append] at hloop
  apply hloop
  intro pre o post hsplit
  rw [foldl_snoc,List.nil_append]
  obtain ⟨husable,hpin⟩ := hv o (by simp [hsplit])
  have haddr := Reads.take "truncated GC/2 directory"
    (⟨encodeAddress o.1,encodeAddress_length o.1⟩ : Block 19)
  have hdecode : decodeAddress (encodeAddress o.1) = .ok o.1.canonical := by
    rw [decodeAddress_encodeAddress,if_neg husable]
  refine haddr.bind ?_
  refine (Reads.lift hdecode).silent ((Reads.take _ o.2).last ?_)
  refine (Reads.check _ ?_).silent (Reads.pure _)
  rintro (hzero | hmem)
  · exact hpin hzero
  · rw [hsplit,List.map_append,List.map_cons,List.nodup_append] at hd
    exact hd.2.2 _ hmem _ List.mem_cons_self rfl

theorem reads_count {n maximum : ℕ} (h : n ≤ maximum) (hmax : maximum < 256) :
    Reads (count maximum) (bigEndian 1 n) n := by
  refine (Reads.word _ 1 n (by omega)).last ?_
  exact (Reads.check _ h).silent (Reads.pure n)

theorem reads_view {v : View} (h : Storable allowed now v) :
    Reads (readView allowed now) (plainView v) (canonicalView v) := by
  have hmagic := Reads.take "truncated GC/2 directory"
    (⟨ascii "GCDR"++[2],by decide⟩ : Block 5)
  refine hmagic.bind ?_
  refine (Reads.check _ rfl).silent ?_
  refine (reads_count h.relayCount (by decide)).bind ?_
  refine (reads_relays h.admitted h.distinct).bind ?_
  refine (reads_count h.guardCount (by decide)).bind ?_
  refine (reads_guards v.guards).bind ?_
  refine (reads_count h.ownCount (by decide)).bind ?_
  exact (reads_own h.ownValid h.ownDistinct).last (Reads.pure _)

theorem plainView_length (v : View) : (plainView v).length =
    8+v.relays.length*introductionBytes+v.guards.length*32+v.own.length*51 := by
  have hmagic : (ascii "GCDR").length = 4 := by decide
  simp [plainView,hmagic,List.length_flatMap,introductionBytes]
  omega

/-- A storable view with independent guards is restored up to its stored form. -/
theorem restore_plainView {v : View} (h : Storable allowed now v)
    (hg : (canonicalView v).validateGuards v.guards = .ok ()) :
    restoreWithPolicy allowed (plainView v) now = .ok ⟨canonicalView v,false,false,[]⟩ := by
  have hlen : 8 ≤ (plainView v).length ∧ (plainView v).length ≤ maxPrivateBytes := by
    rw [plainView_length]
    have h1 := h.relayCount
    have h2 := h.guardCount
    have h3 := h.ownCount
    simp only [maxRelays,maxGuards,maxOwnServices,maxPrivateBytes,introductionBytes] at *
    omega
  rw [restoreWithPolicy,require,if_pos hlen,(reads_view h).run]
  change (do
    require (([] : Bytes) = []) "trailing private GC/2 directory bytes"
    (canonicalView v).validateGuards v.guards
    pure _) = Except.ok (ε := String) _
  rw [hg,require,if_pos rfl]
  rfl

end Reading

end Gcoms.DirectoryStorage
