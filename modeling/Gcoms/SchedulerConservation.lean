import Gcoms.SchedulerBudget

/-!
# Conservation of the scheduler's budget

Every meter of the budget shows the sum of the weights of the live objects. A
release therefore never takes more than is recorded, and the tests made at
admission keep payload out of the cover allowance. Cover and payload are then
admitted independently of each other.
-/
namespace Gcoms.SchedulerConservation
open ByteCodec SortedMaps Commands SchedulerBudget

/-! ## Checked subtraction -/

theorem minus_bind {α : Type} {a b : ℕ} (h : b ≤ a) (f : ℕ → Op α) (s : State) :
    (minus a b >>= f) s = f (a-b) s := by
  rw [bind_run,minus,if_pos h]

theorem decrease_run {m : Meter} {n : ℕ} {s : State} (h : n ≤ reading m s) :
    decrease m n s = (.ok (),write m s (reading m s-n)) := by
  unfold decrease
  rw [read_id_bind,minus_bind h]
  rfl

/-- What a list of subtractions takes from a meter. -/
def amount : List (Meter × ℕ) → Meter → ℕ
  | [],_ => 0
  | (n,k)::rest,m => (if m = n then k else 0)+amount rest m

/-- The meters of `s'` are those of `s` less `taken`; allowances and attempts stay. -/
structure Lowered (s s' : State) (taken : Meter → ℕ) : Prop where
  readings : ∀ m, reading m s'+taken m = reading m s
  attempts : s'.attempts = s.attempts
  coverLimits : s'.coverLimits = s.coverLimits

theorem decreaseAll_run (l : List (Meter × ℕ)) (s : State) (h : ∀ m, amount l m ≤ reading m s) :
    ∃ s', decreaseAll l s = (.ok (),s') ∧ Lowered s s' (amount l) := by
  induction l generalizing s with
  | nil => exact ⟨s,rfl,⟨fun m => rfl,rfl,rfl⟩⟩
  | cons e rest ih =>
      obtain ⟨n,k⟩ := e
      have hk : k ≤ reading n s := by
        have hn := h n
        simp only [amount,if_true] at hn
        omega
      have hrest : ∀ m, amount rest m ≤ reading m (write n s (reading n s-k)) := by
        intro m
        have hm := h m
        rw [reading_write]
        simp only [amount] at hm
        split_ifs at hm ⊢ with hmn
        · subst hmn
          omega
        · omega
      obtain ⟨s',hs',hlow⟩ := ih _ hrest
      refine ⟨s',?_,⟨fun m => ?_,?_,?_⟩⟩
      · rw [decreaseAll,bind_run,decrease_run hk]
        exact hs'
      · have hm := hlow.readings m
        rw [reading_write] at hm
        simp only [amount]
        split_ifs at hm ⊢ with hmn
        · subst hmn
          omega
        · omega
      · rw [hlow.attempts,write_attempts]
      · rw [hlow.coverLimits,write_coverLimits]

theorem dropReservation_run {r : Reservation} {s : State} (h : ∀ m, weight m r ≤ reading m s) :
    ∃ s', dropReservation r s = (.ok (),s') ∧ (∀ m, reading m s'+weight m r = reading m s) ∧
      s'.coverLimits = s.coverLimits ∧ s'.attempts = (s.forget r).attempts := by
  have hamount : ∀ m, amount [(.covers r.scope,r.cover.toNat),(.jobs,1),(.bytes,r.bytes),
      (.localJobs r.scope,1),(.localBytes r.scope,r.bytes)] m = weight m r := by
    intro m
    cases m <;> simp [amount,weight,eq_comm]
  obtain ⟨s',hs',hlow⟩ := decreaseAll_run _ s (fun m => (hamount m).trans_le (h m))
  refine ⟨s'.forget r,?_,?_,hlow.coverLimits,?_⟩
  · rw [dropReservation,bind_run,hs']
    rfl
  · intro m
    have hm := hlow.readings m
    rw [hamount] at hm
    cases m <;> exact hm
  · unfold State.forget
    rw [hlow.attempts]

theorem releaseRetained_run {scope : Scope} {usage : PayloadUsage} {s : State}
    (h : ∀ m, load m scope usage ≤ reading m s) :
    ∃ s', releaseRetained scope usage s = (.ok (),s') ∧
      Lowered s s' (fun m => load m scope usage) := by
  have hamount : ∀ m, amount [(.retainedItems,usage.items),(.retainedBytes,usage.bytes),
      (.jobs,usage.items),(.bytes,usage.bytes),(.localJobs scope,usage.items),
      (.localBytes scope,usage.bytes)] m = load m scope usage := by
    intro m
    cases m <;> simp [amount,load,eq_comm]
  obtain ⟨s',hs',hlow⟩ := decreaseAll_run _ s (fun m => (hamount m).trans_le (h m))
  exact ⟨s',hs',⟨fun m => hamount m ▸ hlow.readings m,hlow.attempts,hlow.coverLimits⟩⟩

/-! ## Admission -/

/-- The cover allowance lies inside the totals and covers are part of the jobs. -/
structure Sound (s : State) : Prop where
  jobs : s.coverCount ≤ s.resources.jobs
  bytes : s.coverCount*coverBytes ≤ s.resources.bytes
  jobLimit : s.coverLimit ≤ maxJobs
  byteLimit : s.coverLimit*coverBytes ≤ maxBytes

/-- What `reserve_inner` asks of the totals. -/
def Admissible (s : State) (scope : Scope) (bytes : ℕ) : Bool → Prop
  | true => s.covers scope < s.coverLimits scope
  | false => s.resources.jobs-s.coverCount < maxJobs-s.coverLimit ∧
      bytes ≤ maxBytes-s.coverLimit*coverBytes-(s.resources.bytes-s.coverCount*coverBytes)

def Room (s : State) (bytes : ℕ) : Prop :=
  s.resources.jobs < maxJobs ∧ bytes ≤ maxBytes-s.resources.bytes

theorem admit_bind {s t : State} {scope : Scope} {bytes : ℕ} {cover : Bool} (hs : Sound s)
    {f : Unit → Op Reservation} :
    (Admissible s scope bytes cover → (admitBytes s scope bytes cover >>= f) t = f () t) ∧
    (¬Admissible s scope bytes cover →
      (admitBytes s scope bytes cover >>= f) t = (.error (.refused .full),t)) := by
  cases cover with
  | true => exact ⟨fun h => demand_bind_of h,fun h => demand_bind_of_not h⟩
  | false =>
      have hrun : (admitBytes s scope bytes false >>= f) t =
          (Cmd.demand (¬(maxJobs-s.coverLimit ≤ s.resources.jobs-s.coverCount ∨
            maxBytes-s.coverLimit*coverBytes-(s.resources.bytes-s.coverCount*coverBytes) < bytes))
            (.refused .full) >>= f) t := by
        unfold admitBytes
        rw [bind_assoc_run,minus_bind hs.jobs,bind_assoc_run,minus_bind hs.bytes,bind_assoc_run,
          minus_bind hs.byteLimit,bind_assoc_run,minus_bind hs.jobLimit]
      rw [hrun]
      simp only [Admissible]
      exact ⟨fun h => demand_bind_of (by omega),fun h => demand_bind_of_not (by omega)⟩

theorem reserveInner_refused {s : State} {scope : Scope} {bytes : ℕ} {attempt : Option (Block 32)}
    {cover : Bool} (hs : Sound s) (h : ¬((∀ id ∈ attempt, (scope,id) ∉ s.attempts) ∧
      Admissible s scope bytes cover ∧ Room s bytes)) :
    ∃ e, reserveInner scope bytes attempt cover s = (.error (.refused e),s) := by
  unfold reserveInner
  rw [read_id_bind]
  by_cases hp : ∀ id ∈ attempt, (scope,id) ∉ s.attempts
  · rw [demand_bind_of hp]
    by_cases ha : Admissible s scope bytes cover
    · rw [(admit_bind hs).1 ha]
      have hr : ¬Room s bytes := fun hr => h ⟨hp,ha,hr⟩
      unfold Room at hr
      exact ⟨.full,demand_bind_of_not (fun hc => hr (by omega))⟩
    · exact ⟨.full,(admit_bind hs).2 ha⟩
  · exact ⟨.pending,demand_bind_of_not hp⟩

theorem reserveInner_run {s : State} {scope : Scope} {bytes : ℕ} {attempt : Option (Block 32)}
    {cover : Bool} (hs : Sound s) (hp : ∀ id ∈ attempt, (scope,id) ∉ s.attempts)
    (ha : Admissible s scope bytes cover) (hr : Room s bytes) :
    reserveInner scope bytes attempt cover s =
      (.ok ⟨scope,bytes,attempt,cover⟩,s.hold ⟨scope,bytes,attempt,cover⟩) := by
  unfold reserveInner
  rw [read_id_bind,demand_bind_of hp,(admit_bind hs).1 ha]
  unfold Room at hr
  rw [demand_bind_of (by omega)]
  rfl

/-- What `stage` asks of the totals and of the retained limit. -/
def Stageable (s : State) (growth limit : PayloadUsage) : Prop :=
  growth.items ≤ limit.items-s.retained.items ∧ growth.bytes ≤ limit.bytes-s.retained.bytes ∧
    growth.items ≤ maxJobs-s.coverLimit-(s.resources.jobs-s.coverCount) ∧
    growth.bytes ≤ maxBytes-s.coverLimit*coverBytes-(s.resources.bytes-s.coverCount*coverBytes)

theorem stage_cases {s : State} (scope : Scope) (current next : PayloadUsage)
    (priority : RetainedPriority) (hs : Sound s) :
    (Stageable s (next.growth current) priority.limit ∧
      stage scope current next priority s =
        (.ok (next.growth current),s.retain scope (next.growth current))) ∨
    stage scope current next priority s = (.error (.refused .full),s) := by
  unfold stage
  rw [read_id_bind,minus_bind hs.jobs,minus_bind hs.bytes,minus_bind hs.jobLimit,minus_bind hs.byteLimit]
  by_cases hg : Excessive s (next.growth current) priority.limit
      (maxJobs-s.coverLimit-(s.resources.jobs-s.coverCount))
      (maxBytes-s.coverLimit*coverBytes-(s.resources.bytes-s.coverCount*coverBytes))
  · exact .inr (demand_bind_of_not (not_not.mpr hg))
  · refine .inl ⟨?_,demand_bind_of hg⟩
    unfold Excessive at hg
    push Not at hg
    exact hg

/-! ## What is added -/

theorem reading_hold (m : Meter) (s : State) (r : Reservation) :
    reading m (s.hold r) = reading m s+weight m r := by
  cases m with
  | jobs => rfl
  | bytes => rfl
  | localJobs c =>
      by_cases hc : r.scope = c
      · subst hc
        simp [reading,State.hold,weight,ResourceSnapshot.add,ResourceSnapshot.addMany]
      · simp [reading,State.hold,weight,Function.update_of_ne (Ne.symm hc),hc]
  | localBytes c =>
      by_cases hc : r.scope = c
      · subst hc
        simp [reading,State.hold,weight,ResourceSnapshot.add,ResourceSnapshot.addMany]
      · simp [reading,State.hold,weight,Function.update_of_ne (Ne.symm hc),hc]
  | covers c =>
      by_cases hc : r.scope = c
      · subst hc
        simp [reading,State.hold,weight]
      · simp [reading,State.hold,weight,Function.update_of_ne (Ne.symm hc),hc]
  | retainedItems => rfl
  | retainedBytes => rfl

/-- Within a retained limit the saturating addition is exact. -/
theorem reading_retain (m : Meter) {s : State} (scope : Scope) {growth : PayloadUsage}
    (hi : s.retained.items+growth.items ≤ usizeMax) (hb : s.retained.bytes+growth.bytes ≤ usizeMax) :
    reading m (s.retain scope growth) = reading m s+load m scope growth := by
  cases m with
  | jobs => rfl
  | bytes => rfl
  | localJobs c =>
      by_cases hc : scope = c
      · subst hc
        simp [reading,State.retain,load,ResourceSnapshot.addMany]
      · simp [reading,State.retain,load,Function.update_of_ne (Ne.symm hc),hc]
  | localBytes c =>
      by_cases hc : scope = c
      · subst hc
        simp [reading,State.retain,load,ResourceSnapshot.addMany]
      · simp [reading,State.retain,load,Function.update_of_ne (Ne.symm hc),hc]
  | covers c => rfl
  | retainedItems => exact min_eq_left hi
  | retainedBytes => exact min_eq_left hb

/-! ## Limits -/

/-- Payload stays outside the cover allowance, and everything inside its limit. -/
structure Within (limits : Scope → ℕ) (s : State) : Prop where
  coverLimits : s.coverLimits = limits
  lanes : ∀ c, limits c ≤ maxLanes
  covers : ∀ c, s.covers c ≤ limits c
  payloadJobs : s.resources.jobs+s.coverLimit ≤ maxJobs+s.coverCount
  payloadBytes : s.resources.bytes+s.coverLimit*coverBytes ≤ maxBytes+s.coverCount*coverBytes
  retainedItems : s.retained.items ≤ retainedLimit.items
  retainedBytes : s.retained.bytes ≤ retainedLimit.bytes

theorem weight_covers (r : Reservation) :
    weight (.covers 0) r+weight (.covers 1) r = r.cover.toNat := by
  obtain ⟨scope,bytes,attempt,cover⟩ := r
  fin_cases scope <;> simp [weight]

section Limits
variable {limits : Scope → ℕ} {s s' : State}

theorem Within.coverLimit_eq (h : Within limits s) : s.coverLimit = limits 0+limits 1 := by
  rw [State.coverLimit,h.coverLimits]

theorem Within.totals (h : Within limits s) :
    s.resources.jobs ≤ maxJobs ∧ s.resources.bytes ≤ maxBytes := by
  have h0 := h.covers 0
  have h1 := h.covers 1
  have hj := h.payloadJobs
  have hb := h.payloadBytes
  rw [h.coverLimit_eq] at hj hb
  simp only [State.coverCount,coverBytes] at hj hb
  omega

theorem Within.dropped (h : Within limits s) {r : Reservation}
    (hr : r.cover = true → r.bytes = coverBytes)
    (hread : ∀ m, reading m s'+weight m r = reading m s) (hl : s'.coverLimits = s.coverLimits) :
    Within limits s' := by
  have hj : s'.resources.jobs+1 = s.resources.jobs := hread .jobs
  have hb : s'.resources.bytes+r.bytes = s.resources.bytes := hread .bytes
  have h0 : s'.covers 0+weight (.covers 0) r = s.covers 0 := hread (.covers 0)
  have h1 : s'.covers 1+weight (.covers 1) r = s.covers 1 := hread (.covers 1)
  have hcount : s'.coverCount+r.cover.toNat = s.coverCount := by
    have hw := weight_covers r
    unfold State.coverCount
    omega
  have hlimit : s'.coverLimit = s.coverLimit := by
    unfold State.coverLimit
    rw [hl]
  have hpj := h.payloadJobs
  have hpb := h.payloadBytes
  refine ⟨hl.trans h.coverLimits,h.lanes,fun c => ?_,?_,?_,?_,?_⟩
  · have hc : s'.covers c+weight (.covers c) r = s.covers c := hread (.covers c)
    have hle := h.covers c
    omega
  · rw [hlimit]
    cases hcover : r.cover <;> simp only [hcover,Bool.toNat_true,Bool.toNat_false] at hcount <;> omega
  · rw [hlimit]
    cases hcover : r.cover with
    | false =>
        rw [hcover] at hcount
        rw [show s'.coverCount = s.coverCount from hcount]
        omega
    | true =>
        rw [hcover] at hcount
        simp only [Bool.toNat_true] at hcount
        rw [hr hcover] at hb
        rw [← hcount,add_mul] at hpb
        omega
  · have hi : s'.retained.items+0 = s.retained.items := hread .retainedItems
    have hle := h.retainedItems
    omega
  · have hi : s'.retained.bytes+0 = s.retained.bytes := hread .retainedBytes
    have hle := h.retainedBytes
    omega

theorem Within.released (h : Within limits s) {scope : Scope} {usage : PayloadUsage}
    (hlow : Lowered s s' (fun m => load m scope usage)) : Within limits s' := by
  have hj : s'.resources.jobs+usage.items = s.resources.jobs := hlow.readings .jobs
  have hb : s'.resources.bytes+usage.bytes = s.resources.bytes := hlow.readings .bytes
  have hcovers : ∀ c, s'.covers c = s.covers c := fun c => hlow.readings (.covers c)
  have hcount : s'.coverCount = s.coverCount := by
    simp only [State.coverCount,hcovers]
  have hlimit : s'.coverLimit = s.coverLimit := by
    unfold State.coverLimit
    rw [hlow.coverLimits]
  have hpj := h.payloadJobs
  have hpb := h.payloadBytes
  refine ⟨hlow.coverLimits.trans h.coverLimits,h.lanes,fun c => ?_,?_,?_,?_,?_⟩
  · rw [hcovers]
    exact h.covers c
  · rw [hlimit,hcount]
    omega
  · rw [hlimit,hcount]
    omega
  · have hi : s'.retained.items+usage.items = s.retained.items := hlow.readings .retainedItems
    have hle := h.retainedItems
    omega
  · have hi : s'.retained.bytes+usage.bytes = s.retained.bytes := hlow.readings .retainedBytes
    have hle := h.retainedBytes
    omega

theorem coverCount_hold (s : State) (r : Reservation) :
    (s.hold r).coverCount = s.coverCount+r.cover.toNat := by
  have h0 : (s.hold r).covers 0 = s.covers 0+weight (.covers 0) r := reading_hold (.covers 0) s r
  have h1 : (s.hold r).covers 1 = s.covers 1+weight (.covers 1) r := reading_hold (.covers 1) s r
  have hw := weight_covers r
  unfold State.coverCount
  omega

theorem Within.hold (h : Within limits s) (hs : Sound s) {r : Reservation}
    (hr : r.cover = true → r.bytes = coverBytes) (ha : Admissible s r.scope r.bytes r.cover) :
    Within limits (s.hold r) := by
  have hj : (s.hold r).resources.jobs = s.resources.jobs+1 := rfl
  have hb : (s.hold r).resources.bytes = s.resources.bytes+r.bytes := rfl
  have hcount := coverCount_hold s r
  have hlimit : (s.hold r).coverLimit = s.coverLimit := rfl
  have hpj := h.payloadJobs
  have hpb := h.payloadBytes
  have hsj := hs.jobs
  have hsb := hs.bytes
  have hsl := hs.byteLimit
  refine ⟨h.coverLimits,h.lanes,fun c => ?_,?_,?_,h.retainedItems,h.retainedBytes⟩
  · have hc : (s.hold r).covers c = s.covers c+weight (.covers c) r := reading_hold (.covers c) s r
    have hle := h.covers c
    rw [hc]
    by_cases hsc : r.scope = c
    · subst hsc
      cases hcover : r.cover with
      | false => simpa [weight,hcover] using hle
      | true =>
          rw [hcover] at ha
          have hlt : s.covers r.scope < s.coverLimits r.scope := ha
          rw [h.coverLimits] at hlt
          simpa [weight,hcover] using hlt
    · simpa [weight,hsc] using hle
  · rw [hcount,hj,hlimit]
    cases hcover : r.cover with
    | false =>
        rw [hcover] at ha
        have hlt := ha.1
        simp only [Bool.toNat_false]
        omega
    | true =>
        simp only [Bool.toNat_true]
        omega
  · rw [hcount,hb,hlimit,add_mul]
    cases hcover : r.cover with
    | false =>
        rw [hcover] at ha
        have hle := ha.2
        simp only [Bool.toNat_false]
        omega
    | true =>
        rw [hr hcover]
        simp only [Bool.toNat_true]
        omega

theorem limit_le (priority : RetainedPriority) : priority.limit.items ≤ retainedLimit.items ∧
    priority.limit.bytes ≤ retainedLimit.bytes := by
  cases priority <;> decide

/-- A staged growth fits, so that the additions of `stage` are exact. -/
theorem Stageable.fits {growth : PayloadUsage} {priority : RetainedPriority} (h : Within limits s)
    (hg : Stageable s growth priority.limit) :
    s.retained.items+growth.items ≤ retainedLimit.items ∧
      s.retained.bytes+growth.bytes ≤ retainedLimit.bytes := by
  have hl := limit_le priority
  have hi := h.retainedItems
  have hb := h.retainedBytes
  obtain ⟨h1,h2,-,-⟩ := hg
  omega

theorem reading_retain_of {growth : PayloadUsage} {priority : RetainedPriority}
    (h : Within limits s) (hg : Stageable s growth priority.limit) (m : Meter) (scope : Scope) :
    reading m (s.retain scope growth) = reading m s+load m scope growth := by
  obtain ⟨hi,hb⟩ := hg.fits h
  exact reading_retain m scope (hi.trans (by decide)) (hb.trans (by decide))

theorem Within.retain (h : Within limits s) (hs : Sound s) {growth : PayloadUsage}
    {priority : RetainedPriority} (hg : Stageable s growth priority.limit) (scope : Scope) :
    Within limits (s.retain scope growth) := by
  have hj : (s.retain scope growth).resources.jobs = s.resources.jobs+growth.items := rfl
  have hb : (s.retain scope growth).resources.bytes = s.resources.bytes+growth.bytes := rfl
  have hcount : (s.retain scope growth).coverCount = s.coverCount := rfl
  have hlimit : (s.retain scope growth).coverLimit = s.coverLimit := rfl
  have hi : (s.retain scope growth).retained.items = s.retained.items+growth.items :=
    reading_retain_of h hg .retainedItems scope
  have hbb : (s.retain scope growth).retained.bytes = s.retained.bytes+growth.bytes :=
    reading_retain_of h hg .retainedBytes scope
  have hfit := hg.fits h
  have hpj := h.payloadJobs
  have hpb := h.payloadBytes
  have hsj := hs.jobs
  have hsb := hs.bytes
  have hsl := hs.byteLimit
  obtain ⟨-,-,h3,h4⟩ := hg
  refine ⟨h.coverLimits,h.lanes,h.covers,?_,?_,?_,?_⟩
  · rw [hcount,hj,hlimit]
    omega
  · rw [hcount,hb,hlimit]
    omega
  · rw [hi]
    exact hfit.1
  · rw [hbb]
    exact hfit.2

end Limits

/-! ## The objects that are alive -/

/-- Live reservations that are not cover. -/
def payload (w : World) : SortedMap ℕ Reservation := w.reservations.retain (fun _ r => !r.cover)

/-- Every meter shows what the live objects weigh, staged growth included. -/
def Balanced (w : World) : Prop := ∀ m, reading m w.state =
  w.reservations.sumBy (weight m)+w.accounts.sumBy (fun a => load m a.scope a.held)

structure Conserved (limits : Scope → ℕ) (w : World) : Prop where
  balanced : Balanced w
  within : Within limits w.state
  coverShape : ∀ h r, w.reservations.find? h = some r → r.cover = true →
    r.bytes = coverBytes ∧ r.attempt = none
  updates : ∀ h a u, w.accounts.find? h = some a → a.staged = some u →
    u.growth = u.next.growth a.usage
  attempts : ∀ scope id, (scope,id) ∈ w.state.attempts ↔
    ∃ h r, w.reservations.find? h = some r ∧ r.scope = scope ∧ r.attempt = some id
  unique : ∀ h h' r r' id, w.reservations.find? h = some r → w.reservations.find? h' = some r' →
    r.scope = r'.scope → r.attempt = some id → r'.attempt = some id → h = h'
  freshReservation : ∀ h, w.fresh ≤ h → w.reservations.find? h = none
  freshAccount : ∀ h, w.fresh ≤ h → w.accounts.find? h = none

theorem start_conserved {limits : Scope → ℕ} (h : ∀ c, limits c ≤ maxLanes) :
    Conserved limits (start limits) where
  balanced m := by cases m <;> rfl
  within := by
    have h0 := h 0
    have h1 := h 1
    refine ⟨rfl,h,fun c => Nat.zero_le _,?_,?_,Nat.zero_le _,Nat.zero_le _⟩
    · simp only [start,State.coverLimit,State.coverCount,maxJobs,maxLanes] at *
      omega
    · simp only [start,State.coverLimit,State.coverCount,maxBytes,coverBytes,maxLanes] at *
      omega
  coverShape _ _ hr := nomatch hr
  updates _ _ _ ha := nomatch ha
  attempts scope id := by simp [start]
  unique _ _ _ _ _ hr := nomatch hr
  freshReservation _ _ := rfl
  freshAccount _ _ := rfl

section Objects
variable {limits : Scope → ℕ} {w : World}

theorem Conserved.weight_le (h : Conserved limits w) {k : ℕ} {r : Reservation}
    (hr : w.reservations.find? k = some r) (m : Meter) : weight m r ≤ reading m w.state := by
  rw [h.balanced m,SortedMap.sumBy_of_find? hr]
  omega

theorem Conserved.load_le (h : Conserved limits w) {k : ℕ} {a : RetainedAccount}
    (ha : w.accounts.find? k = some a) (m : Meter) :
    load m a.scope a.held ≤ reading m w.state := by
  rw [h.balanced m,SortedMap.sumBy_of_find? ha]
  omega

theorem sum_jobs (w : World) : w.reservations.sumBy (weight .jobs) =
    w.reservations.sumBy (weight (.covers 0))+w.reservations.sumBy (weight (.covers 1))+
      (payload w).sumBy (fun _ => 1) := by
  unfold payload
  rw [SortedMap.sumBy_retain,← SortedMap.sumBy_add,← SortedMap.sumBy_add]
  apply SortedMap.sumBy_congr
  intro k r _
  rw [weight_covers]
  cases hc : r.cover <;> simp [weight]

theorem Conserved.sum_bytes (h : Conserved limits w) : w.reservations.sumBy (weight .bytes) =
    coverBytes*(w.reservations.sumBy (weight (.covers 0))+
      w.reservations.sumBy (weight (.covers 1)))+(payload w).sumBy (fun r => r.bytes) := by
  unfold payload
  rw [SortedMap.sumBy_retain,← SortedMap.sumBy_add,← SortedMap.sumBy_mul,← SortedMap.sumBy_add]
  apply SortedMap.sumBy_congr
  intro k r hr
  rw [weight_covers]
  cases hc : r.cover with
  | false => simp [weight]
  | true => simp [weight,(h.coverShape k r hr hc).1]

theorem Conserved.coverCount_eq (h : Conserved limits w) : w.state.coverCount =
    w.reservations.sumBy (weight (.covers 0))+w.reservations.sumBy (weight (.covers 1)) := by
  have h0 := h.balanced (.covers 0)
  have h1 := h.balanced (.covers 1)
  have hzero : ∀ c, w.accounts.sumBy (fun a => load (.covers c) a.scope a.held) = 0 := by
    intro c
    simp [SortedMap.sumBy,load]
  rw [hzero] at h0 h1
  unfold State.coverCount
  exact congrArg₂ (·+·) h0 h1

/-- Jobs and bytes are those of covers and those of payload and retained usage. -/
theorem Conserved.split (h : Conserved limits w) :
    w.state.resources.jobs = w.state.coverCount+((payload w).sumBy (fun _ => 1)+
      w.accounts.sumBy (fun a => a.held.items)) ∧
    w.state.resources.bytes = w.state.coverCount*coverBytes+
      ((payload w).sumBy (fun r => r.bytes)+w.accounts.sumBy (fun a => a.held.bytes)) := by
  have hj := h.balanced .jobs
  have hb := h.balanced .bytes
  rw [sum_jobs,← h.coverCount_eq] at hj
  rw [h.sum_bytes,← h.coverCount_eq,mul_comm] at hb
  exact ⟨hj.trans (add_assoc _ _ _),hb.trans (add_assoc _ _ _)⟩

theorem Conserved.sound (h : Conserved limits w) : Sound w.state := by
  have hs := h.split
  have h0 := h.within.lanes 0
  have h1 := h.within.lanes 1
  have hl := h.within.coverLimit_eq
  refine ⟨?_,?_,?_,?_⟩
  · omega
  · omega
  · simp only [maxJobs,maxLanes] at *
    omega
  · simp only [maxBytes,coverBytes,maxLanes] at *
    omega

/-! ## Steps -/

/-- A reservation is made with a fresh handle. -/
theorem Conserved.hold (h : Conserved limits w) {r : Reservation}
    (hr : r.cover = true → r.bytes = coverBytes ∧ r.attempt = none)
    (hp : ∀ id ∈ r.attempt, (r.scope,id) ∉ w.state.attempts)
    (ha : Admissible w.state r.scope r.bytes r.cover) :
    Conserved limits {w with
      state := w.state.hold r
      reservations := w.reservations.insert w.fresh r
      fresh := w.fresh+1} where
  balanced m := by
    have hnew := SortedMap.sumBy_insert_new (h.freshReservation w.fresh le_rfl) r (weight m)
    have hm := h.balanced m
    change reading m (w.state.hold r) = (w.reservations.insert w.fresh r).sumBy (weight m)+
      w.accounts.sumBy (fun a => load m a.scope a.held)
    rw [reading_hold,hnew,hm]
    omega
  within := h.within.hold h.sound (fun hc => (hr hc).1) ha
  coverShape k r' hk hc := by
    rw [SortedMap.find?_insert] at hk
    split at hk
    · cases hk
      exact hr hc
    · exact h.coverShape k r' hk hc
  updates := h.updates
  attempts scope id := by
    have hold : (scope,id) ∈ (w.state.hold r).attempts ↔
        (r.scope = scope ∧ r.attempt = some id) ∨ (scope,id) ∈ w.state.attempts := by
      cases hat : r.attempt with
      | none => simp [State.hold,hat]
      | some i =>
          simp only [State.hold,hat,Finset.mem_insert,Prod.mk.injEq,Option.some.injEq]
          tauto
    change (scope,id) ∈ (w.state.hold r).attempts ↔ _
    rw [hold,h.attempts]
    constructor
    · rintro (⟨hsc,hat⟩ | ⟨k,r',hk,hrest⟩)
      · exact ⟨w.fresh,r,SortedMap.find?_insert_self _ _ _,hsc,hat⟩
      · refine ⟨k,r',?_,hrest⟩
        rw [SortedMap.find?_insert_of_ne _ _ ?_]
        · exact hk
        · rintro rfl
          rw [h.freshReservation w.fresh le_rfl] at hk
          cases hk
    · rintro ⟨k,r',hk,hsc,hat⟩
      rw [SortedMap.find?_insert] at hk
      split at hk
      · cases hk
        exact .inl ⟨hsc,hat⟩
      · exact .inr ⟨k,r',hk,hsc,hat⟩
  unique k k' r₁ r₂ id hk hk' hsc h1 h2 := by
    rw [SortedMap.find?_insert] at hk hk'
    split at hk
    next hkf =>
      cases hk
      split at hk'
      next hkf' => rw [hkf,hkf']
      next => exact absurd ((h.attempts _ _).mpr ⟨k',r₂,hk',hsc.symm,h2⟩) (hp id h1)
    next =>
      split at hk'
      next =>
        cases hk'
        exact absurd ((h.attempts _ _).mpr ⟨k,r₁,hk,hsc,h1⟩) (hp id h2)
      next => exact h.unique k k' r₁ r₂ id hk hk' hsc h1 h2
  freshReservation k hk := by
    have hk' : w.fresh+1 ≤ k := hk
    rw [SortedMap.find?_insert_of_ne _ _ (by omega)]
    exact h.freshReservation k (by omega)
  freshAccount k hk := by
    have hk' : w.fresh+1 ≤ k := hk
    exact h.freshAccount k (by omega)

theorem Conserved.dropReservation (h : Conserved limits w) {k : ℕ} {r : Reservation} {s' : State}
    (hk : w.reservations.find? k = some r)
    (hread : ∀ m, reading m s'+weight m r = reading m w.state)
    (hl : s'.coverLimits = w.state.coverLimits) (hat : s'.attempts = (w.state.forget r).attempts) :
    Conserved limits {w with state := s', reservations := w.reservations.erase k} where
  balanced m := by
    have hm := h.balanced m
    have hr := hread m
    rw [SortedMap.sumBy_of_find? hk] at hm
    change reading m s' = (w.reservations.erase k).sumBy (weight m)+
      w.accounts.sumBy (fun a => load m a.scope a.held)
    omega
  within := h.within.dropped (fun hc => (h.coverShape k r hk hc).1) hread hl
  coverShape j r' hj := h.coverShape j r' (SortedMap.find?_of_erase hj)
  updates := h.updates
  attempts scope id := by
    have hmem : (scope,id) ∈ s'.attempts ↔
        ¬(r.scope = scope ∧ r.attempt = some id) ∧ (scope,id) ∈ w.state.attempts := by
      rw [hat]
      cases hra : r.attempt with
      | none => simp [State.forget,hra]
      | some i =>
          simp only [State.forget,hra,Finset.mem_erase,ne_eq,Prod.mk.injEq,Option.some.injEq]
          tauto
    rw [hmem,h.attempts]
    constructor
    · rintro ⟨hne,j,r',hj,hrest⟩
      refine ⟨j,r',?_,hrest⟩
      rw [SortedMap.find?_erase_of_ne _ ?_]
      · exact hj
      · rintro rfl
        rw [hk] at hj
        cases hj
        exact hne hrest
    · rintro ⟨j,r',hj,hsc,hra⟩
      refine ⟨?_,j,r',SortedMap.find?_of_erase hj,hsc,hra⟩
      rintro ⟨hsc',hra'⟩
      have hjk := h.unique j k r' r id (SortedMap.find?_of_erase hj) hk (hsc.trans hsc'.symm) hra hra'
      rw [hjk,SortedMap.find?_erase_self] at hj
      cases hj
  unique j j' r₁ r₂ id hj hj' :=
    h.unique j j' r₁ r₂ id (SortedMap.find?_of_erase hj) (SortedMap.find?_of_erase hj')
  freshReservation j hj := by
    have hnone := h.freshReservation j hj
    by_cases hjk : j = k
    · rw [hjk]
      exact SortedMap.find?_erase_self _ _
    · rw [SortedMap.find?_erase_of_ne _ hjk]
      exact hnone
  freshAccount := h.freshAccount

/-- An account is replaced and the meters follow the change of its load. -/
theorem Conserved.setAccount (h : Conserved limits w) {k : ℕ} {a a' : RetainedAccount} {s' : State}
    (hk : w.accounts.find? k = some a) (hwithin : Within limits s')
    (hat : s'.attempts = w.state.attempts)
    (hread : ∀ m, reading m s'+load m a.scope a.held = reading m w.state+load m a'.scope a'.held)
    (hup : ∀ u, a'.staged = some u → u.growth = u.next.growth a'.usage) :
    Conserved limits ({w with state := s'}.setAccount k a') where
  balanced m := by
    have hm := h.balanced m
    have hr := hread m
    rw [SortedMap.sumBy_of_find? hk] at hm
    change reading m s' = w.reservations.sumBy (weight m)+
      (w.accounts.insert k a').sumBy (fun a => load m a.scope a.held)
    rw [SortedMap.sumBy_insert]
    omega
  within := hwithin
  coverShape := h.coverShape
  updates j b u hj hu := by
    change (w.accounts.insert k a').find? j = some b at hj
    rw [SortedMap.find?_insert] at hj
    split at hj
    · cases hj
      exact hup u hu
    · exact h.updates j b u hj hu
  attempts scope id := by
    change (scope,id) ∈ s'.attempts ↔ _
    rw [hat]
    exact h.attempts scope id
  unique := h.unique
  freshReservation := h.freshReservation
  freshAccount j hj := by
    have hnone := h.freshAccount j hj
    change (w.accounts.insert k a').find? j = none
    rw [SortedMap.find?_insert_of_ne]
    · exact hnone
    · rintro rfl
      rw [hk] at hnone
      cases hnone

theorem Conserved.newAccount (h : Conserved limits w) (scope : Scope) :
    Conserved limits {w with
      accounts := w.accounts.insert w.fresh ⟨scope,⟨0,0⟩,none⟩
      fresh := w.fresh+1} where
  balanced m := by
    have hnew := SortedMap.sumBy_insert_new (h.freshAccount w.fresh le_rfl)
      (⟨scope,⟨0,0⟩,none⟩ : RetainedAccount) (fun a => load m a.scope a.held)
    have hm := h.balanced m
    have hzero : load m scope ⟨0,0⟩ = 0 := by
      cases m <;> simp [load]
    change reading m w.state = w.reservations.sumBy (weight m)+
      (w.accounts.insert w.fresh ⟨scope,⟨0,0⟩,none⟩).sumBy (fun a => load m a.scope a.held)
    rw [hnew,hm]
    change _ = _+(load m scope ⟨0,0⟩+_)
    rw [hzero,zero_add]
  within := h.within
  coverShape := h.coverShape
  updates j b u hj hu := by
    change (w.accounts.insert w.fresh _).find? j = some b at hj
    rw [SortedMap.find?_insert] at hj
    split at hj
    · cases hj
      cases hu
    · exact h.updates j b u hj hu
  attempts := h.attempts
  unique := h.unique
  freshReservation j hj := by
    have hj' : w.fresh+1 ≤ j := hj
    exact h.freshReservation j (by omega)
  freshAccount j hj := by
    have hj' : w.fresh+1 ≤ j := hj
    change (w.accounts.insert w.fresh _).find? j = none
    rw [SortedMap.find?_insert_of_ne _ _ (by omega)]
    exact h.freshAccount j (by omega)

theorem Conserved.dropAccount (h : Conserved limits w) {k : ℕ} {a : RetainedAccount} {s' : State}
    (hk : w.accounts.find? k = some a)
    (hlow : Lowered w.state s' (fun m => load m a.scope a.held)) :
    Conserved limits {w with state := s', accounts := w.accounts.erase k} where
  balanced m := by
    have hm := h.balanced m
    have hr := hlow.readings m
    rw [SortedMap.sumBy_of_find? hk] at hm
    change reading m s' = w.reservations.sumBy (weight m)+
      (w.accounts.erase k).sumBy (fun a => load m a.scope a.held)
    omega
  within := h.within.released hlow
  coverShape := h.coverShape
  updates j b u hj := h.updates j b u (SortedMap.find?_of_erase hj)
  attempts scope id := by
    change (scope,id) ∈ s'.attempts ↔ _
    rw [hlow.attempts]
    exact h.attempts scope id
  unique := h.unique
  freshReservation := h.freshReservation
  freshAccount j hj := by
    have hnone := h.freshAccount j hj
    by_cases hjk : j = k
    · rw [hjk]
      exact SortedMap.find?_erase_self _ _
    · change (w.accounts.erase k).find? j = none
      rw [SortedMap.find?_erase_of_ne _ hjk]
      exact hnone

/-! ## Calls -/

theorem shared_bind_ok {α β : Type} {x : Op α} {f : α → Cmd World Fault β} {a : α} {s' : State}
    (h : x w.state = (.ok a,s')) : (shared x >>= f) w = f a {w with state := s'} := by
  rw [bind_run,shared,h]

theorem shared_bind_error {α β : Type} {x : Op α} {f : α → Cmd World Fault β} {e : Fault}
    (h : x w.state = (.error e,w.state)) : (shared x >>= f) w = (.error e,w) := by
  rw [bind_run,shared,h]

/-- The call is refused without a trace, or it succeeds and conserves the budget. -/
def Kept (limits : Scope → ℕ) (x : Cmd World Fault Unit) (w : World) : Prop :=
  (∃ f, f ≠ .overflow ∧ x w = (.error f,w)) ∨ ∃ w', x w = (.ok (),w') ∧ Conserved limits w'

theorem room_of_admissible (h : Conserved limits w) {scope : Scope} {bytes : ℕ} {cover : Bool}
    (hc : cover = true → bytes = coverBytes) (ha : Admissible w.state scope bytes cover) :
    Room w.state bytes := by
  have hpj := h.within.payloadJobs
  have hpb := h.within.payloadBytes
  have hs := h.sound
  have hsj := hs.jobs
  have hsb := hs.bytes
  have h0 := h.within.covers 0
  have h1 := h.within.covers 1
  have hlimit := h.within.coverLimit_eq
  have hcount : w.state.coverCount = w.state.covers 0+w.state.covers 1 := rfl
  unfold Room
  cases cover with
  | false =>
      obtain ⟨hj,hb⟩ := ha
      simp only [coverBytes] at *
      omega
  | true =>
      have hlt : w.state.covers scope < w.state.coverLimits scope := ha
      rw [h.within.coverLimits] at hlt
      have hfree : w.state.coverCount < w.state.coverLimit := by
        fin_cases scope <;> simp only [Fin.zero_eta,Fin.mk_one] at hlt <;> omega
      rw [hc rfl]
      simp only [coverBytes] at *
      omega

theorem reserveInner_kept (h : Conserved limits w) (scope : Scope) (bytes : ℕ)
    (attempt : Option (Block 32)) (cover : Bool)
    (hc : cover = true → bytes = coverBytes ∧ attempt = none) :
    Kept limits (do keepReservation (← shared (reserveInner scope bytes attempt cover))) w := by
  by_cases hok : (∀ id ∈ attempt, (scope,id) ∉ w.state.attempts) ∧
      Admissible w.state scope bytes cover ∧ Room w.state bytes
  · obtain ⟨hp,ha,hr⟩ := hok
    refine .inr ⟨_,shared_bind_ok (reserveInner_run h.sound hp ha hr),?_⟩
    exact h.hold (r := ⟨scope,bytes,attempt,cover⟩) hc hp ha
  · obtain ⟨e,he⟩ := reserveInner_refused h.sound hok
    exact .inl ⟨.refused e,by simp,shared_bind_error he⟩

theorem load_add (m : Meter) (scope : Scope) (u v : PayloadUsage) :
    load m scope ⟨u.items+v.items,u.bytes+v.bytes⟩ = load m scope u+load m scope v := by
  cases m <;> simp only [load] <;> split_ifs <;> rfl

/-- Staging growth and releasing shrinkage turns the old usage into the next one. -/
theorem load_growth (m : Meter) (scope : Scope) (u v : PayloadUsage) :
    load m scope u+load m scope (v.growth u) = load m scope v+load m scope (u.growth v) := by
  cases m <;> simp only [load,PayloadUsage.growth] <;> try split_ifs
  all_goals omega

theorem held_none {a : RetainedAccount} (h : a.staged = none) : a.held = a.usage := by
  rw [RetainedAccount.held,h]

theorem load_held {a : RetainedAccount} {u : RetainedUpdate} (h : a.staged = some u) (m : Meter) :
    load m a.scope a.held = load m a.scope a.usage+load m a.scope u.growth := by
  rw [RetainedAccount.held,h]
  exact load_add m a.scope a.usage u.growth

theorem accountOf_bind {β : Type} {k : ℕ} {a : RetainedAccount} (hk : w.accounts.find? k = some a)
    (f : RetainedAccount → Cmd World Fault β) : (accountOf k >>= f) w = f a w := by
  rw [accountOf,bind_assoc_run,read_bind,hk]
  rfl

theorem accountOf_bind_none {β : Type} {k : ℕ} (hk : w.accounts.find? k = none)
    (f : RetainedAccount → Cmd World Fault β) : (accountOf k >>= f) w = (.error .unheld,w) := by
  rw [accountOf,bind_assoc_run,read_bind,hk]
  rfl

theorem updateOf_bind {β : Type} {k : ℕ} {a : RetainedAccount} {u : RetainedUpdate}
    (hk : w.accounts.find? k = some a) (hu : a.staged = some u)
    (f : RetainedAccount × RetainedUpdate → Cmd World Fault β) :
    (updateOf k >>= f) w = f (a,u) w := by
  rw [updateOf,bind_assoc_run,accountOf_bind hk,bind_assoc_run,hu]
  rfl

theorem updateOf_bind_none {β : Type} {k : ℕ}
    (h : ∀ a u, w.accounts.find? k = some a → a.staged ≠ some u)
    (f : RetainedAccount × RetainedUpdate → Cmd World Fault β) :
    (updateOf k >>= f) w = (.error .unheld,w) := by
  rw [updateOf,bind_assoc_run]
  cases hk : w.accounts.find? k with
  | none => exact accountOf_bind_none hk _
  | some a =>
      rw [accountOf_bind hk,bind_assoc_run]
      cases hu : a.staged with
      | none => rfl
      | some u => exact absurd hu (h a u hk)

/-- A stage that succeeds charges exactly the growth, within the limit of its priority. -/
theorem stage_ok (h : Conserved limits w) {k : ℕ} {next : PayloadUsage}
    {priority : RetainedPriority} {w' : World} {u : Unit}
    (hrun : exec (.stage k next priority) w = (.ok u,w')) :
    ∃ a, w.accounts.find? k = some a ∧ a.staged = none ∧
      Stageable w.state (next.growth a.usage) priority.limit ∧
      w' = {w with state := w.state.retain a.scope (next.growth a.usage)}.setAccount k
        {a with staged := some ⟨next,next.growth a.usage⟩} := by
  rw [exec] at hrun
  cases hk : w.accounts.find? k with
  | none =>
      rw [accountOf_bind_none hk] at hrun
      cases hrun
  | some a =>
      rw [accountOf_bind hk] at hrun
      obtain ⟨hnone,hrun⟩ := demand_bind_ok.mp hrun
      rcases stage_cases a.scope a.usage next priority h.sound with ⟨hg,hs⟩ | hs
      · rw [shared_bind_ok hs] at hrun
        cases hrun
        exact ⟨a,rfl,Option.isNone_iff_eq_none.mp hnone,hg,rfl⟩
      · rw [shared_bind_error hs] at hrun
        cases hrun

theorem stage_kept (h : Conserved limits w) (k : ℕ) (next : PayloadUsage)
    (priority : RetainedPriority) : Kept limits (exec (.stage k next priority)) w := by
  rw [Kept,exec]
  cases hk : w.accounts.find? k with
  | none => exact .inl ⟨.unheld,by simp,accountOf_bind_none hk _⟩
  | some a =>
      rw [accountOf_bind hk]
      by_cases hnone : a.staged.isNone = true
      · rw [demand_bind_of hnone]
        rcases stage_cases a.scope a.usage next priority h.sound with ⟨hg,hs⟩ | hs
        · refine .inr ⟨_,shared_bind_ok hs,?_⟩
          apply h.setAccount hk (h.within.retain h.sound hg a.scope) rfl
          · intro m
            rw [reading_retain_of h.within hg,held_none (Option.isNone_iff_eq_none.mp hnone)]
            have hheld : load m a.scope (RetainedAccount.held
                {a with staged := some ⟨next,next.growth a.usage⟩}) =
                load m a.scope a.usage+load m a.scope (next.growth a.usage) :=
              load_add m a.scope a.usage _
            rw [hheld]
            omega
          · intro u hu
            cases hu
            rfl
        · exact .inl ⟨.refused .full,by simp,shared_bind_error hs⟩
      · exact .inl ⟨.refused .pending,by simp,demand_bind_of_not hnone⟩

/-- A cancelled update takes back exactly the growth it had staged. -/
theorem cancel_run (h : Conserved limits w) {k : ℕ} {a : RetainedAccount} {u : RetainedUpdate}
    (hk : w.accounts.find? k = some a) (hu : a.staged = some u) :
    ∃ s', exec (.cancel k) w =
        (.ok (),{w with state := s'}.setAccount k {a with staged := none}) ∧
      Lowered w.state s' (fun m => load m a.scope u.growth) := by
  have hle : ∀ m, load m a.scope u.growth ≤ reading m w.state := by
    intro m
    have hm := h.load_le hk m
    rw [load_held hu] at hm
    omega
  obtain ⟨s',hs',hlow⟩ := releaseRetained_run hle
  refine ⟨s',?_,hlow⟩
  rw [exec,updateOf_bind hk hu]
  exact shared_bind_ok hs'

theorem cancel_kept (h : Conserved limits w) (k : ℕ) : Kept limits (exec (.cancel k)) w := by
  by_cases hex : ∃ a u, w.accounts.find? k = some a ∧ a.staged = some u
  · obtain ⟨a,u,hk,hu⟩ := hex
    obtain ⟨s',hs',hlow⟩ := cancel_run h hk hu
    refine .inr ⟨_,hs',h.setAccount hk (h.within.released hlow) hlow.attempts ?_ ?_⟩
    · intro m
      have hm := hlow.readings m
      rw [load_held hu]
      change _ = _+load m a.scope a.usage
      omega
    · intro v hv
      cases hv
  · refine .inl ⟨.unheld,by simp,?_⟩
    exact updateOf_bind_none (fun a u hk hu => hex ⟨a,u,hk,hu⟩) _

theorem commit_kept (h : Conserved limits w) (k : ℕ) : Kept limits (exec (.commit k)) w := by
  by_cases hex : ∃ a u, w.accounts.find? k = some a ∧ a.staged = some u
  · obtain ⟨a,u,hk,hu⟩ := hex
    -- usage and growth together are the next usage and what it shrinks by
    have hheld : ∀ m, load m a.scope a.held =
        load m a.scope u.next+load m a.scope (a.usage.growth u.next) := by
      intro m
      rw [load_held hu,h.updates k a u hk hu]
      exact load_growth m a.scope a.usage u.next
    have hle : ∀ m, load m a.scope (a.usage.growth u.next) ≤ reading m w.state := by
      intro m
      have hm := h.load_le hk m
      rw [hheld] at hm
      omega
    obtain ⟨s',hs',hlow⟩ := releaseRetained_run hle
    refine .inr ⟨{w with state := s'}.setAccount k {a with usage := u.next, staged := none},?_,?_⟩
    · rw [exec,updateOf_bind hk hu]
      exact shared_bind_ok hs'
    · apply h.setAccount hk (h.within.released hlow) hlow.attempts
      · intro m
        have hm := hlow.readings m
        rw [hheld]
        change _ = _+load m a.scope u.next
        omega
      · intro v hv
        cases hv
  · refine .inl ⟨.unheld,by simp,?_⟩
    exact updateOf_bind_none (fun a u hk hu => hex ⟨a,u,hk,hu⟩) _

theorem dropAccount_kept (h : Conserved limits w) (k : ℕ) :
    Kept limits (exec (.dropAccount k)) w := by
  rw [Kept,exec]
  cases hk : w.accounts.find? k with
  | none => exact .inl ⟨.unheld,by simp,accountOf_bind_none hk _⟩
  | some a =>
      rw [accountOf_bind hk]
      by_cases hnone : a.staged.isNone = true
      · rw [demand_bind_of hnone]
        have hheld := held_none (Option.isNone_iff_eq_none.mp hnone)
        obtain ⟨s',hs',hlow⟩ := releaseRetained_run (h.load_le hk)
        rw [hheld] at hs'
        exact .inr ⟨_,shared_bind_ok hs',h.dropAccount hk hlow⟩
      · exact .inl ⟨.unheld,by simp,demand_bind_of_not hnone⟩

theorem dropReservation_kept (h : Conserved limits w) (k : ℕ) :
    Kept limits (exec (.dropReservation k)) w := by
  rw [Kept,exec,read_bind]
  cases hk : w.reservations.find? k with
  | none => exact .inl ⟨.unheld,by simp,rfl⟩
  | some r =>
      obtain ⟨s',hs',hread,hl,hat⟩ := dropReservation_run (h.weight_le hk)
      exact .inr ⟨_,shared_bind_ok hs',h.dropReservation hk hread hl hat⟩

theorem exec_kept (h : Conserved limits w) (e : Event) : Kept limits (exec e) w := by
  cases e with
  | reserve scope bytes attempt =>
      rw [exec,reserve]
      exact reserveInner_kept h scope bytes attempt false (by simp)
  | reserveCover scope =>
      rw [exec,reserveCover]
      exact reserveInner_kept h scope coverBytes none true (fun _ => ⟨rfl,rfl⟩)
  | dropReservation k => exact dropReservation_kept h k
  | retainedAccount scope => exact .inr ⟨_,rfl,h.newAccount scope⟩
  | stage k next priority => exact stage_kept h k next priority
  | commit k => exact commit_kept h k
  | cancel k => exact cancel_kept h k
  | dropAccount k => exact dropAccount_kept h k

theorem after_conserved (h : Conserved limits w) (events : List Event) :
    Conserved limits (after w events) := by
  induction events generalizing w with
  | nil => exact h
  | cons e events ih =>
      apply ih
      rcases exec_kept h e with ⟨f,-,hf⟩ | ⟨w',hw',hc⟩
      · rw [hf]
        exact h
      · rw [hw']
        exact hc

/-! ## Isolation of cover and payload -/

def Succeeds {α : Type} (x : Op α) (s : State) : Prop := ∃ a s', x s = (.ok a,s')

theorem reserveInner_succeeds (h : Conserved limits w) {scope : Scope} {bytes : ℕ}
    {attempt : Option (Block 32)} {cover : Bool} (hc : cover = true → bytes = coverBytes) :
    Succeeds (reserveInner scope bytes attempt cover) w.state ↔
      (∀ id ∈ attempt, (scope,id) ∉ w.state.attempts) ∧ Admissible w.state scope bytes cover := by
  constructor
  · rintro ⟨r,s',hrun⟩
    by_contra hno
    have hno' : ¬((∀ id ∈ attempt, (scope,id) ∉ w.state.attempts) ∧
        Admissible w.state scope bytes cover ∧ Room w.state bytes) :=
      fun ⟨hp,ha,_⟩ => hno ⟨hp,ha⟩
    obtain ⟨e,he⟩ := reserveInner_refused h.sound hno'
    rw [he] at hrun
    cases hrun
  · rintro ⟨hp,ha⟩
    exact ⟨_,_,reserveInner_run h.sound hp ha (room_of_admissible h hc ha)⟩

/-- Payload fits beside other payload and retained usage, outside the whole cover
allowance. Outstanding covers do not occur. -/
def PayloadFits (limits : Scope → ℕ) (payload : SortedMap ℕ Reservation)
    (accounts : SortedMap ℕ RetainedAccount) (scope : Scope) (bytes : ℕ)
    (attempt : Option (Block 32)) : Prop :=
  (∀ id ∈ attempt, ∀ k r, payload.find? k = some r → ¬(r.scope = scope ∧ r.attempt = some id)) ∧
  payload.sumBy (fun _ => 1)+accounts.sumBy (fun a => a.held.items)+(limits 0+limits 1) < maxJobs ∧
  bytes+(payload.sumBy (fun r => r.bytes)+accounts.sumBy (fun a => a.held.bytes))+
    (limits 0+limits 1)*coverBytes ≤ maxBytes

theorem find?_payload {k : ℕ} {r : Reservation} :
    (payload w).find? k = some r ↔ w.reservations.find? k = some r ∧ r.cover = false := by
  unfold payload
  rw [SortedMap.find?_retain,Option.filter_eq_some_iff]
  simp

theorem reserve_succeeds (h : Conserved limits w) (scope : Scope) (bytes : ℕ)
    (attempt : Option (Block 32)) : Succeeds (reserve scope bytes attempt) w.state ↔
      PayloadFits limits (payload w) w.accounts scope bytes attempt := by
  have hattempts : (∀ id ∈ attempt, (scope,id) ∉ w.state.attempts) ↔ ∀ id ∈ attempt, ∀ k r,
      (payload w).find? k = some r → ¬(r.scope = scope ∧ r.attempt = some id) := by
    refine forall₂_congr (fun id _ => ?_)
    rw [h.attempts,not_exists]
    refine forall_congr' (fun k => ?_)
    rw [not_exists]
    refine forall_congr' (fun r => ?_)
    rw [find?_payload]
    constructor
    · rintro hno ⟨hk,-⟩ hr
      exact hno ⟨hk,hr⟩
    · rintro hno ⟨hk,hsc,hat⟩
      refine hno ⟨hk,?_⟩ ⟨hsc,hat⟩
      by_contra hcover
      rw [(h.coverShape k r hk (by simpa using hcover)).2] at hat
      cases hat
  have hsplit := h.split
  have hpb := h.within.payloadBytes
  have hsound := h.sound
  have hjl := hsound.jobLimit
  have hbl := hsound.byteLimit
  unfold reserve
  rw [reserveInner_succeeds h (by simp),hattempts]
  unfold PayloadFits
  refine and_congr_right (fun _ => ?_)
  rw [← h.within.coverLimit_eq]
  simp only [Admissible]
  omega

theorem reserveCover_succeeds (h : Conserved limits w) (scope : Scope) :
    Succeeds (reserveCover scope) w.state ↔
      w.reservations.sumBy (weight (.covers scope)) < limits scope := by
  have hcovers : w.state.covers scope = w.reservations.sumBy (weight (.covers scope)) := by
    have hb := h.balanced (.covers scope)
    have hzero : w.accounts.sumBy (fun a => load (.covers scope) a.scope a.held) = 0 := by
      simp [SortedMap.sumBy,load]
    rw [hzero] at hb
    exact hb
  unfold reserveCover
  rw [reserveInner_succeeds h (fun _ => rfl)]
  simp only [Admissible,hcovers,h.within.coverLimits]
  simp

end Objects

/-- What holds of the budget whenever no call is in progress. -/
structure Upheld (limits : Scope → ℕ) (w : World) : Prop where
  /-- Recorded jobs, bytes, covers and retained usage are those of the live objects. -/
  balanced : Balanced w
  jobs : w.state.resources.jobs ≤ maxJobs
  bytes : w.state.resources.bytes ≤ maxBytes
  retainedItems : w.state.retained.items ≤ retainedLimit.items
  retainedBytes : w.state.retained.bytes ≤ retainedLimit.bytes
  /-- No call subtracts more than is recorded. -/
  exact : ∀ e, (exec e w).1 ≠ .error .overflow
  failed : ∀ e f, (exec e w).1 = .error f → (exec e w).2 = w
  staged : ∀ k next priority w', exec (.stage k next priority) w = (.ok (),w') →
    ∃ a, w.accounts.find? k = some a ∧ a.staged = none ∧
      w'.accounts = w.accounts.insert k {a with staged := some ⟨next,next.growth a.usage⟩} ∧
      (∀ m, reading m w'.state = reading m w.state+load m a.scope (next.growth a.usage)) ∧
      (a.usage.items < next.items → w'.state.retained.items ≤ priority.limit.items) ∧
      (a.usage.bytes < next.bytes → w'.state.retained.bytes ≤ priority.limit.bytes)
  cancelled : ∀ k a u, w.accounts.find? k = some a → a.staged = some u →
    ∃ w', exec (.cancel k) w = (.ok (),w') ∧
      w'.accounts = w.accounts.insert k {a with staged := none} ∧
      ∀ m, reading m w'.state+load m a.scope u.growth = reading m w.state
  cover : ∀ scope, Succeeds (reserveCover scope) w.state ↔
    w.reservations.sumBy (weight (.covers scope)) < limits scope
  payload : ∀ scope bytes attempt, Succeeds (reserve scope bytes attempt) w.state ↔
    PayloadFits limits (payload w) w.accounts scope bytes attempt

theorem Conserved.upheld {limits : Scope → ℕ} {w : World} (h : Conserved limits w) :
    Upheld limits w where
  balanced := h.balanced
  jobs := h.within.totals.1
  bytes := h.within.totals.2
  retainedItems := h.within.retainedItems
  retainedBytes := h.within.retainedBytes
  exact e := by
    rcases exec_kept h e with ⟨f,hne,hf⟩ | ⟨w',hw',-⟩
    · rw [hf]
      intro heq
      cases heq
      exact hne rfl
    · rw [hw']
      exact fun heq => nomatch heq
  failed e f hf := by
    rcases exec_kept h e with ⟨g,-,hg⟩ | ⟨w',hw',-⟩
    · rw [hg]
    · rw [hw'] at hf
      cases hf
  staged k next priority w' hrun := by
    obtain ⟨a,hk,hnone,hg,rfl⟩ := stage_ok h hrun
    have hread := fun m => reading_retain_of h.within hg m a.scope
    refine ⟨a,hk,hnone,rfl,hread,fun hlt => ?_,fun hlt => ?_⟩
    · have hi : (w.state.retain a.scope (next.growth a.usage)).retained.items = _ :=
        hread .retainedItems
      change (w.state.retain a.scope (next.growth a.usage)).retained.items ≤ _
      rw [hi]
      have h1 := hg.1
      simp only [reading,load,PayloadUsage.growth] at h1 ⊢
      omega
    · have hb : (w.state.retain a.scope (next.growth a.usage)).retained.bytes = _ :=
        hread .retainedBytes
      change (w.state.retain a.scope (next.growth a.usage)).retained.bytes ≤ _
      rw [hb]
      have h2 := hg.2.1
      simp only [reading,load,PayloadUsage.growth] at h2 ⊢
      omega
  cancelled k a u hk hu := by
    obtain ⟨s',hs',hlow⟩ := cancel_run h hk hu
    exact ⟨_,hs',rfl,hlow.readings⟩
  cover := reserveCover_succeeds h
  payload := reserve_succeeds h

/-- Every interleaving of calls and destructors upholds the budget. -/
theorem budget_upheld (limits : Scope → ℕ) (hl : ∀ c, limits c ≤ maxLanes)
    (events : List Event) : Upheld limits (after (start limits) events) :=
  (after_conserved (start_conserved hl) events).upheld

def sampleCalls : List Event :=
  [.reserveCover 0,.reserve 1 100 none,.retainedAccount 0,.stage 2 ⟨3,300⟩ .application,.commit 2,
    .stage 2 ⟨1,400⟩ .control,.cancel 2,.dropReservation 0]

theorem budget_upheld_sample : (∀ c, ![1,1] c ≤ maxLanes) ∧
    Upheld ![1,1] (after (pair 1) sampleCalls) :=
  ⟨by decide,budget_upheld ![1,1] (by decide) sampleCalls⟩

end Gcoms.SchedulerConservation
