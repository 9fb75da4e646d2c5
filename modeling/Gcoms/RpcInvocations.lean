import Gcoms.RpcRouter

/-!
# Invocations of the RPC router

The journal remembers an admission at least until the deadline it was made with,
so a call with the same key and deadline is admitted once. Workers complete by
key. As long as no key is admitted while it is listed as active, the record a
worker finds is the one it was started for, and each stored result is the
outcome of its own invocation.

The router itself does not look at the active set when it admits: a worker that
outlives the retention of its record is joined by a second one of the same key.
-/
namespace Gcoms.RpcInvocations
open Fallible SortedMaps RpcRouter
open LeaseCodec (satAdd)

variable {Value : Type}

/-! ## Journals -/

theorem getRecord_eq_none {j : Journal Value} {key : OperationKey} {now : ℕ} :
    getRecord j key now = none ↔ ∀ r ∈ j, r.key = key → r.retainUntil ≤ now := by
  unfold getRecord
  rw [List.find?_eq_none]
  simp

theorem getRecord_some {j : Journal Value} {key : OperationKey} {now : ℕ} {r : OperationRecord Value}
    (h : getRecord j key now = some r) : r ∈ j ∧ r.key = key := by
  have hr := List.find?_some h
  simp only [decide_eq_true_eq] at hr
  exact ⟨List.mem_of_find?_eq_some h,hr.1⟩

theorem mem_enrolled {j : Journal Value} {key : OperationKey} {digest : String}
    {now retention : ℕ} {r : OperationRecord Value} :
    r ∈ enrolled j key digest now retention ↔
      (r ∈ j ∧ now < r.retainUntil) ∨ r = ⟨key,digest,now,satAdd now retention,none⟩ := by
  simp [enrolled]

theorem enrolled_nodup {j : Journal Value} {key : OperationKey} {digest : String}
    {now retention : ℕ} (hj : (j.map (·.key)).Nodup) (h : getRecord j key now = none) :
    ((enrolled j key digest now retention).map (·.key)).Nodup := by
  rw [enrolled,List.map_append,List.nodup_append]
  refine ⟨hj.sublist (List.filter_sublist.map _),by simp,?_⟩
  rintro a ha b hb rfl
  rw [List.map_singleton,List.mem_singleton] at hb
  obtain ⟨r,hr,hrk⟩ := List.mem_map.mp ha
  rw [List.mem_filter,decide_eq_true_eq] at hr
  have := getRecord_eq_none.mp h r hr.1 (hrk.trans hb)
  omega

theorem store_keys (key : OperationKey) (b : ReplyBody Value) (j : Journal Value) :
    (store key b j).map (·.key) = j.map (·.key) := by
  induction j with
  | nil => rfl
  | cons r rest ih =>
      rw [store]
      split_ifs with h
      · rfl
      · rw [List.map_cons,List.map_cons,ih]

/-- A written record is new in its result only; all others are kept. -/
theorem mem_store {key : OperationKey} {b : ReplyBody Value} {j : Journal Value}
    {r : OperationRecord Value} (hj : (j.map (·.key)).Nodup) (h : r ∈ store key b j) :
    (r ∈ j ∧ r.key ≠ key) ∨ ∃ r₀ ∈ j, r₀.key = key ∧ r = {r₀ with result := some b} := by
  induction j with
  | nil => cases h
  | cons r₁ rest ih =>
      rw [List.map_cons,List.nodup_cons] at hj
      rw [store] at h
      split_ifs at h with hk
      · rcases List.mem_cons.mp h with rfl | h
        · exact .inr ⟨r₁,List.mem_cons_self,hk,rfl⟩
        · refine .inl ⟨List.mem_cons_of_mem _ h,fun heq => hj.1 ?_⟩
          exact List.mem_map.mpr ⟨r,h,heq.trans hk.symm⟩
      · rcases List.mem_cons.mp h with rfl | h
        · exact .inl ⟨List.mem_cons_self,hk⟩
        · rcases ih hj.2 h with ⟨hr,hne⟩ | ⟨r₀,hr₀,hrest⟩
          · exact .inl ⟨List.mem_cons_of_mem _ hr,hne⟩
          · exact .inr ⟨r₀,List.mem_cons_of_mem _ hr₀,hrest⟩

theorem mem_store_of_mem {key : OperationKey} {b : ReplyBody Value} {j : Journal Value}
    {r : OperationRecord Value} (h : r ∈ j) :
    ∃ r' ∈ store key b j, r'.key = r.key ∧ r'.retainUntil = r.retainUntil := by
  induction j with
  | nil => cases h
  | cons r₁ rest ih =>
      rw [store]
      split_ifs with hk
      · rcases List.mem_cons.mp h with rfl | h
        · exact ⟨_,List.mem_cons_self,rfl,rfl⟩
        · exact ⟨r,List.mem_cons_of_mem _ h,rfl,rfl⟩
      · rcases List.mem_cons.mp h with rfl | h
        · exact ⟨r,List.mem_cons_self,rfl,rfl⟩
        · obtain ⟨r',hr',hrest⟩ := ih h
          exact ⟨r',List.mem_cons_of_mem _ hr',hrest⟩

theorem eq_of_key {j : Journal Value} (hj : (j.map (·.key)).Nodup) {a b : OperationRecord Value}
    (ha : a ∈ j) (hb : b ∈ j) (h : a.key = b.key) : a = b :=
  List.inj_on_of_nodup_map hj ha hb h

section Complete
variable [DecidableEq Value]

/-- The first record of the key is written if it has no result yet. -/
theorem complete_ok {encoded : Journal Value → Option ℕ} {limits : StoreLimits}
    {j j' : Journal Value} {key : OperationKey} {b : ReplyBody Value}
    (h : complete encoded limits j key b = .ok j') :
    j' = j ∨ ∃ r ∈ j, r.key = key ∧ r.result = none ∧ j' = store key b j := by
  simp only [complete,sequence_eq_ok,require_eq_ok,found_eq_ok] at h
  obtain ⟨-,-,r,hr,h⟩ := h
  have hkey := List.find?_some hr
  simp only [decide_eq_true_eq] at hkey
  cases hres : r.result with
  | some old =>
      rw [hres] at h
      dsimp only at h
      split_ifs at h with heq
      · left
        cases h
        rfl
  | none =>
      rw [hres] at h
      simp only [sequence_eq_ok,done_eq_ok] at h
      obtain ⟨-,-,h⟩ := h
      exact .inr ⟨r,List.mem_of_find?_eq_some hr,hkey,hres,h.symm⟩

end Complete

theorem admit_new {encoded : Journal Value → Option ℕ} {limits : StoreLimits}
    {j j' : Journal Value} {key : OperationKey} {digest : String} {deadline now : ℕ}
    (h : admitCall encoded limits j key digest deadline now = .ok (.new,j')) :
    getRecord j key now = none ∧ now < deadline ∧ deadline ≤ satAdd now 600 ∧
      600 ≤ limits.retentionSecs ∧ j' = enrolled j key digest now limits.retentionSecs := by
  unfold admitCall at h
  cases hg : getRecord j key now with
  | some r =>
      rw [hg] at h
      dsimp only at h
      split_ifs at h
      cases h
  | none =>
      rw [hg] at h
      simp only [sequence_eq_ok,require_eq_ok,done_eq_ok,Prod.mk.injEq] at h
      obtain ⟨-,⟨hnow,hwin⟩,-,hret,-,-,-,-,-,h⟩ := h
      exact ⟨rfl,hnow,hwin,hret,h.symm⟩

theorem admit_existing {encoded : Journal Value → Option ℕ} {limits : StoreLimits}
    {j j' : Journal Value} {key : OperationKey} {digest : String} {deadline now : ℕ}
    {r : OperationRecord Value}
    (h : admitCall encoded limits j key digest deadline now = .ok (.existing r,j')) : r ∈ j := by
  unfold admitCall at h
  cases hg : getRecord j key now with
  | some r₀ =>
      rw [hg] at h
      dsimp only at h
      split_ifs at h
      cases h
      exact (getRecord_some hg).1
  | none =>
      rw [hg] at h
      simp only [sequence_eq_ok,require_eq_ok,done_eq_ok,Prod.mk.injEq,reduceCtorEq,false_and,
        and_false,exists_const] at h

/-! ## Steps -/

/-- The submission goes to the store of the service its key names. -/
def Homed (e : Router Value) (p : Submission Value) : Prop :=
  ∃ registration, e.services p.key.service p.key.version = some registration ∧
    registration.store = p.store

/-- A waiting call holds the tasks and goes to its own store. -/
def Waiting (e : Router Value) (w : World Value) : Prop :=
  ∀ p ∈ w.pending, Homed e p ∧ w.tasks = true

/-- No admission of a key that is listed as active. -/
def Careful (w : World Value) : Event Value → Prop
  | .admitCall _ => ∀ p ∈ w.pending, p.key ∉ w.active
  | _ => True

/-- The world after an admission. -/
def admitted (e : Router Value) (p : Submission Value) (now : ℕ) (w : World Value) :
    World Value :=
  {w with
    clock := now
    pending := none
    journals := Function.update w.journals p.store
      (enrolled (w.journals p.store) p.key p.digest now (e.limits p.store).retentionSecs)
    active := insert p.key w.active
    workers := w.workers.insert w.fresh ⟨⟨p,now⟩,.running⟩
    fresh := w.fresh+1
    started := w.started++[⟨p,now⟩]}

section Steps
variable [DecidableEq Value] {e : Router Value} {guarded : Prop} {w w' : World Value}

/-- Everything a step can do. Admissions avoid active keys if `guarded` holds. -/
inductive Moves (e : Router Value) (guarded : Prop) (w : World Value) : World Value → Prop where
  | idle {clock : ℕ} {stopped tasks : Bool} {pending : Option (Submission Value)}
      {queries : List (Request Value)} (later : w.clock ≤ clock)
      (opened : tasks = true → w.tasks = true) (waiting : ∀ p ∈ pending, Homed e p ∧ tasks = true) :
      Moves e guarded w
        {w with
          clock := clock
          stopped := stopped
          tasks := tasks
          pending := pending
          queries := queries}
  | reports {c clock : ℕ} {record : OperationRecord Value} {request : Request Value}
      (later : w.clock ≤ clock) (mem : record ∈ w.journals c) :
      Moves e guarded w
        {w with
          clock := clock
          pending := none
          answers := w.answers++[⟨record.key,record.admittedAt,
            e.reply request (state (some record) (decide (record.key ∈ w.active)))⟩]}
  | admits {p : Submission Value} {now : ℕ} (later : w.clock ≤ now) (pending : w.pending = some p)
      (absent : getRecord (w.journals p.store) p.key now = none) (timely : now < p.deadline)
      (window : p.deadline ≤ satAdd now 600)
      (retention : 600 ≤ (e.limits p.store).retentionSecs)
      (unlisted : guarded → p.key ∉ w.active) :
      Moves e guarded w (admitted e p now w)
  | finishes {i : ℕ} {s : Started Value} (outcome : Outcome Value)
      (worker : w.workers.find? i = some ⟨s,.running⟩) :
      Moves e guarded w (finish e i s outcome w)
  | fails {i : ℕ} {s : Started Value} (worker : w.workers.find? i = some ⟨s,.running⟩) :
      Moves e guarded w {w with workers := w.workers.insert i ⟨s,.leaving⟩}
  | leaves {i : ℕ} {s : Started Value} (worker : w.workers.find? i = some ⟨s,.leaving⟩) :
      Moves e guarded w
        {w with active := w.active.erase s.key, workers := w.workers.insert i ⟨s,.left⟩}
  | drops (i : ℕ) : Moves e guarded w {w with workers := w.workers.erase i}
  | clears (closed : w.tasks = false) : Moves e guarded w {w with active := ∅}

omit [DecidableEq Value] in
theorem workerAt_eq_some {i : ℕ} {stage : Stage} {s : Started Value} :
    workerAt w i stage = some s ↔ w.workers.find? i = some ⟨s,stage⟩ := by
  unfold workerAt
  cases hk : w.workers.find? i with
  | none => simp
  | some k =>
      obtain ⟨s₀,stage₀⟩ := k
      simp only [Option.ite_none_right_eq_some,Option.some.injEq,Worker.mk.injEq]
      exact and_comm

variable {caller : String} {request : Request Value} {now : ℕ}
  {registration : Registration Value} {r : Option (ReplyBody Value)}

theorem respond_moves {body : ReplyBody Value} (hnow : w.clock ≤ now)
    (h : respond e request now body w = some (w',r)) : Moves e guarded w w' := by
  cases h
  exact .idle hnow id (by simp)

theorem report_moves {c : ℕ} {record : OperationRecord Value} (hnow : w.clock ≤ now)
    (hmem : record ∈ w.journals c) (h : report e request now record w = some (w',r)) :
    Moves e guarded w w' := by
  cases h
  exact .reports hnow hmem

theorem queryStatus_moves {kind : MethodKind} {operationId : OperationId} (hnow : w.clock ≤ now)
    (h : queryStatus e registration kind caller request operationId now w = some (w',r)) :
    Moves e guarded w w' := by
  unfold queryStatus at h
  split_ifs at h
  · exact respond_moves hnow h
  · cases hg : getRecord (w.journals registration.store) (.new caller request operationId) now with
    | none =>
        rw [hg] at h
        exact respond_moves hnow h
    | some record =>
        rw [hg] at h
        exact report_moves hnow (getRecord_some hg).1 h

theorem submit_moves {args : Value} {token : OperationToken}
    (hreg : e.services request.service request.version = some registration)
    (hnow : w.clock ≤ now)
    (h : submit e registration caller request args token now w = some (w',r)) :
    Moves e guarded w w' := by
  unfold submit at h
  by_cases htasks : w.tasks = false
  · rw [if_pos htasks] at h
    exact respond_moves hnow h
  · rw [if_neg htasks] at h
    cases hd : registration.digest request.method args with
    | error error =>
        rw [hd] at h
        exact respond_moves hnow h
    | ok digest =>
        rw [hd] at h
        dsimp only at h
        cases hg : getRecord (w.journals registration.store) (.new caller request token.id) now with
        | some record =>
            rw [hg] at h
            dsimp only at h
            split_ifs at h
            · exact respond_moves hnow h
            · exact report_moves hnow (getRecord_some hg).1 h
        | none =>
            rw [hg] at h
            dsimp only at h
            split_ifs at h
            · cases h
              refine .idle hnow id ?_
              rintro p hp
              cases hp
              exact ⟨⟨registration,hreg,rfl⟩,by simpa using htasks⟩
            · exact respond_moves hnow h

theorem invokeQuery_moves (hw : Waiting e w) (hnow : w.clock ≤ now)
    (h : invokeQuery e request now w = some (w',r)) : Moves e guarded w w' := by
  unfold invokeQuery at h
  split_ifs at h
  · cases h
    exact .idle hnow id hw
  · cases h
    exact .idle hnow id hw

theorem handleMethod_moves {kind : MethodKind} (hw : Waiting e w)
    (hreg : e.services request.service request.version = some registration)
    (hnow : w.clock ≤ now)
    (h : handleMethod e registration kind caller request now w = some (w',r)) :
    Moves e guarded w w' := by
  unfold handleMethod at h
  cases hinv : request.invocation with
  | status operationId =>
      rw [hinv] at h
      dsimp only at h
      split_ifs at h
      exact queryStatus_moves hnow h
  | call args operation =>
      rw [hinv] at h
      dsimp only at h
      by_cases hkind : decide (kind = .operation) ≠ operation.isSome
      · rw [if_pos hkind] at h
        cases h
        exact .idle hnow id hw
      · rw [if_neg hkind] at h
        cases hv : registration.validate request.method args with
        | error error =>
            rw [hv] at h
            cases h
            exact .idle hnow id hw
        | ok valid =>
            rw [hv] at h
            cases operation with
            | none => exact invokeQuery_moves hw hnow h
            | some token =>
                dsimp only at h
                split_ifs at h
                exact submit_moves hreg hnow h

omit [DecidableEq Value] in
theorem front_ok {seen : Bool} {kind : MethodKind}
    (h : e.front seen caller request = .ok (registration,kind)) :
    e.services request.service request.version = some registration := by
  simp only [Router.front,sequence_eq_ok,require_eq_ok,found_eq_ok,done_eq_ok,Prod.mk.injEq] at h
  obtain ⟨-,-,-,-,-,-,-,-,reg,hreg,-,-,-,-,rfl,-⟩ := h
  exact hreg

theorem admitPending_moves {p : Submission Value} (hp : w.pending = some p)
    (hc : guarded → p.key ∉ w.active) (hnow : w.clock ≤ now)
    (h : admitPending e now p w = some (w',r)) : Moves e guarded w w' := by
  unfold admitPending at h
  cases ha : admitCall e.journalLength (e.limits p.store) (w.journals p.store) p.key p.digest
    p.deadline now with
  | error error =>
      rw [ha] at h
      exact respond_moves hnow h
  | ok admission =>
      obtain ⟨admission,journal⟩ := admission
      rw [ha] at h
      cases admission with
      | existing record => exact report_moves hnow (admit_existing ha) h
      | new =>
          obtain ⟨hg,htime,hwin,hret,rfl⟩ := admit_new ha
          cases h
          exact .admits hnow hp hg htime hwin hret hc

theorem exec_moves {event : Event Value} (hw : Waiting e w) (hc : guarded → Careful w event)
    (h : exec e event w = some (w',r)) : Moves e guarded w w' := by
  cases event with
  | handle caller request seen now =>
      rw [exec] at h
      split_ifs at h with hguard
      have hnow : w.clock ≤ now := by
        by_contra hlt
        exact hguard (.inl (by omega))
      cases hf : e.front seen caller request with
      | error error =>
          rw [hf] at h
          cases h
          exact .idle hnow id hw
      | ok found =>
          rw [hf] at h
          exact handleMethod_moves hw (front_ok hf) hnow h
  | admitCall now =>
      rw [exec] at h
      cases hp : w.pending with
      | none =>
          rw [hp] at h
          cases h
      | some p =>
          rw [hp] at h
          dsimp only at h
          split_ifs at h with hnow
          exact admitPending_moves hp (fun hg => hc hg p hp) (by omega) h
  | cancel =>
      cases h
      exact .idle le_rfl id (by simp)
  | answerQuery i result =>
      rw [exec] at h
      split at h
      · cases h
      · cases h
        exact .idle le_rfl id hw
  | finish i outcome =>
      rw [exec] at h
      cases hs : workerAt w i .running with
      | none =>
          rw [hs] at h
          cases h
      | some s =>
          rw [hs] at h
          cases h
          exact .finishes outcome (workerAt_eq_some.mp hs)
  | fail i =>
      rw [exec] at h
      cases hs : workerAt w i .running with
      | none =>
          rw [hs] at h
          cases h
      | some s =>
          rw [hs] at h
          cases h
          exact .fails (workerAt_eq_some.mp hs)
  | leave i =>
      rw [exec] at h
      cases hs : workerAt w i .leaving with
      | none =>
          rw [hs] at h
          cases h
      | some s =>
          rw [hs] at h
          dsimp only at h
          split_ifs at h
          cases h
          exact .leaves (workerAt_eq_some.mp hs)
  | release i =>
      rw [exec] at h
      split at h
      · cases h
      · cases h
        exact .drops i
  | stop =>
      cases h
      exact .idle le_rfl id hw
  | takeTasks =>
      rw [exec] at h
      split_ifs at h with hguard
      cases h
      refine .idle le_rfl (by simp) ?_
      rintro p hp
      simp [Option.mem_def.mp hp] at hguard
  | clearActive =>
      rw [exec] at h
      split_ifs at h with hguard
      cases h
      exact .clears (by simpa using fun ht => hguard (.inr ht))
  | abort i =>
      rw [exec] at h
      split_ifs at h
      cases h
      exact .drops i

end Steps

/-! ## What the journal remembers -/

/-- Admissions and records, without regard to workers. An admission whose record
has gone is past its deadline. -/
structure Recorded (e : Router Value) (w : World Value) : Prop where
  waiting : Waiting e w
  homed : ∀ s ∈ w.started, Homed e s.toSubmission
  timely : ∀ s ∈ w.started, s.admittedAt < s.deadline
  ordered : w.started.Pairwise fun a b => a.key = b.key → a.deadline ≤ b.admittedAt
  covered : ∀ s ∈ w.started, s.deadline ≤ w.clock ∨
    ∃ r ∈ w.journals s.store, r.key = s.key ∧ s.deadline ≤ r.retainUntil
  distinct : ∀ c, ((w.journals c).map (·.key)).Nodup
  origin : ∀ c, ∀ r ∈ w.journals c, ∃ s ∈ w.started, s.store = c ∧ s.key = r.key ∧
    s.admittedAt = r.admittedAt

theorem start_recorded (e : Router Value) (clock : ℕ) : Recorded e (start clock) where
  waiting := by simp [Waiting,start]
  homed := by simp [start]
  timely := by simp [start]
  ordered := List.Pairwise.nil
  covered := by simp [start]
  distinct := fun _ => List.nodup_nil
  origin := by simp [start]

theorem pairwise_total {α : Type} {R : α → α → Prop} {l : List α} (h : l.Pairwise R) {a b : α}
    (ha : a ∈ l) (hb : b ∈ l) : a = b ∨ R a b ∨ R b a := by
  induction l with
  | nil => cases ha
  | cons c rest ih =>
      rw [List.pairwise_cons] at h
      rcases List.mem_cons.mp ha with rfl | ha' <;> rcases List.mem_cons.mp hb with rfl | hb'
      · exact .inl rfl
      · exact .inr (.inl (h.1 b hb'))
      · exact .inr (.inr (h.1 a ha'))
      · exact ih h.2 ha' hb'

namespace Recorded
variable {e : Router Value} {w w' : World Value}

/-- The key and the time of admission name an invocation. -/
theorem unique (h : Recorded e w) {s t : Started Value} (hs : s ∈ w.started) (ht : t ∈ w.started)
    (hkey : s.key = t.key) (htime : s.admittedAt = t.admittedAt) : s = t := by
  have hs' := h.timely s hs
  have ht' := h.timely t ht
  rcases pairwise_total h.ordered hs ht with heq | hst | hts
  · exact heq
  · have := hst hkey
    omega
  · have := hts hkey.symm
    omega

theorem same_store (h : Recorded e w) {s : Started Value} {p : Submission Value}
    (hs : s ∈ w.started) (hp : Homed e p) (hkey : s.key = p.key) : s.store = p.store := by
  obtain ⟨a,ha,has⟩ := h.homed s hs
  obtain ⟨b,hb,hbp⟩ := hp
  rw [hkey,hb] at ha
  cases ha
  exact has.symm.trans hbp

/-- When a key has no live record, its earlier admissions are past their deadlines. -/
theorem past (h : Recorded e w) {s : Started Value} {p : Submission Value} {now : ℕ}
    (hs : s ∈ w.started) (hp : Homed e p) (hkey : s.key = p.key) (hnow : w.clock ≤ now)
    (hget : getRecord (w.journals p.store) p.key now = none) : s.deadline ≤ now := by
  rcases h.covered s hs with hlate | ⟨r,hr,hrk,hret⟩
  · omega
  · rw [h.same_store hs hp hkey] at hr
    have := getRecord_eq_none.mp hget r hr (hrk.trans hkey)
    omega

theorem admitted (h : Recorded e w) {p : Submission Value} {now : ℕ} (hnow : w.clock ≤ now)
    (hp : w.pending = some p) (hget : getRecord (w.journals p.store) p.key now = none)
    (htime : now < p.deadline) (hwin : p.deadline ≤ satAdd now 600)
    (hret : 600 ≤ (e.limits p.store).retentionSecs) : Recorded e (admitted e p now w) := by
  have hhome := (h.waiting p hp).1
  refine ⟨by simp [Waiting,RpcInvocations.admitted],?_,?_,?_,?_,?_,?_⟩
  · intro s hs
    rcases List.mem_append.mp hs with hs | hs
    · exact h.homed s hs
    · rw [List.mem_singleton] at hs
      subst hs
      exact hhome
  · intro s hs
    rcases List.mem_append.mp hs with hs | hs
    · exact h.timely s hs
    · rw [List.mem_singleton] at hs
      subst hs
      exact htime
  · refine List.pairwise_append.mpr ⟨h.ordered,List.pairwise_singleton _ _,?_⟩
    intro s hs t ht hkey
    rw [List.mem_singleton] at ht
    subst ht
    exact h.past hs hhome hkey hnow hget
  · intro s hs
    rcases List.mem_append.mp hs with hs | hs
    · rcases h.covered s hs with hlate | ⟨r,hr,hrk,hrd⟩
      · exact .inl (hlate.trans hnow)
      · by_cases hlive : now < r.retainUntil
        · refine .inr ⟨r,?_,hrk,hrd⟩
          simp only [RpcInvocations.admitted,Function.update_apply]
          split_ifs with hc
          · rw [hc] at hr
            exact mem_enrolled.mpr (.inl ⟨hr,hlive⟩)
          · exact hr
        · exact .inl (hrd.trans (not_lt.mp hlive))
    · rw [List.mem_singleton] at hs
      subst hs
      refine .inr ⟨⟨p.key,p.digest,now,satAdd now (e.limits p.store).retentionSecs,none⟩,?_,rfl,?_⟩
      · simp only [RpcInvocations.admitted,Function.update_self]
        exact mem_enrolled.mpr (.inr rfl)
      · simp only [satAdd] at hwin ⊢
        omega
  · intro c
    simp only [RpcInvocations.admitted,Function.update_apply]
    split_ifs
    · exact enrolled_nodup (h.distinct _) hget
    · exact h.distinct c
  · intro c r hr
    simp only [RpcInvocations.admitted,Function.update_apply] at hr ⊢
    split_ifs at hr with hc
    · rcases mem_enrolled.mp hr with ⟨hr,-⟩ | rfl
      · obtain ⟨s,hs,hrest⟩ := h.origin _ r hr
        exact ⟨s,List.mem_append_left _ hs,hc ▸ hrest⟩
      · exact ⟨_,List.mem_append_right _ (List.mem_singleton_self _),hc.symm,rfl,rfl⟩
    · obtain ⟨s,hs,hrest⟩ := h.origin c r hr
      exact ⟨s,List.mem_append_left _ hs,hrest⟩

end Recorded

section Finish
variable [DecidableEq Value] {e : Router Value} {w : World Value}

/-- A completion leaves the journals alone, or writes the outcome into the
record of its key, which had no result. -/
theorem finish_journals (e : Router Value) (w : World Value) (i : ℕ) (s : Started Value)
    (outcome : Outcome Value) :
    (finish e i s outcome w).journals = w.journals ∨
    ∃ r ∈ w.journals s.store, r.key = s.key ∧ r.result = none ∧
      (finish e i s outcome w).journals = Function.update w.journals s.store
        (store s.key (e.verdict s.request outcome) (w.journals s.store)) := by
  unfold finish
  cases hc : complete e.journalLength (e.limits s.store) (w.journals s.store) s.key
    (e.verdict s.request outcome) with
  | error error => exact .inl rfl
  | ok journal =>
      rcases complete_ok hc with rfl | ⟨r,hr,hkey,hnone,rfl⟩
      · left
        exact Function.update_eq_self _ _
      · exact .inr ⟨r,hr,hkey,hnone,rfl⟩

/-- A record after a completion is a record from before it, unless it is the one
of the worker's key, which then holds the outcome and had no result. -/
theorem mem_finish (hd : ∀ c, ((w.journals c).map (·.key)).Nodup) {i : ℕ} {s : Started Value}
    {outcome : Outcome Value} {c : ℕ} {r : OperationRecord Value}
    (hr : r ∈ (finish e i s outcome w).journals c) :
    r ∈ w.journals c ∨ (c = s.store ∧ ∃ r₀ ∈ w.journals c, r₀.key = s.key ∧ r₀.result = none ∧
      r = {r₀ with result := some (e.verdict s.request outcome)}) := by
  rcases finish_journals e w i s outcome with hj | ⟨r₁,hr₁,hk₁,hn₁,hj⟩
  · rw [hj] at hr
    exact .inl hr
  · rw [hj,Function.update_apply] at hr
    split_ifs at hr with hc
    · subst hc
      rcases mem_store (hd _) hr with ⟨hr,-⟩ | ⟨r₀,hr₀,hk₀,rfl⟩
      · exact .inl hr
      · have heq := eq_of_key (hd _) hr₁ hr₀ (hk₁.trans hk₀.symm)
        subst heq
        exact .inr ⟨rfl,r₁,hr₀,hk₀,hn₁,rfl⟩
    · exact .inl hr

theorem Recorded.finished (h : Recorded e w) (i : ℕ) (s : Started Value)
    (outcome : Outcome Value) : Recorded e (finish e i s outcome w) := by
  refine ⟨h.waiting,h.homed,h.timely,h.ordered,?_,?_,?_⟩
  · intro t ht
    refine (h.covered t ht).imp_right ?_
    rintro ⟨r,hr,hrk,hrd⟩
    rcases finish_journals e w i s outcome with hj | ⟨-,-,-,-,hj⟩
    · exact ⟨r,by rwa [hj],hrk,hrd⟩
    · rw [hj,Function.update_apply]
      split_ifs with hc
      · rw [hc] at hr
        obtain ⟨r',hr',hkey,hret⟩ := mem_store_of_mem hr
        exact ⟨r',hr',hkey.trans hrk,hret ▸ hrd⟩
      · exact ⟨r,hr,hrk,hrd⟩
  · intro c
    rcases finish_journals e w i s outcome with hj | ⟨-,-,-,-,hj⟩
    · rw [hj]
      exact h.distinct c
    · rw [hj,Function.update_apply]
      split_ifs
      · rw [store_keys]
        exact h.distinct _
      · exact h.distinct c
  · intro c r hr
    rcases mem_finish h.distinct hr with hr | ⟨-,r₀,hr₀,-,-,rfl⟩
    · exact h.origin c r hr
    · exact h.origin c r₀ hr₀

theorem Recorded.step {guarded : Prop} {w' : World Value} (h : Recorded e w)
    (hm : Moves e guarded w w') : Recorded e w' := by
  cases hm with
  | idle later opened waiting =>
      exact ⟨waiting,h.homed,h.timely,h.ordered,
        fun s hs => (h.covered s hs).imp_left (le_trans · later),h.distinct,h.origin⟩
  | reports later mem =>
      exact ⟨by simp [Waiting],h.homed,h.timely,h.ordered,
        fun s hs => (h.covered s hs).imp_left (le_trans · later),h.distinct,h.origin⟩
  | admits later pending absent timely window retention unlisted =>
      exact h.admitted later pending absent timely window retention
  | finishes outcome worker => exact h.finished _ _ outcome
  | fails worker => exact ⟨h.waiting,h.homed,h.timely,h.ordered,h.covered,h.distinct,h.origin⟩
  | leaves worker => exact ⟨h.waiting,h.homed,h.timely,h.ordered,h.covered,h.distinct,h.origin⟩
  | drops i => exact ⟨h.waiting,h.homed,h.timely,h.ordered,h.covered,h.distinct,h.origin⟩
  | clears closed => exact ⟨h.waiting,h.homed,h.timely,h.ordered,h.covered,h.distinct,h.origin⟩

end Finish

/-! ## Stored results -/

/-- The record of this key and time, as long as there is one, has the result `b`. -/
structure Settled (w : World Value) (key : OperationKey) (time : ℕ) (b : ReplyBody Value) :
    Prop where
  invoked : ∃ s ∈ w.started, s.key = key ∧ s.admittedAt = time
  result : ∀ c, ∀ r ∈ w.journals c, r.key = key → r.admittedAt = time → r.result = some b

theorem Recorded.settled {e : Router Value} {w : World Value} (h : Recorded e w) {c : ℕ}
    {r : OperationRecord Value} {b : ReplyBody Value} (hr : r ∈ w.journals c)
    (hb : r.result = some b) : Settled w r.key r.admittedAt b := by
  obtain ⟨s,hs,hsc,hsk,hst⟩ := h.origin c r hr
  refine ⟨⟨s,hs,hsk,hst⟩,?_⟩
  intro c' r' hr' hkey htime
  obtain ⟨s',hs',hsc',hsk',hst'⟩ := h.origin c' r' hr'
  have hss : s = s' :=
    h.unique hs hs' (hsk.trans (hkey.symm.trans hsk'.symm)) (hst.trans (htime.symm.trans hst'.symm))
  subst hss
  rw [← hsc',hsc] at hr'
  rw [eq_of_key (h.distinct c) hr' hr hkey]
  exact hb

section Results
variable [DecidableEq Value] {e : Router Value} {guarded : Prop} {w w' : World Value}

theorem Settled.step {key : OperationKey} {time : ℕ} {b : ReplyBody Value}
    (hs : Settled w key time b) (h : Recorded e w) (hm : Moves e guarded w w') :
    Settled w' key time b := by
  obtain ⟨⟨s,hmem,hkey,htime⟩,hres⟩ := hs
  cases hm with
  | idle later opened waiting => exact ⟨⟨s,hmem,hkey,htime⟩,hres⟩
  | reports later mem => exact ⟨⟨s,hmem,hkey,htime⟩,hres⟩
  | admits later pending absent timely window retention unlisted =>
      refine ⟨⟨s,List.mem_append_left _ hmem,hkey,htime⟩,?_⟩
      intro c r hr hrk hrt
      simp only [admitted,Function.update_apply] at hr
      split_ifs at hr with hc
      · rcases mem_enrolled.mp hr with ⟨hr,-⟩ | rfl
        · exact hres _ r hr hrk hrt
        · -- an earlier admission of the key ended before this one
          have hpast := h.past hmem (h.waiting _ pending).1 (hkey.trans hrk.symm) later absent
          have htimely := h.timely s hmem
          dsimp only at hrt
          omega
      · exact hres c r hr hrk hrt
  | finishes outcome worker =>
      refine ⟨⟨s,hmem,hkey,htime⟩,?_⟩
      intro c r hr hrk hrt
      rcases mem_finish h.distinct hr with hr | ⟨-,r₀,hr₀,-,hnone,rfl⟩
      · exact hres c r hr hrk hrt
      · rw [hres c r₀ hr₀ hrk hrt] at hnone
        cases hnone
  | fails worker => exact ⟨⟨s,hmem,hkey,htime⟩,hres⟩
  | leaves worker => exact ⟨⟨s,hmem,hkey,htime⟩,hres⟩
  | drops i => exact ⟨⟨s,hmem,hkey,htime⟩,hres⟩
  | clears closed => exact ⟨⟨s,hmem,hkey,htime⟩,hres⟩

omit [DecidableEq Value] in
/-- A reply that is done was stored as such in the record it was read from. -/
theorem stored_of_done {r : OperationRecord Value} {request : Request Value} {active : Bool}
    {o : Outcome Value} (h : e.reply request (state (some r) active) = .done o) :
    r.result = some (.done o) := by
  unfold Router.reply at h
  split_ifs at h
  cases hr : r.result with
  | some b =>
      rw [state,hr] at h
      exact congrArg some h
  | none =>
      rw [state,hr] at h
      cases active <;> cases h

omit [DecidableEq Value] in
theorem outcome_of_verdict {request : Request Value} {o o' : Outcome Value}
    (h : e.verdict request o = .done o') : o = o' := by
  unfold Router.verdict at h
  split_ifs at h
  cases h
  rfl

end Results

/-! ## Workers -/

/-- Workers, active keys and outcomes. The record of a running worker's key is
the worker's own. -/
structure Attended (e : Router Value) (w : World Value) : Prop where
  enlisted : ∀ i k, w.workers.find? i = some k → k.started ∈ w.started ∧ i < w.fresh
  listed : w.tasks = true → ∀ i k, w.workers.find? i = some k → k.stage ≠ .left →
    k.started.key ∈ w.active
  alone : ∀ i j a b, w.workers.find? i = some a → w.workers.find? j = some b →
    a.stage ≠ .left → b.stage ≠ .left → a.started.key = b.started.key → i = j
  current : ∀ i k, w.workers.find? i = some k → k.stage = .running →
    ∀ r ∈ w.journals k.started.store, r.key = k.started.key →
      r.admittedAt = k.started.admittedAt
  undecided : ∀ i k, w.workers.find? i = some k → k.stage = .running →
    ∀ x ∈ w.outcomes, x.1 ≠ k.started
  invoked : ∀ x ∈ w.outcomes, x.1 ∈ w.started
  single : w.outcomes.Pairwise fun x y => x.1 ≠ y.1
  result : ∀ c, ∀ r ∈ w.journals c, ∀ b, r.result = some b → ∃ x ∈ w.outcomes,
    x.1.key = r.key ∧ x.1.admittedAt = r.admittedAt ∧ b = e.verdict x.1.request x.2
  answered : ∀ a ∈ w.answers, ∀ o, a.body = .done o →
    Settled w a.key a.admittedAt (.done o) ∧
    ∃ x ∈ w.outcomes, x.1.key = a.key ∧ x.1.admittedAt = a.admittedAt ∧ x.2 = o

theorem start_attended (e : Router Value) (clock : ℕ) : Attended e (start clock) := by
  constructor <;> simp [start]

section Workers
variable {e : Router Value} {w w' : World Value}

/-- Some workers have gone or moved on; nothing else the invariant speaks of has changed,
except that the active set may have lost a key no present worker has. -/
theorem Attended.retire (h : Attended e w) (workers : SortedMap ℕ (Worker Value))
    (active : Finset OperationKey)
    (hback : ∀ i k, workers.find? i = some k → ∃ k₀, w.workers.find? i = some k₀ ∧
      k₀.started = k.started ∧ (k.stage ≠ .left → k₀.stage ≠ .left) ∧
      (k.stage = .running → k₀.stage = .running))
    (hactive : w.tasks = true → ∀ i k, workers.find? i = some k → k.stage ≠ .left →
      k.started.key ∈ w.active → k.started.key ∈ active) :
    Attended e {w with workers := workers, active := active} := by
  refine ⟨?_,?_,?_,?_,?_,h.invoked,h.single,h.result,fun a ha o ho => ?_⟩
  · intro i k hk
    obtain ⟨k₀,hk₀,heq,-,-⟩ := hback i k hk
    exact heq ▸ h.enlisted i k₀ hk₀
  · intro htasks i k hk hstage
    obtain ⟨k₀,hk₀,heq,hleft,-⟩ := hback i k hk
    exact hactive htasks i k hk hstage (heq ▸ h.listed htasks i k₀ hk₀ (hleft hstage))
  · intro i j a b ha hb hsa hsb hkey
    obtain ⟨a₀,ha₀,haeq,haleft,-⟩ := hback i a ha
    obtain ⟨b₀,hb₀,hbeq,hbleft,-⟩ := hback j b hb
    exact h.alone i j a₀ b₀ ha₀ hb₀ (haleft hsa) (hbleft hsb) (by rw [haeq,hbeq,hkey])
  · intro i k hk hstage
    obtain ⟨k₀,hk₀,heq,-,hrun⟩ := hback i k hk
    exact heq ▸ h.current i k₀ hk₀ (hrun hstage)
  · intro i k hk hstage
    obtain ⟨k₀,hk₀,heq,-,hrun⟩ := hback i k hk
    exact heq ▸ h.undecided i k₀ hk₀ (hrun hstage)
  · obtain ⟨hset,hx⟩ := h.answered a ha o ho
    exact ⟨⟨hset.invoked,hset.result⟩,hx⟩

/-- After a worker moves on from stage `old`, the workers are those from before. -/
theorem insert_back {i : ℕ} {s : Started Value} {old stage : Stage}
    (hi : w.workers.find? i = some ⟨s,old⟩) (hleft : stage ≠ .left → old ≠ .left)
    (hrun : stage ≠ .running) (j : ℕ) (k : Worker Value)
    (hj : (w.workers.insert i ⟨s,stage⟩).find? j = some k) :
    ∃ k₀, w.workers.find? j = some k₀ ∧ k₀.started = k.started ∧
      (k.stage ≠ .left → k₀.stage ≠ .left) ∧ (k.stage = .running → k₀.stage = .running) := by
  rw [SortedMap.find?_insert] at hj
  split_ifs at hj with hji
  · cases hj
    exact ⟨⟨s,old⟩,hji ▸ hi,rfl,hleft,fun h => absurd h hrun⟩
  · exact ⟨k,hj,rfl,id,id⟩

theorem Attended.left (h : Attended e w) {i : ℕ} {s : Started Value}
    (hi : w.workers.find? i = some ⟨s,.leaving⟩) :
    Attended e {w with active := w.active.erase s.key, workers := w.workers.insert i ⟨s,.left⟩} := by
  refine h.retire _ _ (insert_back hi (by simp) (by simp)) ?_
  intro htasks j k hk hstage hmem
  refine Finset.mem_erase.mpr ⟨fun hkey => ?_,hmem⟩
  rw [SortedMap.find?_insert] at hk
  split_ifs at hk with hji
  · cases hk
    exact hstage rfl
  · exact hji (h.alone j i k _ hk hi hstage (by simp) hkey)

theorem Attended.dropped (h : Attended e w) (i : ℕ) :
    Attended e {w with workers := w.workers.erase i} := by
  refine h.retire _ _ ?_ (fun _ _ _ _ _ hmem => hmem)
  intro j k hk
  exact ⟨k,SortedMap.find?_of_erase hk,rfl,id,id⟩

/-- A reply from a record is the outcome of the invocation the record belongs to. -/
theorem Attended.reported (h : Attended e w) (hr : Recorded e w) {c clock : ℕ}
    {record : OperationRecord Value} {request : Request Value}
    (hmem : record ∈ w.journals c) :
    Attended e {w with
      clock := clock
      pending := none
      answers := w.answers++[⟨record.key,record.admittedAt,
        e.reply request (state (some record) (decide (record.key ∈ w.active)))⟩]} := by
  refine ⟨h.enlisted,h.listed,h.alone,h.current,h.undecided,h.invoked,h.single,h.result,?_⟩
  intro a ha o ho
  rcases List.mem_append.mp ha with ha | ha
  · obtain ⟨hset,hx⟩ := h.answered a ha o ho
    exact ⟨⟨hset.invoked,hset.result⟩,hx⟩
  · rw [List.mem_singleton] at ha
    subst ha
    have hdone := stored_of_done ho
    obtain ⟨x,hx,hkey,htime,hverdict⟩ := h.result c record hmem _ hdone
    have hset := hr.settled hmem hdone
    exact ⟨⟨hset.invoked,hset.result⟩,x,hx,hkey,htime,outcome_of_verdict hverdict.symm⟩

theorem Attended.admitted (h : Attended e w) (hr : Recorded e w) {p : Submission Value} {now : ℕ}
    (hnow : w.clock ≤ now) (hp : w.pending = some p)
    (hget : getRecord (w.journals p.store) p.key now = none)
    (hset : ∀ key time b, Settled w key time b → Settled (admitted e p now w) key time b)
    (hfree : p.key ∉ w.active) : Attended e (admitted e p now w) := by
  obtain ⟨hhome,htasks⟩ := hr.waiting p hp
  -- the key is new among the workers that are still present
  have hother : ∀ i k, w.workers.find? i = some k → k.stage ≠ .left → k.started.key ≠ p.key :=
    fun i k hk hstage hkey => hfree (hkey ▸ h.listed htasks i k hk hstage)
  have hlater : ∀ s ∈ w.started, s ≠ ⟨p,now⟩ := by
    rintro s hs rfl
    have hpast := hr.past hs hhome rfl hnow hget
    have := hr.timely _ hs
    dsimp only at this hpast
    omega
  refine ⟨?_,?_,?_,?_,?_,?_,h.single,?_,?_⟩
  · intro i k hk
    simp only [RpcInvocations.admitted,SortedMap.find?_insert] at hk
    split_ifs at hk with hi
    · cases hk
      exact ⟨List.mem_append_right _ (List.mem_singleton_self _),by
        rw [hi]
        exact Nat.lt_succ_self _⟩
    · obtain ⟨hs,hlt⟩ := h.enlisted i k hk
      exact ⟨List.mem_append_left _ hs,Nat.lt_succ_of_lt hlt⟩
  · intro _ i k hk hstage
    simp only [RpcInvocations.admitted,SortedMap.find?_insert] at hk ⊢
    split_ifs at hk with hi
    · cases hk
      exact Finset.mem_insert_self _ _
    · exact Finset.mem_insert_of_mem (h.listed htasks i k hk hstage)
  · intro i j a b ha hb hsa hsb hkey
    simp only [RpcInvocations.admitted,SortedMap.find?_insert] at ha hb
    split_ifs at ha hb with hi hj hj
    · exact hi.trans hj.symm
    · cases ha
      exact absurd hkey.symm (hother j b hb hsb)
    · cases hb
      exact absurd hkey (hother i a ha hsa)
    · exact h.alone i j a b ha hb hsa hsb hkey
  · intro i k hk hstage r hrec hkey
    simp only [RpcInvocations.admitted,SortedMap.find?_insert,Function.update_apply] at hk hrec
    split_ifs at hk with hi
    · cases hk
      rw [if_pos rfl] at hrec
      rcases mem_enrolled.mp hrec with ⟨hrec,hlive⟩ | rfl
      · have := getRecord_eq_none.mp hget r hrec hkey
        omega
      · rfl
    · split_ifs at hrec with hc
      · rcases mem_enrolled.mp hrec with ⟨hrec,-⟩ | rfl
        · rw [← hc] at hrec
          exact h.current i k hk hstage r hrec hkey
        · exact absurd hkey.symm (hother i k hk (by simp [hstage]))
      · exact h.current i k hk hstage r hrec hkey
  · intro i k hk hstage x hx
    simp only [RpcInvocations.admitted,SortedMap.find?_insert] at hk
    split_ifs at hk with hi
    · cases hk
      exact hlater _ (h.invoked x hx)
    · exact h.undecided i k hk hstage x hx
  · exact fun x hx => List.mem_append_left _ (h.invoked x hx)
  · intro c r hrec b hb
    simp only [RpcInvocations.admitted,Function.update_apply] at hrec
    split_ifs at hrec with hc
    · rcases mem_enrolled.mp hrec with ⟨hrec,-⟩ | rfl
      · exact h.result _ r hrec b hb
      · cases hb
    · exact h.result c r hrec b hb
  · intro a ha o ho
    obtain ⟨hs,hx⟩ := h.answered a ha o ho
    exact ⟨hset _ _ _ hs,hx⟩

variable [DecidableEq Value]

/-- A running worker completes the record of its own admission. -/
theorem Attended.finished (h : Attended e w) (hr : Recorded e w) {i : ℕ} {s : Started Value}
    (outcome : Outcome Value) (hi : w.workers.find? i = some ⟨s,.running⟩)
    (hset : ∀ key time b, Settled w key time b →
      Settled (finish e i s outcome w) key time b) :
    Attended e (finish e i s outcome w) := by
  have hback := @insert_back _ w i s .running .leaving hi (by simp) (by simp)
  refine ⟨?_,?_,?_,?_,?_,?_,?_,?_,?_⟩
  · intro j k hk
    obtain ⟨k₀,hk₀,heq,-,-⟩ := hback j k hk
    exact heq ▸ h.enlisted j k₀ hk₀
  · intro htasks j k hk hstage
    obtain ⟨k₀,hk₀,heq,hleft,-⟩ := hback j k hk
    exact heq ▸ h.listed htasks j k₀ hk₀ (hleft hstage)
  · intro j l a b ha hb hsa hsb hkey
    obtain ⟨a₀,ha₀,haeq,haleft,-⟩ := hback j a ha
    obtain ⟨b₀,hb₀,hbeq,hbleft,-⟩ := hback l b hb
    exact h.alone j l a₀ b₀ ha₀ hb₀ (haleft hsa) (hbleft hsb) (by rw [haeq,hbeq,hkey])
  · intro j k hk hstage r hrec hkey
    obtain ⟨k₀,hk₀,heq,-,hrun⟩ := hback j k hk
    rw [← heq] at hrec hkey ⊢
    rcases mem_finish hr.distinct hrec with hrec | ⟨-,r₀,hr₀,-,-,rfl⟩
    · exact h.current j k₀ hk₀ (hrun hstage) r hrec hkey
    · exact h.current j k₀ hk₀ (hrun hstage) r₀ hr₀ hkey
  · intro j k hk hstage x hx
    simp only [finish,SortedMap.find?_insert] at hk
    split_ifs at hk with hji
    · cases hk
      cases hstage
    · rcases List.mem_append.mp hx with hx | hx
      · exact h.undecided j k hk hstage x hx
      · rw [List.mem_singleton] at hx
        subst hx
        intro heq
        have hkey : s.key = k.started.key := congrArg (·.key) heq
        exact hji (h.alone j i k _ hk hi (by simp [hstage]) (by simp) hkey.symm)
  · intro x hx
    rcases List.mem_append.mp hx with hx | hx
    · exact h.invoked x hx
    · rw [List.mem_singleton] at hx
      subst hx
      exact (h.enlisted i _ hi).1
  · refine List.pairwise_append.mpr ⟨h.single,List.pairwise_singleton _ _,?_⟩
    intro x hx y hy
    rw [List.mem_singleton] at hy
    subst hy
    exact h.undecided i _ hi rfl x hx
  · intro c r hrec b hb
    rcases mem_finish hr.distinct hrec with hrec | ⟨rfl,r₀,hr₀,hkey,-,rfl⟩
    · obtain ⟨x,hx,hrest⟩ := h.result c r hrec b hb
      exact ⟨x,List.mem_append_left _ hx,hrest⟩
    · refine ⟨(s,outcome),List.mem_append_right _ (List.mem_singleton_self _),hkey.symm,?_,?_⟩
      · exact (h.current i _ hi rfl r₀ hr₀ hkey).symm
      · exact (Option.some.inj hb).symm
  · intro a ha o ho
    obtain ⟨hs,x,hx,hrest⟩ := h.answered a ha o ho
    exact ⟨hset _ _ _ hs,x,List.mem_append_left _ hx,hrest⟩

theorem Attended.step (h : Attended e w) (hr : Recorded e w) (hm : Moves e True w w') :
    Attended e w' := by
  have hset : ∀ key time b, Settled w key time b → Settled w' key time b :=
    fun _ _ _ hs => hs.step hr hm
  cases hm with
  | idle later opened waiting =>
      refine ⟨h.enlisted,fun ht => h.listed (opened ht),h.alone,h.current,h.undecided,h.invoked,
        h.single,h.result,fun a ha o ho => ?_⟩
      obtain ⟨hs,hx⟩ := h.answered a ha o ho
      exact ⟨hset _ _ _ hs,hx⟩
  | reports later mem => exact h.reported hr mem
  | admits later pending absent timely window retention unlisted =>
      exact h.admitted hr later pending absent hset (unlisted trivial)
  | finishes outcome worker => exact h.finished hr outcome worker hset
  | fails worker =>
      exact h.retire _ _ (insert_back worker (by simp) (by simp)) (fun _ _ _ _ _ hmem => hmem)
  | leaves worker => exact h.left worker
  | drops i => exact h.dropped i
  | clears closed =>
      refine h.retire _ _ (fun i k hk => ⟨k,hk,rfl,id,id⟩) (fun ht => ?_)
      rw [closed] at ht
      cases ht

end Workers

/-! ## Runs -/

section Runs
variable [DecidableEq Value]

/-- A step of the router, with every key idle that is admitted if `guarded` holds. -/
def Next (e : Router Value) (guarded : Prop) (w w' : World Value) : Prop :=
  ∃ event r, (guarded → Careful w event) ∧ exec e event w = some (w',r)

/-- The worlds a router reaches with every admitted key idle. -/
def Reaches (e : Router Value) : World Value → World Value → Prop :=
  Relation.ReflTransGen (Next e True)

/-- What holds in every world that is reached. -/
structure Upheld (e : Router Value) (w : World Value) : Prop where
  /-- A key is invoked once with a given deadline, whatever the arguments. -/
  once : w.started.Pairwise fun a b => ¬(a.key = b.key ∧ a.deadline = b.deadline)
  /-- One invocation of a key is in progress at a time. -/
  alone : ∀ i j a b, w.workers.find? i = some a → w.workers.find? j = some b →
    a.stage = .running → b.stage = .running → a.started.key = b.started.key → i = j
  /-- A call that differs from the live record of its key changes nothing. -/
  conflict : ∀ (caller : String) (request : Request Value) (seen : Bool) (now : ℕ)
    (registration : Registration Value) (args valid : Value) (token : OperationToken)
    (digest : String) (record : OperationRecord Value),
    request.invocation = .call args (some token) →
    e.front seen caller request = .ok (registration,.operation) →
    registration.validate request.method args = .ok valid →
    registration.digest request.method valid = .ok digest →
    getRecord (w.journals registration.store) (.new caller request token.id) now = some record →
    record.digest ≠ digest → w.clock ≤ now → (seen = true → w.stopped = true) →
    w.tasks = true → w.pending = none →
    exec e (.handle caller request seen now) w =
      some ({w with clock := now},some (e.reply request (.failed conflicting)))
  /-- Nor does a waiting call that finds such a record when it reaches the store. -/
  lateConflict : ∀ (p : Submission Value) (now : ℕ) (record : OperationRecord Value),
    w.pending = some p → getRecord (w.journals p.store) p.key now = some record →
    record.digest ≠ p.digest → w.clock ≤ now →
    exec e (.admitCall now) w =
      some ({w with clock := now, pending := none},some (e.reply p.request (.failed conflicting)))
  /-- A record belongs to one invocation. -/
  origin : ∀ c, ∀ r ∈ w.journals c, ∃! s, s ∈ w.started ∧ s.key = r.key ∧
    s.admittedAt = r.admittedAt
  /-- An invocation has at most one outcome. -/
  single : w.outcomes.Pairwise fun x y => x.1 ≠ y.1
  /-- A stored result is the outcome of the invocation of its record. -/
  result : ∀ c, ∀ r ∈ w.journals c, ∀ b, r.result = some b → ∃ x ∈ w.outcomes,
    x.1 ∈ w.started ∧ x.1.key = r.key ∧ x.1.admittedAt = r.admittedAt ∧
    b = e.verdict x.1.request x.2
  /-- So is every outcome that was returned from a record, and the record still has it. -/
  answered : ∀ a ∈ w.answers, ∀ o, a.body = .done o →
    (∃ x ∈ w.outcomes, x.1.key = a.key ∧ x.1.admittedAt = a.admittedAt ∧ x.2 = o) ∧
    ∀ c, ∀ r ∈ w.journals c, r.key = a.key → r.admittedAt = a.admittedAt →
      r.result = some (.done o)

/-- The results stored in `w` are those of the same records in `w'`. -/
def Lasting (w w' : World Value) : Prop :=
  ∀ c, ∀ r ∈ w.journals c, ∀ b, r.result = some b →
    ∀ c', ∀ r' ∈ w'.journals c', r'.key = r.key → r'.admittedAt = r.admittedAt →
      r'.result = some b

variable {e : Router Value} {w w' : World Value}

theorem conflict_unchanged {caller : String} {request : Request Value} {seen : Bool} {now : ℕ}
    {registration : Registration Value} {args valid : Value} {token : OperationToken}
    {digest : String} {record : OperationRecord Value}
    (hinv : request.invocation = .call args (some token))
    (hfront : e.front seen caller request = .ok (registration,.operation))
    (hvalid : registration.validate request.method args = .ok valid)
    (hdigest : registration.digest request.method valid = .ok digest)
    (hget : getRecord (w.journals registration.store) (.new caller request token.id) now =
      some record) (hne : record.digest ≠ digest) (hnow : w.clock ≤ now)
    (hseen : seen = true → w.stopped = true) (htasks : w.tasks = true)
    (hpending : w.pending = none) :
    exec e (.handle caller request seen now) w =
      some ({w with clock := now},some (e.reply request (.failed conflicting))) := by
  have hguard : ¬(now < w.clock ∨ (seen = true ∧ w.stopped = false)) := by
    rintro (hlt | ⟨hs,hw⟩)
    · omega
    · rw [hseen hs] at hw
      cases hw
  rw [exec,if_neg hguard,hfront]
  simp only [handleMethod,hinv,hvalid,hpending,submit,htasks,hdigest,hget]
  simp only [decide_true,Option.isSome_some,ne_eq,not_true_eq_false,if_false,Option.isSome_none,
    Bool.false_eq_true,Bool.true_eq_false,hne,not_false_eq_true,if_true,respond]
  rw [← hpending,htasks]

theorem lateConflict_unchanged {p : Submission Value} {now : ℕ} {record : OperationRecord Value}
    (hp : w.pending = some p) (hget : getRecord (w.journals p.store) p.key now = some record)
    (hne : record.digest ≠ p.digest) (hnow : w.clock ≤ now) :
    exec e (.admitCall now) w =
      some ({w with clock := now, pending := none},
        some (e.reply p.request (.failed conflicting))) := by
  rw [exec,hp]
  dsimp only
  rw [if_neg (by omega),admitPending,admitCall,hget]
  dsimp only
  rw [if_neg hne]
  rfl

theorem reaches_invariant {clock : ℕ} (h : Reaches e (start clock) w) :
    Recorded e w ∧ Attended e w := by
  induction h with
  | refl => exact ⟨start_recorded e clock,start_attended e clock⟩
  | tail hrun hnext ih =>
      obtain ⟨hr,ha⟩ := ih
      obtain ⟨event,r,hc,hexec⟩ := hnext
      have hm := exec_moves hr.waiting hc hexec
      exact ⟨hr.step hm,ha.step hr hm⟩

theorem upheld_of_invariant (hr : Recorded e w) (ha : Attended e w) : Upheld e w where
  once := by
    refine hr.ordered.imp_of_mem ?_
    rintro a b - hb hab ⟨hkey,hdeadline⟩
    have := hab hkey
    have := hr.timely b hb
    omega
  alone i j a b hfa hfb hra hrb hkey :=
    ha.alone i j a b hfa hfb (by simp [hra]) (by simp [hrb]) hkey
  conflict _ _ _ _ _ _ _ _ _ _ := conflict_unchanged
  lateConflict _ _ _ := lateConflict_unchanged
  origin c r hmem := by
    obtain ⟨s,hs,-,hkey,htime⟩ := hr.origin c r hmem
    refine ⟨s,⟨hs,hkey,htime⟩,?_⟩
    rintro t ⟨ht,htk,htt⟩
    exact hr.unique ht hs (htk.trans hkey.symm) (htt.trans htime.symm)
  single := ha.single
  result c r hmem b hb := by
    obtain ⟨x,hx,hrest⟩ := ha.result c r hmem b hb
    exact ⟨x,hx,ha.invoked x hx,hrest⟩
  answered a hmem o ho := by
    obtain ⟨hset,hx⟩ := ha.answered a hmem o ho
    exact ⟨hx,hset.result⟩

theorem settled_reaches (hr : Recorded e w) (h : Reaches e w w') {key : OperationKey} {time : ℕ}
    {b : ReplyBody Value} (hs : Settled w key time b) :
    Recorded e w' ∧ Settled w' key time b := by
  induction h with
  | refl => exact ⟨hr,hs⟩
  | tail hrun hnext ih =>
      obtain ⟨hr',hs'⟩ := ih
      obtain ⟨event,r,hc,hexec⟩ := hnext
      have hm := exec_moves hr'.waiting hc hexec
      exact ⟨hr'.step hm,hs'.step hr' hm⟩

/-- When no key is admitted while it is active, operations run at most once and
every result belongs to its own invocation. -/
theorem operations_run_once {clock : ℕ} (h : Reaches e (start clock) w) (h' : Reaches e w w') :
    Upheld e w ∧ Lasting w w' := by
  obtain ⟨hr,ha⟩ := reaches_invariant h
  refine ⟨upheld_of_invariant hr ha,?_⟩
  intro c r hmem b hb c' r' hmem' hkey htime
  exact (settled_reaches hr h' (hr.settled hmem hb)).2.result c' r' hmem' hkey htime

end Runs

/-! ## A worker that outlives its record -/

def sampleId : OperationId := ⟨"operation-000001",by decide⟩

def sampleRegistration : Registration ℕ where
  methods := [("write",.operation)]
  validate := fun _ args => .ok args
  digest := fun _ args => .ok (if args = 0 then "0" else "1")
  allowed := fun _ _ _ _ => true
  store := 0

def sampleRouter : Router ℕ where
  instanceId := "node"
  services := fun _ _ => some sampleRegistration
  workers := 8
  frameLimit := 1024
  limits := fun _ => ⟨600,4,1024⟩
  requestLength := fun _ => some 0
  replyLength := fun _ _ => some 0
  journalLength := fun _ => some 0

def sampleRequest (invocation : Invocation ℕ) : Request ℕ :=
  ⟨1,sampleId,"node","service",1,"write",invocation⟩

def sampleCall (args deadline now : ℕ) : Event ℕ :=
  .handle "client" (sampleRequest (.call args (some ⟨sampleId,deadline⟩))) false now

def sampleStatus (now : ℕ) : Event ℕ := .handle "client" (sampleRequest (.status sampleId)) false now

/-- The first invocation still runs when its record expires and the key is used
for other arguments. Both are then in progress, and the outcome of the first is
stored in the record of the second and returned for it. -/
theorem expired_key_runs_twice :
    (after sampleRouter [sampleCall 0 600 0,.admitCall 0,sampleCall 1 1200 600,.admitCall 600]
      (start 0)).map (fun w => (w.workers.find? 0).bind fun a => (w.workers.find? 1).map fun b =>
        (a.stage,b.stage,decide (a.started.key = b.started.key),a.started.args,b.started.args)) =
      some (some (.running,.running,true,0,1)) ∧
    (after sampleRouter [sampleCall 0 600 0,.admitCall 0,sampleCall 1 1200 600,.admitCall 600,
      .finish 0 (.ok 7),sampleStatus 601] (start 0)).map (fun w =>
        ((w.journals 0).map (fun r => (r.digest,r.admittedAt,r.result)),
          w.outcomes.map (fun x => (x.1.args,x.1.admittedAt,x.2)),
          w.answers.map (fun a => (a.admittedAt,a.body)))) =
      some ([("1",600,some (.done (.ok 7)))],[(0,0,.ok 7)],[(600,.done (.ok 7))]) :=
  ⟨rfl,rfl⟩

/-- A call that is admitted, completed and asked for again. -/
theorem operations_run_once_sample :
    ∃ w w' : World ℕ,
      (w.journals 0).map (fun r => r.result) = [some (.done (.ok 7))] ∧
      w'.answers.map (fun a => a.body) = [.done (.ok 7)] ∧
      Upheld sampleRouter w ∧ Lasting w w' := by
  have h₁ : Reaches sampleRouter (start 0) _ :=
    ((Relation.ReflTransGen.refl.tail ⟨sampleCall 0 600 0,_,fun _ => trivial,rfl⟩).tail
      ⟨.admitCall 0,_,fun _ p _ => Finset.notMem_empty _,rfl⟩).tail
      ⟨.finish 0 (.ok 7),_,fun _ => trivial,rfl⟩
  have h₂ := operations_run_once h₁
    (Relation.ReflTransGen.refl.tail ⟨sampleStatus 1,_,fun _ => trivial,rfl⟩)
  exact ⟨_,_,rfl,rfl,h₂⟩

end Gcoms.RpcInvocations
