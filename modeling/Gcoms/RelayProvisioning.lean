import Gcoms.ByteStrings
import Gcoms.SortedMaps

/-!
# Idempotent relay provisioning

A provisioning request looks its key up in a cache of replies, obtains a reply
from a relay if there is none, and stores it. Requests run concurrently, so that
others come between the lookup and the store. A store overwrites a cached reply
that expires no later than the new one. As long as it overwrites expired replies
only, the cache is a queue of replies by age and equal requests get equal replies.
-/
namespace Gcoms.RelayProvisioning
open ByteCodec SortedMaps

/-! ## The service -/

def maxIdempotency : ℕ := 10000

def maxRateKeys : ℕ := 20000

/-- A string is its UTF-8 bytes. -/
abbrev Text := Bytes

inductive Version where
  | one
  | two
  | three
  deriving DecidableEq

def Version.digit : Version → Byte
  | .one => 49
  | .two => 50
  | .three => 51

/-- The version of a request, from the versions it supports if it names any. -/
def selectVersion : Option (List ℕ) → Option Version
  | none => some .one
  | some versions =>
      if 8 < versions.length then none
      else if 3 ∈ versions then some .three
      else if 2 ∈ versions then some .two
      else if 1 ∈ versions then some .one
      else none

/-- The key of a request: its authorized grant, its version and its identifier. -/
def requestKey (grant : Text) (version : Version) (request : Text) : Text :=
  grant++[58]++[version.digit]++[58]++request

structure Window where
  minute : ℕ
  count : ℕ
  deriving DecidableEq

section Rates
variable {K : Type} [LinearOrder K]

def takeRate (rates : SortedMap K Window) (key : K) (minute limit : ℕ) :
    Bool × SortedMap K Window :=
  let full := maxRateKeys ≤ rates.size ∧ rates.contains key = false
  let rates := if full then rates.retain (fun _ window => window.minute = minute) else rates
  if full ∧ maxRateKeys ≤ rates.size then (false,rates)
  else
    let window := (rates.find? key).getD ⟨minute,0⟩
    let window := if window.minute ≠ minute then ⟨minute,0⟩ else window
    if limit ≤ window.count then (false,rates.insert key window)
    else (true,rates.insert key {window with count := window.count+1})

def takeSingleRate (window : Option Window) (minute limit : ℕ) : Bool × Option Window :=
  let current := (window.filter fun known => known.minute = minute).getD ⟨minute,0⟩
  if limit ≤ current.count then (false,window)
  else (true,some ⟨minute,current.count+1⟩)

end Rates

structure RelayBootstrap where
  sourceRate : ℕ
  globalRate : ℕ
  idempotencyTtlSecs : ℕ

/-- The part of the service state that provisioning uses; a cached reply has its expiry. -/
structure Inner (Peer R : Type) [LinearOrder Peer] where
  relaySourceRates : SortedMap Peer Window
  relayGlobalRate : Option Window
  relayIdempotency : SortedMap Text (R × ℕ)
  relayIdempotencyOrder : List Text

inductive Lookup (R : Type) where
  | cached (reply : R × ℕ)
  | passed
  | limited

section Service
variable {Peer R : Type} [LinearOrder Peer]

/-- The cached reply, or else the rate check. -/
def lookup (bootstrap : RelayBootstrap) (inner : Inner Peer R) (peer : Peer) (key : Text) (now : ℕ) :
    Lookup R × Inner Peer R :=
  match (inner.relayIdempotency.find? key).filter fun reply => now < reply.2 with
  | some reply => (.cached reply,inner)
  | none =>
      let minute := now/60
      let (passed,rates) := takeRate inner.relaySourceRates peer minute bootstrap.sourceRate
      let inner := {inner with relaySourceRates := rates}
      if passed = false then (.limited,inner)
      else
        let (passed,window) := takeSingleRate inner.relayGlobalRate minute bootstrap.globalRate
        let inner := {inner with relayGlobalRate := window}
        if passed = false then (.limited,inner) else (.passed,inner)

/-- The sum is one of machine words. -/
def expiresAt (bootstrap : RelayBootstrap) (now authorityExpiry : ℕ) : ℕ :=
  min ((now+bootstrap.idempotencyTtlSecs)%2^64) authorityExpiry

/-- The oldest keys of the order are removed until there is room. -/
def evict : ℕ → SortedMap Text (R × ℕ) → List Text →
    Option (SortedMap Text (R × ℕ) × List Text)
  | 0,_,_ => none
  | fuel+1,cache,order =>
      if maxIdempotency ≤ cache.size then
        match order with
        | [] => evict fuel cache []
        | oldest::rest => evict fuel (cache.erase oldest) rest
      else some (cache,order)

def retainUnexpired (inner : Inner Peer R) (now : ℕ) : Inner Peer R :=
  let cache := inner.relayIdempotency.retain fun _ reply => now < reply.2
  {inner with
    relayIdempotency := cache
    relayIdempotencyOrder := inner.relayIdempotencyOrder.filter cache.contains}

def pruneRelayIdempotency (fuel : ℕ) (inner : Inner Peer R) (now : ℕ) : Option (Inner Peer R) := do
  let inner := retainUnexpired inner now
  let (cache,order) ← evict fuel inner.relayIdempotency inner.relayIdempotencyOrder
  some {inner with relayIdempotency := cache, relayIdempotencyOrder := order}

/-- The cached reply that stays, if it expires later than the new one. -/
def standing (inner : Inner Peer R) (key : Text) (reply : R × ℕ) : Option (R × ℕ) :=
  (inner.relayIdempotency.find? key).filter fun cached => reply.2 < cached.2

def insertReply (inner : Inner Peer R) (key : Text) (reply : R × ℕ) : Inner Peer R :=
  {inner with
    relayIdempotency := inner.relayIdempotency.insert key reply
    relayIdempotencyOrder := inner.relayIdempotencyOrder++[key]}

/-! ## Concurrent requests -/

/-- A request between its critical sections. -/
inductive Stage (R : Type) where
  | waiting (key : Text)
  | obtained (key : Text) (reply : R × ℕ)

/-- A reply that was sent, and whether its cache entry has been evicted since. -/
structure Sent (R : Type) where
  key : Text
  reply : R × ℕ
  evicted : Bool
  deriving DecidableEq

/-- The service with its requests in flight. The last three fields are the history:
the replies, the number of stores and the time of each key's last store. -/
structure World (Peer R : Type) [LinearOrder Peer] where
  inner : Inner Peer R
  clock : ℕ
  pending : List (Stage R)
  sent : List (Sent R)
  stores : ℕ
  storedAt : Text → ℕ

def World.start : World Peer R := ⟨⟨.empty,none,.empty,[]⟩,0,[],[],0,fun _ => 0⟩

/-- The replies whose entries the eviction from `before` to `after` removed are marked. -/
def markEvicted [DecidableEq R] (before after : SortedMap Text (R × ℕ)) (sent : List (Sent R)) :
    List (Sent R) :=
  sent.map fun s =>
    if before.find? s.key = some s.reply ∧ after.find? s.key = none then {s with evicted := true}
    else s

/-- The times are those of the clock readings. A request fails in any way that sends no reply. -/
inductive Event (Peer R : Type) where
  | lookup (peer : Peer) (key : Text) (now : ℕ)
  | obtain (request : ℕ) (response : R) (authorityExpiry now later : ℕ)
  | fail (request : ℕ)
  | store (request fuel now : ℕ)

namespace World
variable [DecidableEq R]

def reply (w : World Peer R) (key : Text) (reply : R × ℕ) : World Peer R × Option (Sent R) :=
  ({w with sent := w.sent++[⟨key,reply,false⟩]},some ⟨key,reply,false⟩)

def lookup (bootstrap : RelayBootstrap) (w : World Peer R) (peer : Peer) (key : Text) (now : ℕ) :
    World Peer R × Option (Sent R) :=
  match RelayProvisioning.lookup bootstrap w.inner peer key now with
  | (.cached reply,_) => {w with clock := now}.reply key reply
  | (.passed,inner) => ({w with inner := inner, clock := now, pending := w.pending++[.waiting key]},none)
  | (.limited,inner) => ({w with inner := inner, clock := now},none)

/-- A reply that has already expired is not stored. -/
def obtain (bootstrap : RelayBootstrap) (w : World Peer R) (request : ℕ) (key : Text) (response : R)
    (authorityExpiry now later : ℕ) : World Peer R :=
  let expires := expiresAt bootstrap now authorityExpiry
  if expires ≤ later then {w with clock := later, pending := w.pending.eraseIdx request}
  else {w with
    clock := later
    pending := w.pending.set request (.obtained key (response,expires))}

def store (w : World Peer R) (request fuel now : ℕ) (key : Text) (reply : R × ℕ) :
    Option (World Peer R × Option (Sent R)) :=
  let w := {w with clock := now, pending := w.pending.eraseIdx request}
  match standing w.inner key reply with
  | some cached => some (w.reply key cached)
  | none => (pruneRelayIdempotency fuel w.inner now).map fun pruned =>
      {w with
        inner := insertReply pruned key reply
        sent := markEvicted (retainUnexpired w.inner now).relayIdempotency
          pruned.relayIdempotency w.sent
        stores := w.stores+1
        storedAt := Function.update w.storedAt key w.stores}.reply key reply

/-- The step of an event, unless the event is not possible. -/
def step (bootstrap : RelayBootstrap) (w : World Peer R) :
    Event Peer R → Option (World Peer R × Option (Sent R))
  | .lookup peer key now => if w.clock ≤ now then some (w.lookup bootstrap peer key now) else none
  | .obtain request response authorityExpiry now later =>
      match w.pending[request]? with
      | some (.waiting key) =>
          if w.clock ≤ now ∧ now ≤ later then
            some (w.obtain bootstrap request key response authorityExpiry now later,none)
          else none
      | _ => none
  | .fail request => some ({w with pending := w.pending.eraseIdx request},none)
  | .store request fuel now =>
      match w.pending[request]? with
      | some (.obtained key reply) =>
          if w.clock ≤ now then w.store request fuel now key reply else none
      | _ => none

/-- A store that finds an unexpired reply finds one that expires later than its own. -/
def Careful (w : World Peer R) : Event Peer R → Prop
  | .store request _ now => ∀ key reply, w.pending[request]? = some (.obtained key reply) →
      ∀ cached, w.inner.relayIdempotency.find? key = some cached → now < cached.2 →
        reply.2 < cached.2
  | _ => True

end World

/-- The worlds that careful steps reach. -/
inductive Reached [DecidableEq R] (bootstrap : RelayBootstrap) : World Peer R → Prop
  | start : Reached bootstrap .start
  | step {w w' : World Peer R} (event : Event Peer R) {reply : Option (Sent R)} :
      Reached bootstrap w → w.Careful event → w.step bootstrap event = some (w',reply) →
      Reached bootstrap w'

/-- What is promised of a world. -/
structure Idempotent [DecidableEq R] (bootstrap : RelayBootstrap) (w : World Peer R) : Prop where
  bound : w.inner.relayIdempotency.size ≤ maxIdempotency
  ordered : ∀ key reply, w.inner.relayIdempotency.find? key = some reply →
    key ∈ w.inner.relayIdempotencyOrder
  ends : ∀ now, ∃ fuel pruned, pruneRelayIdempotency fuel w.inner now = some pruned
  eldest : ∀ fuel now pruned, pruneRelayIdempotency fuel w.inner now = some pruned →
    ∀ key reply, w.inner.relayIdempotency.find? key = some reply → now < reply.2 →
      pruned.relayIdempotency.find? key = none →
      ∀ other kept, pruned.relayIdempotency.find? other = some kept →
        w.storedAt key < w.storedAt other
  equal : ∀ event w' reply, w.Careful event → w.step bootstrap event = some (w',some reply) →
    ∀ s ∈ w'.sent, s.key = reply.key → s.evicted = false → w'.clock < s.reply.2 →
      s.reply.1 = reply.reply.1

/-! ## Eviction -/

section Eviction
variable {cache cache' : SortedMap Text (R × ℕ)} {order order' : List Text} {fuel now : ℕ}
  {inner pruned : Inner Peer R}

theorem evict_spec (h : evict fuel cache order = some (cache',order')) :
    ∃ dropped, order = dropped++order' ∧ cache'.size < maxIdempotency ∧
      ∀ key, cache'.find? key = if key ∈ dropped then none else cache.find? key := by
  induction fuel generalizing cache order with
  | zero => cases h
  | succ fuel ih =>
      unfold evict at h
      split_ifs at h with hfull
      · cases order with
        | nil => exact ih h
        | cons oldest rest =>
            obtain ⟨dropped,horder,hsize,hfind⟩ := ih h
            refine ⟨oldest::dropped,by rw [horder,List.cons_append],hsize,fun key => ?_⟩
            rw [hfind]
            by_cases hkey : key = oldest
            · simp [hkey]
            · simp [hkey,SortedMap.find?_erase_of_ne _ hkey]
      · cases h
        exact ⟨[],rfl,not_le.mp hfull,fun key => by simp⟩

theorem exists_find?_of_size (h : 0 < cache.size) : ∃ key reply, cache.find? key = some reply := by
  cases hentries : cache.entries with
  | nil => simp [SortedMap.size,hentries] at h
  | cons e rest => exact ⟨e.1,e.2,SortedMap.mem_iff_find?.mp (by rw [hentries]; simp)⟩

theorem evict_total (h : ∀ key reply, cache.find? key = some reply → key ∈ order)
    (hfuel : order.length < fuel) : ∃ r, evict fuel cache order = some r := by
  induction fuel generalizing cache order with
  | zero => exact absurd hfuel (Nat.not_lt_zero _)
  | succ fuel ih =>
      unfold evict
      split_ifs with hfull
      · cases order with
        | nil =>
            obtain ⟨key,reply,hfind⟩ := exists_find?_of_size ((by decide : 0 < maxIdempotency).trans_le hfull)
            exact absurd (h key reply hfind) List.not_mem_nil
        | cons oldest rest =>
            refine ih (fun key reply hfind => ?_) (Nat.lt_of_succ_lt_succ hfuel)
            have hmem := h key reply (SortedMap.find?_of_erase hfind)
            refine (List.mem_cons.mp hmem).resolve_left fun heq => ?_
            rw [heq,SortedMap.find?_erase_self] at hfind
            cases hfind
      · exact ⟨_,rfl⟩

theorem find?_retainUnexpired (key : Text) :
    (retainUnexpired inner now).relayIdempotency.find? key =
      (inner.relayIdempotency.find? key).filter fun reply => now < reply.2 :=
  SortedMap.find?_retain _ _ _

theorem mem_retainUnexpired {key : Text} :
    key ∈ (retainUnexpired inner now).relayIdempotencyOrder ↔
      key ∈ inner.relayIdempotencyOrder ∧
        (retainUnexpired inner now).relayIdempotency.contains key = true :=
  List.mem_filter

/-- The keys of the cache, by age. -/
structure Queued (inner : Inner Peer R) (storedAt : Text → ℕ) : Prop where
  ages : inner.relayIdempotencyOrder.Pairwise fun a b => storedAt a < storedAt b
  ordered : ∀ key reply, inner.relayIdempotency.find? key = some reply →
    key ∈ inner.relayIdempotencyOrder

theorem Queued.retain {storedAt : Text → ℕ} (h : Queued inner storedAt) :
    Queued (retainUnexpired inner now) storedAt where
  ages := h.ages.sublist List.filter_sublist
  ordered := by
    intro key reply hfind
    have hcontains : (retainUnexpired inner now).relayIdempotency.contains key = true := by
      rw [SortedMap.contains,hfind]
      rfl
    rw [find?_retainUnexpired] at hfind
    exact mem_retainUnexpired.mpr ⟨h.ordered key reply (Option.filter_eq_some_iff.mp hfind).1,hcontains⟩

/-- What a pruned cache has kept, and from where in the order. -/
theorem prune_spec (h : pruneRelayIdempotency fuel inner now = some pruned) :
    ∃ dropped, (retainUnexpired inner now).relayIdempotencyOrder =
        dropped++pruned.relayIdempotencyOrder ∧
      pruned.relayIdempotency.size < maxIdempotency ∧
      ∀ key, pruned.relayIdempotency.find? key =
        if key ∈ dropped then none else (retainUnexpired inner now).relayIdempotency.find? key := by
  obtain ⟨⟨cache,order⟩,hevict,h⟩ := Option.bind_eq_some_iff.mp h
  cases h
  exact evict_spec hevict

theorem Queued.prune {storedAt : Text → ℕ} (h : Queued inner storedAt)
    (hp : pruneRelayIdempotency fuel inner now = some pruned) : Queued pruned storedAt := by
  obtain ⟨dropped,horder,_,hfind⟩ := prune_spec hp
  have hretained : Queued (retainUnexpired inner now) storedAt := h.retain
  refine ⟨?_,fun key reply hkey => ?_⟩
  · have hages := hretained.ages
    rw [horder] at hages
    exact (List.pairwise_append.mp hages).2.1
  · rw [hfind] at hkey
    split_ifs at hkey with hdropped
    have hmem := hretained.ordered key reply hkey
    rw [horder] at hmem
    exact (List.mem_append.mp hmem).resolve_left hdropped

/-- The eviction removes the eldest. -/
theorem Queued.eldest {storedAt : Text → ℕ} (h : Queued inner storedAt)
    (hp : pruneRelayIdempotency fuel inner now = some pruned) {key other : Text} {reply kept : R × ℕ}
    (hkey : inner.relayIdempotency.find? key = some reply) (hunexpired : now < reply.2)
    (hgone : pruned.relayIdempotency.find? key = none)
    (hother : pruned.relayIdempotency.find? other = some kept) : storedAt key < storedAt other := by
  obtain ⟨dropped,horder,_,hfind⟩ := prune_spec hp
  have hmem := (h.prune hp).ordered other kept hother
  have hretained : (retainUnexpired inner now).relayIdempotency.find? key = some reply := by
    rw [find?_retainUnexpired,hkey]
    exact Option.filter_some_pos (by simpa using hunexpired)
  have hdropped : key ∈ dropped := by
    by_contra hnot
    rw [hfind,if_neg hnot,hretained] at hgone
    cases hgone
  have hages := (@Queued.retain _ _ _ now inner storedAt h).ages
  rw [horder] at hages
  exact (List.pairwise_append.mp hages).2.2 key hdropped other hmem

theorem Queued.ends {storedAt : Text → ℕ} (h : Queued inner storedAt) (now : ℕ) :
    ∃ fuel pruned, pruneRelayIdempotency fuel inner now = some pruned := by
  have hretained : Queued (retainUnexpired inner now) storedAt := h.retain
  obtain ⟨r,hr⟩ := evict_total hretained.ordered (Nat.lt_succ_self _)
  exact ⟨_,_,Option.bind_eq_some_iff.mpr ⟨r,hr,rfl⟩⟩

end Eviction

/-! ## Careful steps -/

section Consistency
variable {bootstrap : RelayBootstrap} {w : World Peer R}

/-- The order lists the cached keys by age, and unexpired replies that were not evicted
are still cached. -/
structure Consistent (w : World Peer R) : Prop where
  queued : Queued w.inner w.storedAt
  stored : ∀ key ∈ w.inner.relayIdempotencyOrder, w.storedAt key < w.stores
  cached : ∀ key ∈ w.inner.relayIdempotencyOrder, ∃ reply,
    w.inner.relayIdempotency.find? key = some reply
  bound : w.inner.relayIdempotency.size ≤ maxIdempotency
  sent : ∀ s ∈ w.sent, s.evicted = false → w.clock < s.reply.2 →
    w.inner.relayIdempotency.find? s.key = some s.reply

theorem consistent_start : Consistent (World.start : World Peer R) where
  queued := ⟨List.Pairwise.nil,fun _ _ hfind => by cases hfind⟩
  stored := fun _ hkey => absurd hkey List.not_mem_nil
  cached := fun _ hkey => absurd hkey List.not_mem_nil
  bound := Nat.zero_le _
  sent := fun _ hs => absurd hs List.not_mem_nil

/-- Time passes, and the rates and the requests in flight do not matter. -/
theorem Consistent.pass (h : Consistent w) {inner : Inner Peer R} {now : ℕ} (pending : List (Stage R))
    (hcache : inner.relayIdempotency = w.inner.relayIdempotency)
    (horder : inner.relayIdempotencyOrder = w.inner.relayIdempotencyOrder) (hnow : w.clock ≤ now) :
    Consistent {w with inner := inner, clock := now, pending := pending} where
  queued := by
    constructor
    · rw [horder]
      exact h.queued.ages
    · rw [hcache,horder]
      exact h.queued.ordered
  stored := by
    rw [horder]
    exact h.stored
  cached := by
    rw [hcache,horder]
    exact h.cached
  bound := by
    rw [hcache]
    exact h.bound
  sent := by
    rw [hcache]
    exact fun s hs hkept hunexpired => h.sent s hs hkept (hnow.trans_lt hunexpired)

theorem Consistent.reply (h : Consistent w) {key : Text} {reply : R × ℕ}
    (hkey : w.inner.relayIdempotency.find? key = some reply) :
    Consistent (w.reply key reply).1 where
  queued := h.queued
  stored := h.stored
  cached := h.cached
  bound := h.bound
  sent := by
    intro s hs hkept hunexpired
    rcases List.mem_append.mp hs with hs | hs
    · exact h.sent s hs hkept hunexpired
    · rw [List.mem_singleton.mp hs]
      exact hkey

/-- What a lookup finds; it leaves the cache as it is. -/
theorem lookup_spec (bootstrap : RelayBootstrap) (inner : Inner Peer R) (peer : Peer) (key : Text)
    (now : ℕ) :
    (lookup bootstrap inner peer key now).2.relayIdempotency = inner.relayIdempotency ∧
    (lookup bootstrap inner peer key now).2.relayIdempotencyOrder = inner.relayIdempotencyOrder ∧
    ∀ reply, (lookup bootstrap inner peer key now).1 = .cached reply →
      inner.relayIdempotency.find? key = some reply := by
  unfold lookup
  cases hfind : (inner.relayIdempotency.find? key).filter fun reply => now < reply.2 with
  | some reply =>
      refine ⟨rfl,rfl,fun other hother => ?_⟩
      cases hother
      exact (Option.filter_eq_some_iff.mp hfind).1
  | none =>
      dsimp only
      split_ifs
      · exact ⟨rfl,rfl,fun _ hother => by cases hother⟩
      · exact ⟨rfl,rfl,fun _ hother => by cases hother⟩
      · exact ⟨rfl,rfl,fun _ hother => by cases hother⟩

/-- A step leaves a consistent world, and its reply is cached there. -/
def Answers (w' : World Peer R) (r : Option (Sent R)) : Prop :=
  Consistent w' ∧ ∀ s, r = some s → w'.inner.relayIdempotency.find? s.key = some s.reply

theorem Consistent.replied (h : Consistent w) {key : Text} {reply : R × ℕ}
    (hkey : w.inner.relayIdempotency.find? key = some reply) :
    Answers (w.reply key reply).1 (w.reply key reply).2 := by
  refine ⟨h.reply hkey,fun s hs => ?_⟩
  cases hs
  exact hkey

theorem Consistent.silent (h : Consistent w) : Answers w none := ⟨h,fun _ hs => by cases hs⟩

/-- The keys that a prune leaves in the order are cached. -/
theorem Consistent.pruned_cached (h : Consistent w) {fuel now : ℕ} {pruned : Inner Peer R}
    (hp : pruneRelayIdempotency fuel w.inner now = some pruned) :
    ∀ key ∈ pruned.relayIdempotencyOrder, key ∈ w.inner.relayIdempotencyOrder ∧
      ∃ reply, pruned.relayIdempotency.find? key = some reply := by
  obtain ⟨dropped,horder,_,hfind⟩ := prune_spec hp
  intro key hkey
  have hretained : Queued (retainUnexpired w.inner now) w.storedAt := h.queued.retain
  have hages := hretained.ages
  have hmem : key ∈ (retainUnexpired w.inner now).relayIdempotencyOrder := by
    rw [horder]
    exact List.mem_append_right _ hkey
  have hkept : key ∉ dropped := by
    rw [horder] at hages
    exact fun hdropped => (lt_irrefl _ ((List.pairwise_append.mp hages).2.2 key hdropped key hkey))
  obtain ⟨hold,hcontains⟩ := mem_retainUnexpired.mp hmem
  refine ⟨hold,?_⟩
  rw [hfind,if_neg hkept]
  exact Option.isSome_iff_exists.mp hcontains

theorem Consistent.lookup (h : Consistent w) {now : ℕ} (hnow : w.clock ≤ now) (peer : Peer)
    (key : Text) :
    Answers (w.lookup bootstrap peer key now).1 (w.lookup bootstrap peer key now).2 := by
  obtain ⟨hcache,horder,hcached⟩ := lookup_spec bootstrap w.inner peer key now
  unfold World.lookup
  rcases hl : RelayProvisioning.lookup bootstrap w.inner peer key now with ⟨outcome,inner⟩
  rw [hl] at hcache horder hcached
  cases outcome with
  | cached reply => exact (h.pass w.pending rfl rfl hnow).replied (hcached reply rfl)
  | passed => exact (h.pass _ hcache horder hnow).silent
  | limited => exact (h.pass w.pending hcache horder hnow).silent

theorem Consistent.obtain (h : Consistent w) {now later : ℕ} (hnow : w.clock ≤ now)
    (hlater : now ≤ later) (request : ℕ) (key : Text) (response : R) (authorityExpiry : ℕ) :
    Answers (w.obtain bootstrap request key response authorityExpiry now later) none := by
  unfold World.obtain
  dsimp only
  split_ifs
  · exact (h.pass _ rfl rfl (hnow.trans hlater)).silent
  · exact (h.pass _ rfl rfl (hnow.trans hlater)).silent

end Consistency

section Steps
variable [DecidableEq R] {bootstrap : RelayBootstrap} {w w' : World Peer R}

/-- A careful store of a reply that no standing one prevents. -/
theorem Consistent.insert (h : Consistent w) {fuel : ℕ} {pruned : Inner Peer R} {key : Text}
    {reply : R × ℕ} (hp : pruneRelayIdempotency fuel w.inner w.clock = some pruned)
    (hnew : (retainUnexpired w.inner w.clock).relayIdempotency.find? key = none) :
    Consistent {w with
      inner := insertReply pruned key reply
      sent := markEvicted (retainUnexpired w.inner w.clock).relayIdempotency
        pruned.relayIdempotency w.sent
      stores := w.stores+1
      storedAt := Function.update w.storedAt key w.stores} := by
  obtain ⟨dropped,horder,hsize,hfind⟩ := prune_spec hp
  have hqueued := h.queued.prune hp
  have hcached := h.pruned_cached hp
  have habsent : ∀ a ∈ pruned.relayIdempotencyOrder, a ≠ key := by
    intro a ha heq
    obtain ⟨_,reply,hreply⟩ := hcached a ha
    rw [hfind,heq,hnew] at hreply
    split_ifs at hreply
  have hsame : ∀ a ∈ pruned.relayIdempotencyOrder,
      Function.update w.storedAt key w.stores a = w.storedAt a := fun a ha =>
    Function.update_of_ne (habsent a ha) _ _
  have hself : Function.update w.storedAt key w.stores key = w.stores := Function.update_self _ _ _
  refine ⟨⟨?_,?_⟩,?_,?_,?_,?_⟩
  · refine List.pairwise_append.mpr ⟨?_,List.pairwise_singleton _ _,fun a ha b hb => ?_⟩
    · refine hqueued.ages.imp_of_mem fun ha hb hab => ?_
      exact ((hsame _ ha).trans_lt hab).trans_eq (hsame _ hb).symm
    · rw [List.mem_singleton.mp hb]
      exact ((hsame a ha).trans_lt (h.stored a (hcached a ha).1)).trans_eq hself.symm
  · intro a v ha
    have ha' : (pruned.relayIdempotency.insert key reply).find? a = some v := ha
    rw [SortedMap.find?_insert] at ha'
    split_ifs at ha' with heq
    · exact List.mem_append_right _ (List.mem_singleton.mpr heq)
    · exact List.mem_append_left _ (hqueued.ordered a v ha')
  · intro a ha
    rcases List.mem_append.mp ha with ha | ha
    · exact (hsame a ha).trans_lt ((h.stored a (hcached a ha).1).trans (Nat.lt_succ_self _))
    · rw [List.mem_singleton.mp ha]
      exact hself.trans_lt (Nat.lt_succ_self _)
  · intro a ha
    change ∃ v, (pruned.relayIdempotency.insert key reply).find? a = some v
    rw [SortedMap.find?_insert]
    split_ifs with heq
    · exact ⟨reply,rfl⟩
    · have ha' := (List.mem_append.mp ha).resolve_right fun hmem => heq (List.mem_singleton.mp hmem)
      exact (hcached a ha').2
  · exact (SortedMap.size_insert_le _ _ _).trans hsize
  · intro s hs hkept hunexpired
    obtain ⟨s₀,hs₀,rfl⟩ := List.mem_map.mp hs
    dsimp only at hkept hunexpired ⊢
    split_ifs at hkept hunexpired ⊢ with hgone
    have hold := h.sent s₀ hs₀ hkept hunexpired
    have hretained : (retainUnexpired w.inner w.clock).relayIdempotency.find? s₀.key =
        some s₀.reply := by
      rw [find?_retainUnexpired,hold]
      exact Option.filter_some_pos (by simpa using hunexpired)
    have hne : s₀.key ≠ key := fun heq => by
      rw [heq,hnew] at hretained
      cases hretained
    have hstay : pruned.relayIdempotency.find? s₀.key ≠ none := fun hnone =>
      hgone ⟨hretained,hnone⟩
    change (pruned.relayIdempotency.insert key reply).find? s₀.key = some s₀.reply
    rw [SortedMap.find?_insert_of_ne _ _ hne,hfind,hretained]
    rw [hfind] at hstay
    split_ifs at hstay ⊢
    · exact absurd rfl hstay
    · rfl

theorem Consistent.store (h : Consistent w) {request fuel now : ℕ} {key : Text} {reply : R × ℕ}
    {r : Option (Sent R)} (hnow : w.clock ≤ now)
    (hcareful : ∀ cached, w.inner.relayIdempotency.find? key = some cached → now < cached.2 →
      reply.2 < cached.2)
    (hs : w.store request fuel now key reply = some (w',r)) : Answers w' r := by
  have hpass := h.pass (w.pending.eraseIdx request) rfl rfl hnow
  unfold World.store at hs
  dsimp only at hs
  cases hstanding : standing w.inner key reply with
  | some cached =>
      rw [hstanding] at hs
      cases hs
      exact hpass.replied (Option.filter_eq_some_iff.mp hstanding).1
  | none =>
      rw [hstanding] at hs
      obtain ⟨pruned,hp,heq⟩ := Option.map_eq_some_iff.mp hs
      have hnew : (retainUnexpired w.inner now).relayIdempotency.find? key = none := by
        rw [find?_retainUnexpired,Option.filter_eq_none_iff]
        intro cached hcached hunexpired
        have hlater := hcareful cached hcached (of_decide_eq_true hunexpired)
        exact Option.filter_eq_none_iff.mp hstanding cached hcached (decide_eq_true hlater)
      have hinsert := @Consistent.insert _ _ _ _ _ hpass _ _ _ reply hp hnew
      have hanswer := hinsert.replied (SortedMap.find?_insert_self pruned.relayIdempotency key reply)
      rw [show World.reply _ key reply = (w',r) from heq] at hanswer
      exact hanswer

theorem Consistent.step (h : Consistent w) {event : Event Peer R} {r : Option (Sent R)}
    (hcareful : w.Careful event) (hs : w.step bootstrap event = some (w',r)) : Answers w' r := by
  cases event with
  | lookup peer key now =>
      simp only [World.step] at hs
      split_ifs at hs with hnow
      have hanswer : Answers (w.lookup bootstrap peer key now).1 (w.lookup bootstrap peer key now).2 :=
        h.lookup hnow peer key
      rw [Option.some.inj hs] at hanswer
      exact hanswer
  | obtain request response authorityExpiry now later =>
      simp only [World.step] at hs
      split at hs
      · split_ifs at hs with hnow
        cases hs
        exact h.obtain hnow.1 hnow.2 _ _ _ _
      · cases hs
  | fail request =>
      cases hs
      exact (h.pass _ rfl rfl le_rfl).silent
  | store request fuel now =>
      simp only [World.step] at hs
      split at hs
      · next key reply hpending =>
          split_ifs at hs with hnow
          exact h.store hnow (hcareful key reply hpending) hs
      · cases hs

theorem Reached.consistent (h : Reached bootstrap w) : Consistent w := by
  induction h with
  | start => exact consistent_start
  | step event _ hcareful hs ih => exact (ih.step hcareful hs).1

theorem careful_provisioning_idempotent (h : Reached bootstrap w) : Idempotent bootstrap w where
  bound := h.consistent.bound
  ordered := h.consistent.queued.ordered
  ends := h.consistent.queued.ends
  eldest := fun _ _ _ hp _ _ hkey hunexpired hgone _ _ hother =>
    h.consistent.queued.eldest hp hkey hunexpired hgone hother
  equal := by
    intro event w' reply hcareful hs s hsent hkey hkept hunexpired
    obtain ⟨hconsistent,hreply⟩ := h.consistent.step hcareful hs
    have hcached := hconsistent.sent s hsent hkept hunexpired
    rw [hkey,hreply reply rfl] at hcached
    rw [Option.some.inj hcached]

end Steps

end Service

/-! ## Two requests at once -/

/-- A world after some events. -/
def World.play {Peer R : Type} [LinearOrder Peer] [DecidableEq R] (bootstrap : RelayBootstrap) :
    List (Event Peer R) → World Peer R → Option (World Peer R)
  | [],w => some w
  | event::rest,w => do
      let (w,_) ← w.step bootstrap event
      w.play bootstrap rest

def sampleBootstrap : RelayBootstrap := ⟨5,5,10⟩

def sampleKey : Text := requestKey [108] .one [65]

/-- A single request, and then the same again. -/
theorem careful_provisioning_idempotent_sample :
    ∃ w : World ℕ Bool, w.sent.length = 2 ∧ Reached sampleBootstrap w ∧
      Idempotent sampleBootstrap w := by
  have hrun : Reached sampleBootstrap _ := Reached.step (.lookup 0 sampleKey 3)
    (Reached.step (.store 0 1 2) (Reached.step (.obtain 0 true 1000 1 1)
      (Reached.step (.lookup 0 sampleKey 0) (.start : Reached sampleBootstrap (.start : World ℕ Bool))
        trivial rfl) trivial rfl) (fun _ _ _ _ hfind => by cases hfind) rfl) trivial rfl
  exact ⟨_,rfl,hrun,careful_provisioning_idempotent hrun⟩

/-- Both requests find no reply, so each obtains its own, and the second overwrites the
unexpired reply of the first. -/
theorem concurrent_requests_differ :
    ∃ (w w' : World ℕ Bool) (reply s : Sent Bool),
      World.play sampleBootstrap [.lookup 0 sampleKey 0,.lookup 0 sampleKey 0,
        .obtain 0 false 1000 0 0,.store 0 1 0,.obtain 0 true 1000 1 1] .start = some w ∧
      w.step sampleBootstrap (.store 0 1 1) = some (w',some reply) ∧ s ∈ w'.sent ∧
      s.key = reply.key ∧ s.evicted = false ∧ w'.clock < s.reply.2 ∧ s.reply.1 ≠ reply.reply.1 := by
  refine ⟨_,_,_,⟨sampleKey,(false,10),false⟩,rfl,rfl,?_,rfl,rfl,?_,?_⟩
  · exact List.mem_append_left _ (by decide +kernel)
  · decide +kernel
  · decide +kernel

end Gcoms.RelayProvisioning
