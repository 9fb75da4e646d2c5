import Gcoms.FileRuns

/-!
# Acknowledged data survives

The offset of an acknowledgement is that of every journal entry a crash may
leave, and every entry has the hash of the bytes it counts. A chunk breaks this
when the file system fails between the moment its length is added in memory and
the moment the journal has the entry: the repeated chunk is then acknowledged
from memory. Runs without such failures keep the guarantee, wherever they crash.
-/
namespace Gcoms.FileDurability
open ByteCodec Primitives Fallible Commands SortedMaps Writeback FileRecords FileReceiver FileSlots
open FileTransfers FileRecovery FileWorlds FileOpening FileRuns

variable {cfg : Config} {w : World} {up : Bool}

/-- Every call of the file system may fail. -/
def unrestricted : Regime := ⟨fun _ _ _ => True,fun _ _ => True,True⟩

/-- The hash and the entry of a chunk, and the first entry of a transfer, are spared
by failures; errors are not deferred for complete transfers. -/
def careful : Regime := ⟨fun w c script => Careful script c ∧ Timely w c,Timely,True⟩

theorem careful_meets : careful.Meets True False :=
  ⟨fun h => ⟨h.1,fun _ => h.2,False.elim⟩,fun h => ⟨fun _ => h,False.elim⟩⟩

/-- What is acknowledged is on the medium. -/
structure Durable (cfg : Config) (up : Bool) (w : World) : Prop where
  /-- Every entry is backed by synchronized bytes with its hash. -/
  hashed : ∀ {id s}, some s ∈ (w.slot id).entry.possible →
    s.committedOffset ≤ (w.slot id).content.synced ∧
      s.committedSha256 = cfg.suite.sha256 ((w.slot id).content.bytes.take s.committedOffset)
  /-- An acknowledgement does not exceed any entry of its transfer. -/
  bounded : up = true → ∀ {c script a w'}, Timely w c →
    w.call cfg c script = (.ok (some a),w') →
      ∀ s, some s ∈ (w'.slot a.transferId).entry.possible → a.receivedSize ≤ s.committedOffset
  /-- Opening resumes every transfer at no lower offset than was acknowledged, unless
  its release was asked for. -/
  resumes : up = false → ∃ w', w.reopen cfg [] = (.ok (),w') ∧ ∀ {id n}, w.acked id = some n →
    (∃ t, w'.transfers.find? id = some t ∧ n ≤ t.state.committedOffset) ∨
    (w'.transfers.find? id = none ∧ id ∈ w.abandoned)

theorem Live.acks_bounded {c : Call} {script : Script} {a : FileAck} {w' : World}
    (h : Live cfg True False w) (hcareful : Timely w c)
    (hcall : w.call cfg c script = (.ok (some a),w')) {s : TransferState}
    (hs : some s ∈ (w'.slot a.transferId).entry.possible) :
    a.receivedSize ≤ s.committedOffset := by
  have hd := (call_outcome h False.elim (fun _ => hcareful) False.elim).of_ok hcall
  obtain ⟨t,ht,hsize⟩ := hd.acked a rfl
  obtain ⟨t',ht',-,-,hoffset⟩ := hd.live.entry hs
  rw [ht] at ht'
  cases ht'
  rw [hsize,hoffset]

theorem Halted.reopens (h : Halted cfg True w) :
    ∃ w', w.reopen cfg [] = (.ok (),w') ∧ Live cfg True False w' ∧ Resumed False w w' := by
  obtain ⟨u,hu,hd⟩ := Leads.succeeds ((@reopen_outcome cfg True False w False.elim h []).mono
    (fun _ _ hd => hd) (fun _ _ hd => hd.2.2 trivial rfl))
  exact ⟨_,hu,hd⟩

theorem acknowledged_survives (h : Reached cfg careful up w) : Durable cfg up w := by
  have hsane := (h.sane careful_meets False.elim).1
  refine ⟨fun {id s} hs => ?_,fun hup {c script a w'} htimely hcall s hs => ?_,fun hup => ?_⟩
  · have hb := ((hsane.stored.sound id).entries s hs).1.backed
    exact ⟨hb.synced,hb.hash⟩
  · subst hup
    exact Live.acks_bounded hsane htimely hcall hs
  · subst hup
    obtain ⟨w',hw',hlive,hr⟩ := Halted.reopens hsane
    refine ⟨w',hw',fun {id n} hn => ?_⟩
    rw [← hr.abandoned]
    exact hlive.acked (by rw [hr.acked]; exact hn)

/-- A transfer with one chunk, before a crash. -/
def sampleCommit : List (Call × Script) :=
  sampleStart 1++[(.process (.chunk (sampleChunk 1)) 10,[])]

theorem sampleCommit_admitted : Admits careful sampleConfig sampleCommit (opened sampleConfig) := by
  have hspared : ∀ n, Spared (([] : Script).drop n) := by
    intro n f hf
    rw [List.drop_nil] at hf
    cases hf
  refine ⟨⟨trivial,trivial⟩,⟨fun k hk => ?_,trivial⟩,⟨⟨hspared 4,hspared 5⟩,trivial⟩,trivial⟩
  cases hk

theorem acknowledged_survives_crash : Durable sampleConfig false
    ((play sampleConfig sampleCommit (opened sampleConfig)).crash fun _ => ⟨[],true,false,none⟩) :=
  acknowledged_survives (((reached_opened sampleConfig careful).played sampleCommit_admitted).step
    (.crashed trivial))

/-- A chunk whose journal entry could not be stored. -/
def lostEntry : List (Call × Script) :=
  sampleStart 1++[(.process (.chunk (sampleChunk 1)) 10,[none,none,none,none,none,some .early])]

set_option maxRecDepth 20000 in
theorem acknowledgement_outruns_journal : ∃ w w' a, Reached sampleConfig unrestricted true w ∧
    w.call sampleConfig (.process (.chunk (sampleChunk 1)) 10) [] = (.ok (some a),w') ∧
    ∀ e ∈ (w'.slot a.transferId).entry.possible,
      ∃ s, e = some s ∧ s.committedOffset < a.receivedSize := by
  have hreached : Reached sampleConfig unrestricted true
      (play sampleConfig lostEntry (opened sampleConfig)) :=
    (reached_opened sampleConfig unrestricted).played ⟨trivial,trivial,trivial,trivial⟩
  have hanswer : answer ((play sampleConfig lostEntry (opened sampleConfig)).call sampleConfig
      (.process (.chunk (sampleChunk 1)) 10) []).1 =
        some ⟨1,sampleId,.accepted,.ok,2,openSuite.sha256 sampleFile⟩ := by decide +kernel
  have hentries : ((((play sampleConfig lostEntry (opened sampleConfig)).call sampleConfig
      (.process (.chunk (sampleChunk 1)) 10) []).2.slot sampleId).entry.possible.map
        (Option.map (·.committedOffset))) = [some 0] := by decide +kernel
  generalize hrun : (play sampleConfig lostEntry (opened sampleConfig)).call sampleConfig
    (.process (.chunk (sampleChunk 1)) 10) [] = r at hanswer hentries
  refine ⟨_,r.2,⟨1,sampleId,.accepted,.ok,2,openSuite.sha256 sampleFile⟩,hreached,?_,
    fun e he => ?_⟩
  · rw [hrun]
    exact Prod.ext (eq_of_answer hanswer) rfl
  have hmem := List.mem_map_of_mem (f := Option.map (·.committedOffset)) he
  rw [hentries] at hmem
  obtain ⟨s,hs,hzero⟩ := Option.map_eq_some_iff.mp (List.mem_singleton.mp hmem)
  refine ⟨s,hs,?_⟩
  rw [hzero]
  exact Nat.zero_lt_two

end Gcoms.FileDurability
