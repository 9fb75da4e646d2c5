import Gcoms.FileRuns

/-!
# Giving up a transfer

Without failures of the file system a transfer can be cancelled and released,
and the storage can be opened again, as long as the journal accepts every state
it is given. It refuses a deferred error in a transfer that is no longer active,
which `cancel` makes of a transfer inside a batch with an error.
-/
namespace Gcoms.FileAbandonment
open ByteCodec Primitives Fallible Commands SortedMaps Writeback FileRecords FileReceiver FileSlots
open FileTransfers FileRecovery FileWorlds FileOpening FileRuns

variable {cfg : Config} {w : World} {up : Bool} {d : Desk} {S : Suite} {tidy : Prop}

/-- An error inside the first batch of a transfer. -/
def deferredError : List (Call × Script) := sampleStart 2++[(.errorFor sampleId .io,[])]

end Gcoms.FileAbandonment
