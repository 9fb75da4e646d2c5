import Gcoms.ByteCodec
import Gcoms.SortedMaps
import Gcoms.Bitmaps
import Gcoms.Primitives
import Gcoms.Fallible
import Gcoms.RatchetFrame
import Gcoms.KeyChains
import Gcoms.RatchetSession
import Gcoms.RatchetHandshake
import Gcoms.RatchetLinks
import Gcoms.RatchetAgreement
import Gcoms.RatchetStorage
import Gcoms.RatchetTransactions
import Gcoms.FlowRecord
import Gcoms.FlowCoverage
import Gcoms.FlowWindow
import Gcoms.FlowCredit
import Gcoms.FlowStorage
import Gcoms.FlowNonces
import Gcoms.RelayCells
import Gcoms.RelayCodec
import Gcoms.RelayForward
import Gcoms.UndoLogs
import Gcoms.ReceiptLedger
import Gcoms.ReceiptStorage
import Gcoms.ReceiptHistory
import Gcoms.Commands
import Gcoms.LeaseCodec
import Gcoms.LeaseStore
import Gcoms.LeaseSteps
import Gcoms.LeaseEdits
import Gcoms.LeaseEvents
import Gcoms.LeaseAccounting
import Gcoms.LeaseRefusal
import Gcoms.LeaseDelivery
import Gcoms.LeaseAuthority
import Gcoms.SchedulerBudget
import Gcoms.SchedulerConservation
import Gcoms.ByteStrings
import Gcoms.ChannelFragments
import Gcoms.ChannelReassembly
import Gcoms.RelayDirectory
import Gcoms.DirectoryStorage
import Gcoms.DirectorySafety
import Gcoms.RpcRouter
import Gcoms.RpcInvocations
import Gcoms.Writeback
import Gcoms.FileRecords
import Gcoms.FileReceiver
import Gcoms.FileSlots
import Gcoms.FileTransfers
import Gcoms.FileRecovery
import Gcoms.FileWorlds
import Gcoms.FileOpening
import Gcoms.FileRuns
import Gcoms.FileDurability
import Gcoms.FileAbandonment
import Gcoms.GossipDedup
import Gcoms.GossipView
import Gcoms.MerkleTrees
import Gcoms.FragmentBuffers
import Gcoms.MembershipDelivery
import Gcoms.FragmentSafety
import Gcoms.RelayProvisioning
import Gcoms.RelayPaths
import Gcoms.SessionPackets
import Gcoms.Layouts
import Gcoms.Transcripts
import Gcoms.ChannelAuthority
import Gcoms.NewestEntries
import Gcoms.ChannelMetadata
import Gcoms.MetadataConvergence
import Gcoms.JsonTexts
import Gcoms.ChannelInbox
import Gcoms.InboxDurability
import Gcoms.SwarmPieces
import Gcoms.SwarmCache
import Gcoms.SwarmContent
import Gcoms.SwarmRuns
import Gcoms.SwarmDelivery
