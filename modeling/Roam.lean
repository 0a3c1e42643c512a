import Roam.Base
import Roam.Library.Saturation
import Roam.Library.GapRun
import Roam.Library.TreeFold
import Roam.Roster
import Roam.RosterPasses
import Roam.RosterSpec
import Roam.Keychain
import Roam.KeychainSpec
import Roam.EpochCommitment
import Roam.Library.Text
import Roam.Library.LineLog
import Roam.Document
import Roam.Platform
import Roam.Logs
import Roam.LogSpec
import Roam.Library.Worklist
import Roam.Store
import Roam.StoreSpec
import Roam.StoreDoc
import Roam.StoreDocSpec
import Roam.Library.Run
import Roam.StoreCalls
import Roam.RosterDecision
import Roam.RoleDecision
import Roam.Library.PrefixCode
import Roam.PlainPlatform
import Roam.TornLogs
import Roam.Network
import Roam.SharedRoster
import Roam.RoleInfluence
import Roam.LogImports
import Roam.KeylogFold
import Roam.EpochAgreement
import Roam.EpochKeys
import Roam.Library.Causal
import Roam.DocModel
import Roam.OwnLog
import Roam.Reopen
import Roam.Library.Compaction
import Roam.Checkpoint
import Roam.CheckpointSpec
import Roam.CompactedLogs
import Roam.Library.FileTree
import Roam.Library.PathWitness
import Roam.SnapshotFiles
import Roam.SyncFiles
import Roam.Engine
import Roam.EngineSpec
import Roam.Library.Exchange
import Roam.Gossip
import Roam.ReadGate
import Roam.Library.LineCursor
import Roam.LivePush
import Roam.Library.Chunks
import Roam.Transfer
import Roam.BlobTransfer
import Roam.Library.EditScript
import Roam.Rebase
import Roam.RebaseSpec
import Roam.Library.ByteFile
import Roam.Vfs
import Roam.SlotPool
import Roam.SnapshotCover
import Roam.Library.Fallible
import Roam.Library.Utf8
import Roam.TextOps
import Roam.Replica
import Roam.Bridge
import Roam.Folder
import Roam.FolderSpec
import Roam.FolderRounds
import Roam.FolderScan
import Roam.FolderConvergence
import Roam.UnsyncedFiles
import Roam.Retention
import Roam.Library.Framing
import Roam.SignedBytes
import Roam.Library.Task
import Roam.Backend
import Roam.Reconcile
import Roam.HeadSeals
import Roam.Pake
import Roam.PakeRuns
import Roam.Pairing
import Roam.MailboxHost
import Roam.MailboxSpec
import Roam.GuessBudget
import Roam.OneEnrolment
import Roam.Library.Outcome
import Roam.ShareNames
import Roam.ShareOffer
import Roam.ShareTransfer
import Roam.ShareReceiver
import Roam.HostileShare
import Roam.ShareCoverage
import Roam.VaultCompaction
import Roam.AdminStanding
import Roam.StrandedPeers
import Roam.CurrentBlobs
import Roam.Library.LossyText
import Roam.VaultPaths
import Roam.PeerTexts
import Roam.BridgeFrame
import Roam.DeliveredLines
import Roam.TrustLogs
import Roam.RosterWalk
import Roam.KeylogAppends
import Roam.Rotations
import Roam.TornKeylog
import Roam.WrapAppends
import Roam.Backfill
import Roam.PaperRecovery
import Roam.HistoryQueries
import Roam.Sidecars
import Roam.Conflicts
import Roam.BackendPuts
import Roam.SealedChannel
import Roam.VaultFiles
import Roam.ChangeFeed
import Roam.PoolRename
import Roam.SnapshotExchange
import Roam.GenuineUploads
import Roam.RepeatedSweeps
