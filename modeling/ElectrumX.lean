import ElectrumX.Base.Bytes
import ElectrumX.Base.FlatFile
import ElectrumX.Base.InvertedIndex
import ElectrumX.Base.Reach
import ElectrumX.Base.Reader
import ElectrumX.Base.Extent
import ElectrumX.Base.Ledger
import ElectrumX.Base.Table
import ElectrumX.Base.Numeral
import ElectrumX.Base.OrderedDict
import ElectrumX.Base.Recency
import ElectrumX.Lib.Util
import ElectrumX.Lib.Tx
import ElectrumX.Lib.Script
import ElectrumX.Lib.Coins
import ElectrumX.Lib.Names
import ElectrumX.Lib.Wire
import ElectrumX.Lib.LRUCache
import ElectrumX.Lib.CacheRuns
import ElectrumX.Lib.Merkle
import ElectrumX.Server.History
import ElectrumX.Server.Compaction
import ElectrumX.Server.DB
import ElectrumX.Server.BlockProcessor
import ElectrumX.Server.LTORBlockProcessor
import ElectrumX.Server.NameIndexBlockProcessor
import ElectrumX.Server.Prefetcher
import ElectrumX.Server.Notifications
import ElectrumX.Server.SessionManager
import ElectrumX.Server.Mempool
import ElectrumX.Server.Session
import ElectrumX.Server.Transport
import ElectrumX.Server.TxCaches
import ElectrumX.Server.HeaderCache
import ElectrumX.Server.ProofRequests
import ElectrumX.Server.Daemon
import ElectrumX.Server.DecredDaemon
import ElectrumX.Server.FeeEstimates
import ElectrumX.Server.SessionGroups
import ElectrumX.Server.Peers
import ElectrumX.Chain.Spec
import ElectrumX.Index.Utxo
import ElectrumX.Index.Blocks
import ElectrumX.Index.Files
import ElectrumX.Index.HistoryRows
import ElectrumX.Index.Invariant
import ElectrumX.Index.Answers
import ElectrumX.Index.Flush
import ElectrumX.Index.Recovery
import ElectrumX.Index.Backup
import ElectrumX.Index.Run
import ElectrumX.Index.Reorg
import ElectrumX.Index.UndoWindow
import ElectrumX.Index.Bookkeeping
import ElectrumX.Index.Headers
import ElectrumX.Index.Numbering
import ElectrumX.Index.Lookups
import ElectrumX.Index.ReorgRange
import ElectrumX.Index.DecredReorg
import ElectrumX.Index.ServedHeaders
import ElectrumX.Index.StatusText
import ElectrumX.Index.TxOrder
import ElectrumX.Index.Methods
import ElectrumX.Index.AnyOrder
import ElectrumX.Index.NameIndex
import ElectrumX.Index.Crash
import ElectrumX.Index.FlushCrash
import ElectrumX.Index.BackupCrash
import ElectrumX.Index.Shutdown
import ElectrumX.Index.ServerRun
import ElectrumX.Lib.MerkleProof
import ElectrumX.Lib.MerkleLevel
import ElectrumX.Lib.MerkleCache
import ElectrumX.Lib.VirtualSize
import ElectrumX.Lib.Base58
import ElectrumX.Lib.LogicalFile
import ElectrumX.Lib.ScriptParser
import ElectrumX.Lib.NamePrefix
import ElectrumX.Lib.TxDash
import ElectrumX.Lib.DashWire
import ElectrumX.Server.PeerNames
import ElectrumX.Server.PeerMonitor
import ElectrumX.Lib.AuxPow
import ElectrumX.Lib.Hex
import ElectrumX.Lib.TxDecred
import ElectrumX.Index.Compaction
import ElectrumX.Index.Interrupted
import ElectrumX.Index.HistoryUpgrade
import ElectrumX.Index.UtxoUpgrade
import ElectrumX.Index.TruncatedHeaders
import ElectrumX.Mempool.Index
import ElectrumX.Mempool.Reports
import ElectrumX.Mempool.Histogram
import ElectrumX.Mempool.Acceptance
import ElectrumX.Mempool.Balance
