import Anoncoin.CoinsRefinement
import Anoncoin.Block
import Anoncoin.ConnectBlock
import Anoncoin.Ledger
import Anoncoin.ConnectSpec
import Anoncoin.Supply
import Anoncoin.Disconnect
import Anoncoin.ConnectAgreement
import Anoncoin.ConnectFrame
import Anoncoin.ConnectSafety
import Anoncoin.Chainstate
import Anoncoin.ChainReplay
import Anoncoin.ChainstateRuns
import Anoncoin.ChainstateSafety
import Anoncoin.BlockIndex
import Anoncoin.HeaderRules
import Anoncoin.BlockIdentity
import Anoncoin.Reindex
import Anoncoin.Pid
import Anoncoin.PidCache
import Anoncoin.BlockTree
import Anoncoin.TreeInvariant
import Anoncoin.TreeCalls
import Anoncoin.BestChain
import Anoncoin.CheckBlockIndex
import Anoncoin.ChainSelection
import Anoncoin.Lib.Wire
import Anoncoin.Serialize
import Anoncoin.TransactionCodec
import Anoncoin.CoinsCodec
import Anoncoin.MerkleTree
import Anoncoin.PartialMerkleTree
import Anoncoin.Compact
import Anoncoin.NextWork
import Anoncoin.EvalScript
import Anoncoin.ScriptLimits
import Anoncoin.SigOps
import Anoncoin.SignatureHash
import Anoncoin.Verdict
import Anoncoin.SigOpLimit
import Anoncoin.BlockDownload
import Anoncoin.InputChecks
import Anoncoin.Mempool
import Anoncoin.StreamType
import Anoncoin.Framing
import Anoncoin.CheckQueue
import Anoncoin.KeyStore
import Anoncoin.Lib.Arrivals
import Anoncoin.MempoolAccept
import Anoncoin.TxRelay
import Anoncoin.IndexReload
import Anoncoin.Restart
import Anoncoin.TimeData
import Anoncoin.AddrMan
import Anoncoin.AddrTables
import Anoncoin.AddrInvariant
import Anoncoin.AddrOperations
import Anoncoin.AddrManCheck
import Anoncoin.AddrManCodec
import Anoncoin.AddrReload
import Anoncoin.AddrIndex
import Anoncoin.AddrRoundTrip
import Anoncoin.AddrIndexSteps
import Anoncoin.AddrIndexRuns
import Anoncoin.KgwExact
import Anoncoin.Reconsider
import Anoncoin.LegacyRetarget
import Anoncoin.Lib.Radix
import Anoncoin.Lib.Text
import Anoncoin.Subnet
import Anoncoin.Subsidy
import Anoncoin.Base58
import Anoncoin.CoinSelection
import Anoncoin.Standard
import Anoncoin.WalletAmounts
import Anoncoin.CreateTransaction
import Anoncoin.PidPanics
import Anoncoin.PidLimits
import Anoncoin.PidStats
import Anoncoin.KeyPool
import Anoncoin.WalletStartup
import Anoncoin.ScriptRuns
import Anoncoin.Signing
import Anoncoin.Rescan
import Anoncoin.AddressGroups
import Anoncoin.AccountingEntry
import Anoncoin.Lib.Matching
import Anoncoin.MultiSig
import Anoncoin.CanonicalPushes
import Anoncoin.DerChecks
import Anoncoin.Lib.OrderedSet
import Anoncoin.SignatureCache
import Anoncoin.StandardForms
import Anoncoin.CombineSignatures
import Anoncoin.FindAndDelete
import Anoncoin.Lib.PairTree
import Anoncoin.MerkleMutation
import Anoncoin.ScriptNumber
import Anoncoin.LastCheckpoint
import Anoncoin.MerkleBranch
import Anoncoin.SkipList
import Anoncoin.BlockFetch
import Anoncoin.Lib.Worklist
import Anoncoin.MempoolRemove
import Anoncoin.BlockFiles
import Anoncoin.DiskRanges
import Anoncoin.Lib.Limbs
import Anoncoin.BaseUint
import Anoncoin.Lib.Rounding
import Anoncoin.CompactCodec
import Anoncoin.BlockProof
import Anoncoin.AmountCodec
import Anoncoin.VarInt
import Anoncoin.Lib.Decimal
import Anoncoin.Money
import Anoncoin.Lib.BitArray
import Anoncoin.Bloom
import Anoncoin.Lib.MixedDivision
import Anoncoin.FeeRate
import Anoncoin.Lib.Samples
import Anoncoin.Lib.Double
import Anoncoin.FeeEstimator
import Anoncoin.InputSums
import Anoncoin.Lib.Regroup
import Anoncoin.Lib.TextCodec
import Anoncoin.Base64
import Anoncoin.I2pNames
import Anoncoin.RollingBloom
import Anoncoin.Lib.Multimap
import Anoncoin.LimitedMap
import Anoncoin.SocketSend
import Anoncoin.AddrMessages
import Anoncoin.WalletPassphrase
import Anoncoin.BufferedFile
import Anoncoin.UintArithmetic
import Anoncoin.KgwAverage
import Anoncoin.VerifyDB
import Anoncoin.FullNode
import Anoncoin.FullNodeRuns
import Anoncoin.FullNodeAgreement
import Anoncoin.FullNodeSteps
import Anoncoin.ProcessMessages
import Anoncoin.MessageLink
