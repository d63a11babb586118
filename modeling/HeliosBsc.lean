import HeliosBsc.Lib.Result
import HeliosBsc.Lib.BigEndian
import HeliosBsc.Lib.Patricia
import HeliosBsc.Lib.Keccak
import HeliosBsc.Lib.Machine
import HeliosBsc.Lib.Bisect
import HeliosBsc.Lib.HashChain
import HeliosBsc.Lib.Panics
import HeliosBsc.Lib.Json
import HeliosBsc.Lib.Loop
import HeliosBsc.Types.Bytes
import HeliosBsc.Execution.Rlp
import HeliosBsc.Execution.RlpRoundTrip
import HeliosBsc.Execution.RlpCanonical
import HeliosBsc.Execution.RlpBounds
import HeliosBsc.Execution.HexPrefix
import HeliosBsc.Execution.Mpt
import HeliosBsc.Execution.OrderedTrie
import HeliosBsc.Execution.NodeEncoding
import HeliosBsc.Execution.MptSound
import HeliosBsc.Execution.ListBinding
import HeliosBsc.Execution.Proof
import HeliosBsc.Execution.ProofSound
import HeliosBsc.Execution.RawTx
import HeliosBsc.Execution.SigningHash
import HeliosBsc.Execution.SigningBounds
import HeliosBsc.Execution.MptAgree
import HeliosBsc.Config.Forks
import HeliosBsc.Config.Extra
import HeliosBsc.Execution.Call
import HeliosBsc.Execution.CallSound
import HeliosBsc.Execution.CallRounds
import HeliosBsc.Execution.Estimate
import HeliosBsc.Types.Checkpoint
import HeliosBsc.Consensus.Seal
import HeliosBsc.Consensus.Vote
import HeliosBsc.Consensus.VoteCodec
import HeliosBsc.Consensus.VoteRlp
import HeliosBsc.Consensus.AttestationCodec
import HeliosBsc.Consensus.Snapshot
import HeliosBsc.Consensus.SignRecently
import HeliosBsc.Consensus.Engine
import HeliosBsc.Consensus.SnapshotStep
import HeliosBsc.Consensus.EngineStep
import HeliosBsc.Consensus.History
import HeliosBsc.Consensus.Finality
import HeliosBsc.Consensus.Adoption
import HeliosBsc.Consensus.Quorum
import HeliosBsc.Consensus.HeaderBinding
import HeliosBsc.Consensus.Generations
import HeliosBsc.Consensus.Rejection
import HeliosBsc.Consensus.Persist
import HeliosBsc.Consensus.SetShape
import HeliosBsc.Consensus.SealingRate
import HeliosBsc.Consensus.NewestSafe
import HeliosBsc.Consensus.SafeSpec
import HeliosBsc.Consensus.Restart
import HeliosBsc.Mock.Sealed
import HeliosBsc.Mock.SoleSealer
import HeliosBsc.Mock.Activation
import HeliosBsc.Consensus.EpochSeed
import HeliosBsc.Consensus.EpochWalk
import HeliosBsc.Node.Sync
import HeliosBsc.Node.Lockstep
import HeliosBsc.Node.Refresh
import HeliosBsc.Node.Walk
import HeliosBsc.Node.Lookback
import HeliosBsc.Mock.LastHeights
import HeliosBsc.Mock.Pool
import HeliosBsc.Consensus.TurnLength
import HeliosBsc.Consensus.EpochRules
import HeliosBsc.Node.Rollback
import HeliosBsc.Node.ReadHead
import HeliosBsc.Node.SafeThreshold
import HeliosBsc.Node.ServedHead
import HeliosBsc.Node.EthProof
import HeliosBsc.Mock.SoleChain
import HeliosBsc.Node.Logs
import HeliosBsc.Node.Receipts
import HeliosBsc.Node.GetLogs
import HeliosBsc.Node.LogFilter
import HeliosBsc.Node.LogFilterOnce
import HeliosBsc.Node.BlockFilter
import HeliosBsc.Node.CallBlock
import HeliosBsc.Consensus.Backoff
import HeliosBsc.Config.ExtraCodec
import HeliosBsc.Consensus.Malleability
import HeliosBsc.Node.BlockTags
import HeliosBsc.Node.ReceiptEncoding
import HeliosBsc.Node.ReceiptBinding
import HeliosBsc.Node.HeaderChunks
import HeliosBsc.Node.HeaderBatches
import HeliosBsc.Lib.Justification
import HeliosBsc.Mock.VotingChain
import HeliosBsc.Consensus.Branches
import HeliosBsc.Consensus.AccountableSafety
import HeliosBsc.Consensus.TipHash
import HeliosBsc.Lib.RoundRobin
import HeliosBsc.Consensus.Schedule
import HeliosBsc.Node.CutWalk
import HeliosBsc.Lib.Queries
import HeliosBsc.Execution.VerifiedCall
import HeliosBsc.Execution.CallAgree
import HeliosBsc.Execution.WorldState
import HeliosBsc.Lib.LruTable
import HeliosBsc.Node.FilterStore
import HeliosBsc.Node.Filters
import HeliosBsc.Node.HonestProof
import HeliosBsc.Mock.LoneState
import HeliosBsc.Node.RetainedStorage
import HeliosBsc.Node.StateReads
import HeliosBsc.Node.BlockReads
