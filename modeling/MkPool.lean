import MkPool.Lib.Interaction
import MkPool.JsonValue
import MkPool.Config
import MkPool.Address
import MkPool.Merkle
import MkPool.Vardiff
import MkPool.Job
import MkPool.Coinbase
import MkPool.Calls
import MkPool.ClientSession
import MkPool.Stratum
import MkPool.Submit
import MkPool.StratumV2
import MkPool.Stratifier
import MkPool.Desk
import MkPool.Published
import MkPool.Effects
import MkPool.NotifiedWork
import MkPool.Play
import MkPool.AdvertisedDifficulty
import MkPool.ShareWatch
import MkPool.DeskWatch
import MkPool.AuxSolves
import MkPool.SessionV2
import MkPool.Channels
import MkPool.EmittedWork
import MkPool.WorkAgreement
import MkPool.Pool
import MkPool.PoolLog
import MkPool.Standing
import MkPool.Validated
import MkPool.VersionMask
import MkPool.Blacklist
import MkPool.Admission
import MkPool.Generator
import MkPool.TemplateOrder
import MkPool.Lib.RoundRobin
import MkPool.UpstreamClient
import MkPool.Slots
import MkPool.DbWorker
import MkPool.Lib.Outbox
import MkPool.Persistence
import MkPool.RoundEffort
import MkPool.Lib.Codec
import MkPool.Lib.Transaction
import MkPool.CoinbaseLayout
import MkPool.ScriptLimit
import MkPool.BlockIdentity
import MkPool.PaidSessions
import MkPool.Payouts
import MkPool.ValidCoinbase
import MkPool.JobReference
import MkPool.Lib.Tickets
import MkPool.Sv2Pairing
import MkPool.Sv2Slices
import MkPool.Sv2Verdicts
import MkPool.Bindings
import MkPool.Following
import MkPool.Handshake
import MkPool.ProxyShares
import MkPool.RelayShares
import MkPool.SlotOwnership
import MkPool.Sv2Proxy
import MkPool.UpstreamVerdicts
import MkPool.BlockRelay
import MkPool.ClusterMiner
import MkPool.ClusterRuns
import MkPool.Lib.Cursor
import MkPool.Lib.Segments
import MkPool.Lockstep
import MkPool.MinerCache
import MkPool.Orphans
import MkPool.StreamIntegrity
import MkPool.AddressDecode
import MkPool.Spelling
import MkPool.Credits
import MkPool.Broadcast
import MkPool.Connector
import MkPool.CustomJobs
import MkPool.ExactOutputs
import MkPool.FailedTemplates
import MkPool.Greeting
import MkPool.ReadLoop
import MkPool.TargetScale
import MkPool.ZcashWork
import MkPool.HeightPush
import MkPool.Base58Agreement
import MkPool.CustomDonation
import MkPool.MistypedAddress
import MkPool.CashPayouts
import MkPool.ZcashBounds
import MkPool.ZcashPayout
import MkPool.EquihashVerifier
import MkPool.Acceptance
import MkPool.Solves
import MkPool.ProxyMasks
import MkPool.Translation
import MkPool.RealTimeTarget
import MkPool.Retargets
import MkPool.NodeRequest
import MkPool.WriteQueue
import MkPool.Sv2Pump
import MkPool.JobRecency
import MkPool.ConnectionBudget
import MkPool.MirroredDifficulty
import MkPool.Sv2JobIds
import MkPool.PrevHashOrder
import MkPool.FreshWork
import MkPool.StaticFiles
import MkPool.RequestIds
import MkPool.RedirectorPolicy
import MkPool.FleetRows
import MkPool.LogTail
import MkPool.BlockAssembly
import MkPool.GracefulDrain
import MkPool.NoiseAgreement
import MkPool.UpstreamBalance
import MkPool.StickyPrimary
import MkPool.ShareLedger
import MkPool.StoredShares
import MkPool.FoundBlocks
import MkPool.ZmqClient
import MkPool.RedirectorSession
