import LightWalletd.Computation.OrderedMap
import LightWalletd.Computation.Prog
import LightWalletd.Model.Types
import LightWalletd.Model.Store
import LightWalletd.Model.ClueHints
import LightWalletd.Model.Cache
import LightWalletd.Analysis.LeafSequence
import LightWalletd.Analysis.TipTreeSpec
import LightWalletd.Computation.ProgramClass
import LightWalletd.Analysis.ChainCommands
import LightWalletd.Analysis.Frame
import LightWalletd.Analysis.BlockRows
import LightWalletd.Analysis.RewindLaw
import LightWalletd.Analysis.Opening
import LightWalletd.Analysis.TreeState
import LightWalletd.Analysis.TipTreeInvariant
import LightWalletd.Analysis.Overwrite
import LightWalletd.Model.BlockProcessor
import LightWalletd.Model.ChainPoller
import LightWalletd.Analysis.ChainState
import LightWalletd.Analysis.RewindAgreement
import LightWalletd.Analysis.PollStep
import LightWalletd.Analysis.PollerLinkage
import LightWalletd.Analysis.PollerConvergence
import LightWalletd.Analysis.Pruning
import LightWalletd.Computation.Interleaving
import LightWalletd.Model.TreeHandlers
import LightWalletd.Analysis.TreeWrites
import LightWalletd.Analysis.WriterSteps
import LightWalletd.Analysis.TreeReplies
import LightWalletd.Model.ClueDirectory
import LightWalletd.Model.SendTransaction
import LightWalletd.Analysis.ClueRows
import LightWalletd.Analysis.DirectoryContract
import LightWalletd.Analysis.FirstWriter
import LightWalletd.Analysis.ClueMerge
import LightWalletd.Analysis.ReorgReplay
import LightWalletd.Analysis.RegistrationOrder
import LightWalletd.Analysis.ClueWire
import LightWalletd.Analysis.SendUndo
import LightWalletd.Computation.Pool
import LightWalletd.Computation.Transaction
import LightWalletd.Analysis.ConcurrentClues
import LightWalletd.Analysis.LastingSecrets
import LightWalletd.Model.Digest
import LightWalletd.Analysis.DigestCoverage
import LightWalletd.Computation.Negacyclic
import LightWalletd.Computation.SlotScheme
import LightWalletd.Model.Detection
import LightWalletd.Analysis.DigestWire
import LightWalletd.Analysis.PartialDecryption
import LightWalletd.Analysis.DetectionExact
import LightWalletd.Model.Pir
import LightWalletd.Analysis.PirLimbs
import LightWalletd.Analysis.PirExact
import LightWalletd.Computation.PowersOfTwo
import LightWalletd.Model.PaddedRange
import LightWalletd.Analysis.PaddedBuckets
import LightWalletd.Analysis.DigestAccepted
import LightWalletd.Model.DirectoryHandlers
import LightWalletd.Analysis.DirectoryPrivacy
import LightWalletd.Analysis.QuiescentReplies
import LightWalletd.Analysis.BlockSteps
import LightWalletd.Analysis.TipReplies
import LightWalletd.Analysis.WindowCoherence
import LightWalletd.Analysis.ScanChain
import LightWalletd.Model.SubscribeBlocks
import LightWalletd.Analysis.TipSubscription
import LightWalletd.Computation.Reservations
import LightWalletd.Model.ResourceCaps
import LightWalletd.Analysis.CancelledRequests
import LightWalletd.Analysis.SnapshotRetention
import LightWalletd.Analysis.ClueIdempotence
import LightWalletd.Analysis.FormatChange
import LightWalletd.Analysis.ProcessingErrors
import LightWalletd.Analysis.IndexedContent
import LightWalletd.Model.ClueEncryption
import LightWalletd.Analysis.RingProducts
import LightWalletd.Analysis.ClueEncryption
import LightWalletd.Analysis.DecryptError
import LightWalletd.Model.PeerAddress
import LightWalletd.Analysis.ClientIdentity
import LightWalletd.Computation.WindowCounter
import LightWalletd.Model.RateLimit
import LightWalletd.Analysis.RateLimit
import LightWalletd.Model.DetectionPool
import LightWalletd.Analysis.DetectionPool
import LightWalletd.Computation.Pieces
import LightWalletd.Model.KeyUpload
import LightWalletd.Analysis.KeyUpload
import LightWalletd.Analysis.UploadLoad
import LightWalletd.Analysis.EnvelopeGrammar
import LightWalletd.Analysis.UploadAdmission
import LightWalletd.Analysis.UploadBounds
import LightWalletd.Computation.HashChains
import LightWalletd.Model.RangeStreams
import LightWalletd.Analysis.RangeStreams
import LightWalletd.Analysis.WalletSync
import LightWalletd.Analysis.SparseBlocks
import LightWalletd.Analysis.ClueProvenance
import LightWalletd.Analysis.SendPeers
import LightWalletd.Computation.RecencyTable
import LightWalletd.Model.SendPeers
import LightWalletd.Computation.Upholding
import LightWalletd.Computation.Calls
import LightWalletd.Model.PollLoop
import LightWalletd.Analysis.PollRefinement
import LightWalletd.Computation.Relations
import LightWalletd.Analysis.ServerLife
import LightWalletd.Analysis.Replicas
import LightWalletd.Model.DirectoryAttestation
import LightWalletd.Analysis.DirectoryChanges
import LightWalletd.Analysis.DirectoryLife
import LightWalletd.Analysis.DigestRequests
import LightWalletd.Analysis.RegisteredKeys
import LightWalletd.Model.PirRequests
import LightWalletd.Analysis.PirRequests
import LightWalletd.Analysis.GrowingScan
