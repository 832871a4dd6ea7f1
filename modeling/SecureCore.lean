import SecureCore.AtomicProgram
import SecureCore.LittleEndian
import SecureCore.CheckedArithmetic
import SecureCore.Primitives
import SecureCore.SymbolicPrimitives
import SecureCore.RootState
import SecureCore.MessageCipher
import SecureCore.Evolution
import SecureCore.AntiDos
import SecureCore.InitModule
import SecureCore.SessionOps
import SecureCore.Replay
import SecureCore.AutoCommit
import SecureCore.SendInterleaving
import SecureCore.TwoParty
import SecureCore.NonceUniqueness
import SecureCore.RootAgreement
import SecureCore.Convergence
import SecureCore.PackedBits
import SecureCore.ByteImage
import SecureCore.FallibleState
import SecureCore.FaultyFile
import SecureCore.Superblock
import SecureCore.VirtualVolume
import SecureCore.AllocationInvariant
import SecureCore.VolumeImage
import SecureCore.IndexPool
import SecureCore.AllocatorRefinement
import SecureCore.Reopen
import SecureCore.BlockStore
import SecureCore.SessionSteps
import SecureCore.ChainedRoots
import SecureCore.KeyPinning
import SecureCore.Reinitialisation
import SecureCore.TamperEvidence
import SecureCore.Recovery
import SecureCore.TornWrite
import SecureCore.VaultEntries
import SecureCore.VaultSteps
import SecureCore.ReservedRegion
import SecureCore.Ownership
import SecureCore.IdStamp
import SecureCore.FailedAllocation
import SecureCore.TailPadding
import SecureCore.ConstantFlow
import SecureCore.SendPipeline
import SecureCore.KemExport
import SecureCore.CanaryVerdict
import SecureCore.SoundContainers
import SecureCore.ConcurrentRecovery
import SecureCore.MutexThreads
import SecureCore.LockedProgram
import SecureCore.SessionLocks
import SecureCore.FlowLocks
import SecureCore.FlowWorkers
import SecureCore.FlowMailbox
import SecureCore.FlowCallbacks
import SecureCore.HeaderBinding
import SecureCore.RecoveryPaths
import SecureCore.EntropyGate
import SecureCore.NativeBuffers
import SecureCore.EpochLimit
import SecureCore.WriteRuns
import SecureCore.DiskWipe
import SecureCore.InterruptedCreation
import SecureCore.VaultSelection
import SecureCore.BatchTransfer
import SecureCore.RingWindow
import SecureCore.ClockAlign
import SecureCore.Ratchet
import SecureCore.RootLineage
import SecureCore.Compromise
import SecureCore.AbandonedRoots
import SecureCore.LockReduction
import SecureCore.ClientCalls
import SecureCore.SectionRefinement
import SecureCore.PeerKeyRaces
import SecureCore.FaultyOpening
import SecureCore.ShieldedWrites
import SecureCore.Durability
import SecureCore.InterruptedPurge
import SecureCore.DisciplinedHost
import SecureCore.OrderStatistics
import SecureCore.SkewRobustness
import SecureCore.BlockHeap
import SecureCore.NativeHeap
import SecureCore.ContainerLifetime
import SecureCore.SessionEntries
