import Reclaim.Bag.Script
import Reclaim.Registry.Script
import Reclaim.Slot.Script
import Reclaim.Stack.Script
import Reclaim.Waiter.Script
import Reclaim.World.Reachable
import Reclaim.Interleaved.Protection
import Reclaim.Interleaved.Queue
import Reclaim.Interleaved.Stack
import Reclaim.Interleaved.Waiter
import Reclaim.Trial.Pipe
import Reclaim.Trial.Stress
import Reclaim.Proofs.HazardSafety
import Reclaim.Proofs.Conservation
import Reclaim.Proofs.ReturnedValues
import Reclaim.Proofs.InterruptedRemovals
import Reclaim.Proofs.RegistryCounts
import Reclaim.Proofs.Ownership
import Reclaim.Proofs.Interleaved.HazardScans
import Reclaim.Proofs.Interleaved.QueueDelivery
import Reclaim.Proofs.Interleaved.QueueChain
import Reclaim.Proofs.Interleaved.Wakeups
import Reclaim.Proofs.BagBounds
import Reclaim.Proofs.RegistryPeak
import Reclaim.Proofs.FullFlush
import Reclaim.Proofs.EmptyQueues
import Reclaim.Proofs.DroppedQueues
import Reclaim.Proofs.RemovalAttempts
import Reclaim.Proofs.QueueLength
import Reclaim.Proofs.InternalChecks
import Reclaim.Proofs.Adoption
import Reclaim.Proofs.ThreadExits
import Reclaim.Proofs.FlushedBags
import Reclaim.Proofs.RecordCache
import Reclaim.Proofs.MergedBags
import Reclaim.Proofs.LoneWaits
import Reclaim.Proofs.RemovalRounds
import Reclaim.Proofs.ScanThreshold
import Reclaim.Proofs.SlotLives
import Reclaim.Proofs.NewContexts
import Reclaim.Proofs.FailedCreations
import Reclaim.Proofs.DrainedBags
import Reclaim.Proofs.Interleaved.TakenChains
