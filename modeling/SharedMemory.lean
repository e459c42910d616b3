import SharedMemory.Counter
import SharedMemory.Generations
import SharedMemory.Script
import SharedMemory.Proofs.CombiningOrder
import SharedMemory.Proofs.QueueLinearization
import SharedMemory.Proofs.SlotClaims
import SharedMemory.Proofs.ArrayPairing
import SharedMemory.Proofs.AttemptLaw
import SharedMemory.Proofs.TreiberLaw
import SharedMemory.Proofs.LockExclusion
import SharedMemory.Proofs.EliminationPairs
import SharedMemory.Proofs.LockedLaw
import SharedMemory.Proofs.EliminationLinearization
import SharedMemory.Proofs.BarrierReuse
import SharedMemory.Proofs.CombiningWakeups
import SharedMemory.Proofs.TreiberClients
import SharedMemory.Proofs.TreiberOrder
import SharedMemory.Proofs.QueueLockLine
import SharedMemory.Proofs.QueueLockBook
import SharedMemory.Proofs.QueueLockRuns
import SharedMemory.Proofs.LockUsers
import SharedMemory.Proofs.TicketOrder
import SharedMemory.Proofs.TicketRuns
import SharedMemory.Proofs.TwoPartyRuns
import SharedMemory.Proofs.NodeLifetime
import SharedMemory.Proofs.SerialSections
import SharedMemory.Proofs.MixedExclusion
import SharedMemory.Proofs.SerialLocks
import SharedMemory.Proofs.QueueGrowth
import SharedMemory.Proofs.LockFreedom
import SharedMemory.Proofs.QueueLockFreedom
import SharedMemory.Proofs.StackLockFreedom
import SharedMemory.Proofs.NodeAccounts
import SharedMemory.Proofs.StackAccounts
import SharedMemory.Proofs.EliminationAccounts
import SharedMemory.Proofs.QueueAccounts
import SharedMemory.Proofs.CombiningReservations
import SharedMemory.Proofs.CallRemoval
import SharedMemory.Proofs.CombiningExhaustion
import SharedMemory.Proofs.Conservation
import SharedMemory.Proofs.SlotCycle
import SharedMemory.Proofs.EliminationAlone
import SharedMemory.Proofs.SingleThread
import SharedMemory.Proofs.ConservationCheck
import SharedMemory.Proofs.CombiningPasses
import SharedMemory.Proofs.SingleAttempts
import SharedMemory.Proofs.OperationBudgets
import SharedMemory.Proofs.SlotRounds
import SharedMemory.Proofs.Deadlines
import SharedMemory.Proofs.LinkedQueueLaw
import SharedMemory.Proofs.LockedContainerLaw
import SharedMemory.Proofs.GuardSurrender
