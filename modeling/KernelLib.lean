import KernelLib.AnsweredRuns
import KernelLib.AvlContainer
import KernelLib.AvlRoutines
import KernelLib.CascadingDelete
import KernelLib.ContainerFaults
import KernelLib.ContainerModel
import KernelLib.ContainerRefines
import KernelLib.ContainerValues
import KernelLib.CountedObjects
import KernelLib.CountedStrings
import KernelLib.FifoElements
import KernelLib.FifoThreads
import KernelLib.GuardedSections
import KernelLib.HandleAssign
import KernelLib.HandleLedger
import KernelLib.InstallDriver
import KernelLib.JustACall
import KernelLib.KfifoBytes
import KernelLib.KfifoRefines
import KernelLib.KfifoSizes
import KernelLib.KfifoThreads
import KernelLib.LinkedChains
import KernelLib.LinkedRing
import KernelLib.ListAppend
import KernelLib.ListHeads
import KernelLib.ListItems
import KernelLib.ListModel
import KernelLib.ListRefines
import KernelLib.LittleEndian
import KernelLib.LockerWaits
import KernelLib.LookasidePools
import KernelLib.LoopRounds
import KernelLib.ModuleNames
import KernelLib.OrderedEntries
import KernelLib.OrderedWalks
import KernelLib.PoolBlocks
import KernelLib.QueueRing
import KernelLib.RefHolder
import KernelLib.RegistryCalls
import KernelLib.RegistryKeys
import KernelLib.RegistryNames
import KernelLib.RegistryOwners
import KernelLib.RegistryPaths
import KernelLib.RegistryRemove
import KernelLib.RegistryRoundTrip
import KernelLib.RegistrySegments
import KernelLib.RegistryTree
import KernelLib.RegistryValues
import KernelLib.RingBytes
import KernelLib.ScanReplace
import KernelLib.ScopedLockers
import KernelLib.ServiceMessages
import KernelLib.ServiceOperater
import KernelLib.ServiceReports
import KernelLib.SetAsMap
import KernelLib.ShareCounts
import KernelLib.SharedPtrCounts
import KernelLib.SharedPtrExact
import KernelLib.SharedPtrSteps
import KernelLib.SoleOwners
import KernelLib.SplitPaths
import KernelLib.StackItems
import KernelLib.StepRuns
import KernelLib.StringCompare
import KernelLib.StringConstruct
import KernelLib.StringEnds
import KernelLib.StringFinds
import KernelLib.StringFold
import KernelLib.StringKeys
import KernelLib.StringOrder
import KernelLib.StringParts
import KernelLib.StringPasses
import KernelLib.StringReplace
import KernelLib.StringRfinds
import KernelLib.StringRounds
import KernelLib.StringRuns
import KernelLib.StringSearch
import KernelLib.StringSplit
import KernelLib.StringStorage
import KernelLib.ThreadOwners
import KernelLib.Threads
import KernelLib.Uint64Table
import KernelLib.VariantModel
import KernelLib.VariantStorage
import KernelLib.VariantValues
import KernelLib.VectorAliases
import KernelLib.VectorAssign
import KernelLib.VectorCalls
import KernelLib.VectorCapacity
import KernelLib.VectorGaps
import KernelLib.VectorItems
import KernelLib.VectorMethods
import KernelLib.VectorModel
import KernelLib.VectorOwners
import KernelLib.VectorRanges
import KernelLib.VectorRefines
import KernelLib.VectorSteps
import KernelLib.VectorTruth
import KernelLib.WideMemory
import KernelLib.Word32
import KernelLib.WorkQueueCalls
import KernelLib.WorkQueueDrain
import KernelLib.WorkQueueMemory
import KernelLib.WorkQueueOrder
import KernelLib.WorkQueueSections
import KernelLib.WorkQueueStatements
import KernelLib.WorkQueueThreads
import KernelLib.WorkerCreate
