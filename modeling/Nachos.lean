import Nachos.Verified.FrameBookkeeping
import Nachos.Verified.DemandPaging
import Nachos.Verified.ForkCopy
import Nachos.Verified.FrameIndices
import Nachos.Verified.FirstTouch
import Nachos.Verified.Join
import Nachos.Verified.PidAllocation
import Nachos.Verified.DescriptorBinding
import Nachos.Verified.LockWaiters
import Nachos.Verified.SynchronizedList
import Nachos.Verified.SynchronousDisk
import Nachos.Verified.ElevatorShutdown
import Nachos.Verified.DiskLatency
import Nachos.Verified.CopyRoundTrip
import Nachos.Verified.FailedExec
import Nachos.Verified.FileEntries
import Nachos.Verified.ReadContract
import Nachos.Verified.CoffImages
import Nachos.Verified.Multiplication
import Nachos.Verified.AluInstructions
import Nachos.Verified.InstructionSafety
import Nachos.Verified.RegisterFile
import Nachos.Verified.FileCreation
import Nachos.Verified.FileIsolation
import Nachos.Verified.DirectoryMap
import Nachos.Verified.FrameReplacement
import Nachos.Verified.HeaderArithmetic
import Nachos.Verified.UserStrings
import Nachos.Verified.SortedLists
import Nachos.Verified.NextFloor
import Nachos.Verified.BitMapSet
import Nachos.Verified.ConsoleInput
import Nachos.Verified.OverflowTraps
import Nachos.Verified.CallArguments
import Nachos.Verified.StoreAgreement
import Nachos.Verified.ThreadReclamation
