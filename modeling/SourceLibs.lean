import SourceLibs.CircularBuffer.RangeInsert
import SourceLibs.CircularBuffer.Throwing
import SourceLibs.CppInt.Bitwise
import SourceLibs.CppInt.Divide
import SourceLibs.CppInt.FixedShift
import SourceLibs.CppInt.FromBytes
import SourceLibs.CppInt.Gcd
import SourceLibs.CppInt.Increment
import SourceLibs.CppInt.StringAssignment
import SourceLibs.CppInt.TextRoundTrip
import SourceLibs.Crc.Augmented
import SourceLibs.DynamicBitset.Text
import SourceLibs.Gregorian.WeekNumber
import SourceLibs.Heap.Comparison
import SourceLibs.Heap.DaryCopy
import SourceLibs.Heap.DaryHeap
import SourceLibs.Heap.FailedPush
import SourceLibs.Heap.FibonacciLazy
import SourceLibs.Heap.FibonacciRank
import SourceLibs.Heap.SkewHeap
import SourceLibs.Rational.Ordering
import SourceLibs.Redis.Bitfield
import SourceLibs.Redis.DictIteration
import SourceLibs.Redis.DictScan
import SourceLibs.Redis.GlobMatching
import SourceLibs.Redis.HyperLogLog
import SourceLibs.Redis.InlineRequests
import SourceLibs.Redis.IntegerText
import SourceLibs.Redis.Intset
import SourceLibs.Redis.Lzf
import SourceLibs.Redis.QuicklistDelRange
import SourceLibs.Redis.QuicklistIteration
import SourceLibs.Redis.ReplicationBacklog
import SourceLibs.Redis.Bitops
import SourceLibs.Redis.RdbStrings
import SourceLibs.Redis.SdsQuoting
import SourceLibs.Redis.SkiplistRange
import SourceLibs.Redis.ZiplistMerge
import SourceLibs.Skynet.Ownership
import SourceLibs.Skynet.HandleTable
import SourceLibs.Skynet.ReservedHandle
import SourceLibs.Skynet.Creation
import SourceLibs.Asio.TimerRuns
import SourceLibs.Skynet.Timer
import SourceLibs.PropertyTree.JsonRoundTrip
import SourceLibs.SgiStl.RbKeys
import SourceLibs.SgiStl.Permutations
import SourceLibs.Searching.BoyerMoore
import SourceLibs.Algorithm.Hex
import SourceLibs.Random.Invert
import SourceLibs.Random.FairDraws
