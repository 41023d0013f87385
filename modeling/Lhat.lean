import Lhat.Carry.Holds
import Lhat.Check.MemberIndex
import Lhat.Collector.Actions
import Lhat.Collector.Safety
import Lhat.Collector.WeakCache
import Lhat.Finally.Collector
import Lhat.Finally.Runs
import Lhat.Finally.Slices
import Lhat.Foundation.MergePasses
import Lhat.Frames.Delivery
import Lhat.Foundation.SequenceMap
import Lhat.Table.Reference
import Lhat.Table.Runs
import Lhat.Table.Sort
import Lhat.Table.Soundness
import Lhat.Table.Walk
import Lhat.Carry.Balance
import Lhat.Compile.Emitter
import Lhat.Exits.Suspend
import Lhat.Captures.Costates
import Lhat.Assign.Reassign
import Lhat.Channel.Runs
import Lhat.Channel.Waits
import Lhat.Binary.Refill
import Lhat.Record.RoundTrip
import Lhat.Task.Runs
import Lhat.Task.Waking
import Lhat.Wait.Runs
import Lhat.Reload.Discards
import Lhat.Lexing.Runs
import Lhat.Lton.Denotes
import Lhat.Table.Inverse
import Lhat.Regex.Search
import Lhat.Json.Canonical
import Lhat.Check.Symmetric
import Lhat.Arithmetic.Widening
import Lhat.Arithmetic.Counted
import Lhat.Runtime.NumberFormat
import Lhat.Compile.ChainRuns
import Lhat.Numerals.Literals
import Lhat.Descriptor.Exact
import Lhat.Paths.Relative
import Lhat.Regex.Agree
import Lhat.Table.Joined
import Lhat.Reload.Ordered
import Lhat.Table.InPlace
import Lhat.Collector.Detached
import Lhat.Lsp.Position
import Lhat.Random.Fair
