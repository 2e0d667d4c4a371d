import NgxRpc.Foundation.Runs
import NgxRpc.Foundation.CircularList
import NgxRpc.Notify
import NgxRpc.IdleList
import NgxRpc.Task
import NgxRpc.Dispatch
import NgxRpc.IdleRuns
import NgxRpc.Booking
import NgxRpc.Custody
import NgxRpc.Wakeup
import NgxRpc.Foundation.Loop
import NgxRpc.Foundation.CInt
import NgxRpc.Foundation.Varint
import NgxRpc.CodedInput
import NgxRpc.CodedReads
import NgxRpc.WireFormat
import NgxRpc.CodedOutput
import NgxRpc.UnknownFields
import NgxRpc.Inspect
import NgxRpc.Buffer
import NgxRpc.Reader
import NgxRpc.ShmWriter
import NgxRpc.Serialize
import NgxRpc.Header
import NgxRpc.TaskMemory
import NgxRpc.Channel
import NgxRpc.Calls
import NgxRpc.MemoryRuns
import NgxRpc.Leak
import NgxRpc.ReaderLaws
import NgxRpc.Parse
import NgxRpc.Body
import NgxRpc.Fifo
import NgxRpc.Affinity
import NgxRpc.Foundation.Potential
import NgxRpc.Settling
import NgxRpc.Foundation.Simulation
import NgxRpc.Lifecycle
import NgxRpc.Order
import NgxRpc.Departure
import NgxRpc.ProcessTable
import NgxRpc.OutputStream
import NgxRpc.ChainWriter
import NgxRpc.WriterAgreement
import NgxRpc.Counters
import NgxRpc.LastBuf
import NgxRpc.Refill
import NgxRpc.FowardDone
import NgxRpc.Service
import NgxRpc.Path
import NgxRpc.HeaderLaw
import NgxRpc.Exhaustion
import NgxRpc.Construction
import NgxRpc.ChannelHeap
import NgxRpc.Foundation.Search
import NgxRpc.Text
import NgxRpc.Routes
import NgxRpc.FileNames
import NgxRpc.GeneratedNames
import NgxRpc.Foundation.SourceText
import NgxRpc.Foundation.Template
import NgxRpc.Foundation.Printer
import NgxRpc.Templates
import NgxRpc.Generator
import NgxRpc.Foundation.References
import NgxRpc.GeneratedFiles
import NgxRpc.Nesting
import NgxRpc.Foundation.Statements
import NgxRpc.Registration
import NgxRpc.Declarations
