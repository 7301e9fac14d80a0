import Farron.Resumption.Program
import Farron.Resumption.Interleave
import Farron.Fat.Layout
import Farron.Fat.State
import Farron.Fat.Clusters
import Farron.Fat.Files
import Farron.Chains.Linked
import Farron.Fat.Volume
import Farron.Fat.Allocation
import Farron.Fat.Chain
import Farron.Fat.Contents
import Farron.Fat.FileArrays
import Farron.Fat.Directory
import Farron.Chains.Partition
import Farron.Fat.Cache
import Farron.Fat.Carving
import Farron.Fat.Growth
import Farron.Fat.ChainsKept
import Farron.Resumption.Rely
import Farron.Fat.References
import Farron.Kernel.Frames
import Farron.Kernel.Sleep
import Farron.Kernel.SleepLock
import Farron.Kernel.Wakeups
import Farron.Pipe.Pipe
import Farron.Pipe.Reading
import Farron.Pipe.Stream
import Farron.Pipe.Waiting
import Farron.Bio.Buffers
import Farron.Bio.Coherence
import Farron.Bio.Calls
import Farron.Resumption.Harts
import Farron.Resumption.Conditions
import Farron.Proc.Code
import Farron.Proc.Family
import Farron.Proc.Sections
import Farron.Proc.Lives
import Farron.Proc.Threads
import Farron.Proc.Calls
import Farron.Proc.Runs
import Farron.Proc.Killing
import Farron.Memory.Pages
import Farron.Memory.Vm
import Farron.Memory.Books
import Farron.Memory.Walks
import Farron.Memory.Tables
import Farron.Memory.Teardown
import Farron.Memory.Spaces
import Farron.Memory.Resize
import Farron.Memory.AllOrNothing
import Farron.Memory.Copies
import Farron.Memory.Procs
import Farron.Memory.Images
import Farron.Memory.Children
import Farron.Memory.Forks
import Farron.Memory.Agreement
import Farron.Fat.Slots
import Farron.Fat.Records
import Farron.Fat.Lookup
import Farron.Fat.Handles
import Farron.Fat.Paths
import Farron.Fat.RoundTrip
import Farron.Kernel.Guarded
import Farron.Memory.Freelist
import Farron.Memory.Allocator
import Farron.Ring.Window
import Farron.Console.Console
import Farron.Dmac.Waiting
import Farron.Console.Discipline
import Farron.Console.Lines
import Farron.Console.Reading
import Farron.Virtio.Disk
import Farron.Virtio.Requests
import Farron.Virtio.Protocol
import Farron.File.Table
import Farron.Holders.Exchange
import Farron.File.Counts
import Farron.File.Calls
import Farron.File.Forks
import Farron.File.Counted
import Farron.File.SysPipe
import Farron.Strings.Buffer
import Farron.Shell.Variables
import Farron.Fat.Legal
import Farron.Fat.Shortnames
import Farron.File.Stat
import Farron.File.Leaks
import Farron.File.Offsets
import Farron.File.Listing
import Farron.File.Cwd
import Farron.Fat.Cursor
import Farron.Fat.Damage
import Farron.Memory.Exec
import Farron.Xargs.Readline
import Farron.Memory.Maps
import Farron.Chains.Circle
import Farron.Memory.Sbrk
import Farron.Umalloc.Blocks
import Farron.Umalloc.Huge
import Farron.Intr.Code
import Farron.Intr.Nesting
import Farron.Intr.Runs
import Farron.Descent.Parser
import Farron.Shell.Buffers
import Farron.Shell.Sessions
import Farron.Memory.Calls
import Farron.Memory.Spending
import Farron.Memory.Building
import Farron.Memory.Segments
import Farron.Memory.Arguments
import Farron.Memory.Execs
import Farron.Memory.Lifetimes
import Farron.Memory.Guarantees
